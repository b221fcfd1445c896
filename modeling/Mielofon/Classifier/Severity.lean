import Mielofon.Classifier.Symmetric

namespace Mielofon

open Lib

/-!
# Worse measurements never improve a class

A window is scored dimension by dimension, and its class is the worst score (`quality.rs`).  The
eight dimensions differ in where their value and thresholds are found and in the side a
threshold bounds; what holds of one holds of all.

* `Quality.severity` — the classes from best to worst;
* `Metric` — a scored dimension: its value in a view, its threshold in a class, its side;
* `classifyWindow_eq` — the class in terms of the dimensions;
* `severity_classifyWindow_le_iff` — the bounds of a class, threshold by threshold;
* `severity_mono` — a view that is nowhere better is not classified better;
* `classification_monotone` — a single dimension, and the merges of two halves.
-/

/-- How bad a class is. -/
def Quality.severity : Quality → ℕ
  | .good => 0
  | .acceptable => 1
  | .poor => 2
  | .bad => 3

theorem Quality.severity_le (q : Quality) : q.severity ≤ 3 := by
  cases q <;> decide

/-- A dimension of a window that is scored. -/
inductive Metric where
  | rtt
  | loss
  | jitter
  | tcp
  | udp
  | udp_loss
  | udp_jitter
  | implied
deriving DecidableEq, Repr

namespace Metric

/-- The dimensions, in the order they are scored. -/
def all : List Metric := [rtt, loss, jitter, tcp, udp, udp_loss, udp_jitter, implied]

theorem mem_all (d : Metric) : d ∈ all := by
  cases d <;> decide

/-- Whether the thresholds of the dimension bound it from above. -/
def upper : Metric → Bool
  | rtt | loss | jitter | udp_loss | udp_jitter => true
  | tcp | udp | implied => false

variable {F : Type*}

/-- The value of the dimension. -/
def value : Metric → WindowView F → Option F
  | rtt => WindowView.rtt_ms
  | loss => WindowView.loss_pct
  | jitter => WindowView.jitter_ms
  | tcp => WindowView.tcp_mbps
  | udp => WindowView.udp_mbps
  | udp_loss => WindowView.udp_loss_pct
  | udp_jitter => WindowView.udp_jitter_ms
  | implied => WindowView.implied_tcp_mbps

/-- The view with another value of the dimension. -/
def set : Metric → WindowView F → F → WindowView F
  | rtt, v, x => { v with rtt_ms := some x }
  | loss, v, x => { v with loss_pct := some x }
  | jitter, v, x => { v with jitter_ms := some x }
  | tcp, v, x => { v with tcp_mbps := some x }
  | udp, v, x => { v with udp_mbps := some x }
  | udp_loss, v, x => { v with udp_loss_pct := some x }
  | udp_jitter, v, x => { v with udp_jitter_ms := some x }
  | implied, v, x => { v with implied_tcp_mbps := some x }

theorem value_set (d d' : Metric) (v : WindowView F) (x : F) :
    d'.value (d.set v x) = if d' = d then some x else d'.value v := by
  cases d <;> cases d' <;> rfl

/-- The threshold a class pins the dimension with.  The rate the passive loss allows is scored
    like a measured rate. -/
def threshold : Metric → QualityClass F → Option F
  | rtt => QualityClass.rtt_ms
  | loss => QualityClass.loss_pct
  | jitter => QualityClass.jitter_ms
  | tcp => QualityClass.tcp_mbps
  | udp => QualityClass.udp_mbps
  | udp_loss => QualityClass.udp_loss_pct
  | udp_jitter => QualityClass.udp_jitter_ms
  | implied => QualityClass.tcp_mbps

def thresholds (d : Metric) (cfg : QualityCfg F) : List (Option F) :=
  [cfg.good, cfg.acceptable, cfg.poor, cfg.bad].map d.threshold

variable [LinearOrder F]

/-- Whether a value lies on the wrong side of a threshold. -/
def crosses (d : Metric) (x t : F) : Bool := if d.upper then t < x else x < t

def score (d : Metric) (cfg : QualityCfg F) (x : F) : ℕ :=
  Mielofon.score (d.crosses x) (d.thresholds cfg)

/-- `y` is as bad a value of the dimension as `x`, or worse. -/
def AsBad (d : Metric) (x y : F) : Prop := if d.upper then x ≤ y else y ≤ x

/-- What is measured in `a` is measured in `b`, and no better. -/
def NoBetter (d : Metric) (a b : Option F) : Prop := ∀ x, a = some x → ∃ y, b = some y ∧ d.AsBad x y

theorem AsBad.refl (d : Metric) (x : F) : d.AsBad x x := by
  unfold AsBad
  split <;> exact le_rfl

theorem NoBetter.refl (d : Metric) (a : Option F) : d.NoBetter a a :=
  fun x hx => ⟨x, hx, AsBad.refl d x⟩

/-- A worse value crosses every threshold a better one does. -/
theorem AsBad.crosses {d : Metric} {x y t : F} (h : d.AsBad x y) (hx : d.crosses x t = true) :
    d.crosses y t = true := by
  unfold AsBad at h
  unfold Metric.crosses at hx ⊢
  split at h
  · rename_i hupper
    rw [if_pos hupper, decide_eq_true_eq] at hx ⊢
    exact hx.trans_le h
  · rename_i hlower
    rw [if_neg hlower, decide_eq_true_eq] at hx ⊢
    exact h.trans_lt hx

end Metric

/-! ### The bounds of a class -/

section Class

variable {F : Type*} [LinearOrder F]

/-- The class of a view, dimension by dimension. -/
theorem classifyWindow_eq (cfg : QualityCfg F) (v : WindowView F) :
    classifyWindow cfg v = worst (Metric.all.map (fun d => (d.value v).map (d.score cfg))) := rfl

omit [LinearOrder F] in
/-- A score stays within a bound below bad when no threshold beyond it is crossed. -/
theorem score_le_iff (crosses : F → Bool) (thresholds : List (Option F)) {k : ℕ} (hk : k < 3) :
    score crosses thresholds ≤ k ↔
      ∀ t i, (t, i) ∈ thresholds.zipIdx → t.any crosses = true → i + 1 ≤ k := by
  unfold score
  rw [min_le_iff, foldl_max_le_iff (fun ti : Option F × ℕ => ti.1.any crosses) (fun ti => ti.2 + 1)]
  constructor
  · rintro (⟨-, h⟩ | h)
    · exact fun t i hti ht => h (t, i) hti ht
    · exact absurd h (Nat.not_le.mpr hk)
  · exact fun h => Or.inl ⟨Nat.zero_le k, fun ti hti ht => h ti.1 ti.2 hti ht⟩

/-- The worst score stays within a bound below bad when every score does. -/
theorem severity_worst_le_iff (scores : List (Option ℕ)) {k : ℕ} (hk : k < 3) :
    (worst scores).severity ≤ k ↔ ∀ s, some s ∈ scores → s ≤ k := by
  have hmax : (scores.filterMap id).foldl max 0 ≤ k ↔ ∀ s, some s ∈ scores → s ≤ k := by
    -- unmeasured dimensions have no score and drop out
    have h := foldl_max_le_iff (fun _ => true) (id : ℕ → ℕ) (scores.filterMap id) 0 k
    simpa using h
  rw [← hmax]
  unfold worst
  generalize (scores.filterMap id).foldl max 0 = m
  -- the scores up to two are the classes below bad
  match m with
  | 0 | 1 | 2 => exact Iff.rfl
  | m + 3 =>
    show 3 ≤ k ↔ m + 3 ≤ k
    omega

/-- A class stays within a bound below bad when no dimension crosses a threshold beyond it. -/
theorem severity_classifyWindow_le_iff (cfg : QualityCfg F) (v : WindowView F) {k : ℕ} (hk : k < 3) :
    (classifyWindow cfg v).severity ≤ k ↔
      ∀ d x, Metric.value d v = some x → ∀ t i, (t, i) ∈ (d.thresholds cfg).zipIdx →
        t.any (d.crosses x) = true → i + 1 ≤ k := by
  rw [classifyWindow_eq, severity_worst_le_iff _ hk]
  constructor
  · intro h d x hx
    have hscored : some (d.score cfg x) ∈ Metric.all.map (fun d => (d.value v).map (d.score cfg)) :=
      List.mem_map.mpr ⟨d, d.mem_all, by rw [hx]; rfl⟩
    exact (score_le_iff _ _ hk).mp (h _ hscored)
  · intro h s hs
    obtain ⟨d, -, hd⟩ := List.mem_map.mp hs
    obtain ⟨x, hx, rfl⟩ := Option.map_eq_some_iff.mp hd
    exact (score_le_iff _ _ hk).mpr (h d x hx)

/-- A view in which no dimension is better is not classified better. -/
theorem severity_mono (cfg : QualityCfg F) {v w : WindowView F}
    (h : ∀ d : Metric, d.NoBetter (d.value v) (d.value w)) :
    (classifyWindow cfg v).severity ≤ (classifyWindow cfg w).severity := by
  rcases Nat.lt_or_ge (classifyWindow cfg w).severity 3 with hw | hw
  · rw [severity_classifyWindow_le_iff cfg v hw]
    intro d x hx t i hti ht
    obtain ⟨y, hy, hbad⟩ := h d x hx
    -- whatever `x` crosses `y` crosses too
    refine (severity_classifyWindow_le_iff cfg w hw).mp le_rfl d y hy t i hti ?_
    rw [Option.any_eq_true] at ht ⊢
    obtain ⟨u, rfl, hu⟩ := ht
    exact ⟨u, rfl, hbad.crosses hu⟩
  · -- nothing is worse than bad
    exact (classifyWindow cfg v).severity_le.trans hw

end Class

/-! ### Merges -/

section Merge

variable {F : Type*} [LinearOrder F]

/-- The worse of two metrics is no better than the first. -/
theorem Metric.noBetter_worseUpper {d : Metric} (hd : d.upper = true) (a b : Option F) :
    d.NoBetter a (worseUpper a b) := by
  rintro x rfl
  cases b with
  | none => exact ⟨x, rfl, AsBad.refl d x⟩
  | some y => exact ⟨max x y, rfl, by rw [AsBad, if_pos hd]; exact le_max_left x y⟩

theorem Metric.noBetter_worseLower {d : Metric} (hd : d.upper = false) (a b : Option F) :
    d.NoBetter a (worseLower a b) := by
  rintro x rfl
  cases b with
  | none => exact ⟨x, rfl, AsBad.refl d x⟩
  | some y =>
    refine ⟨min x y, rfl, ?_⟩
    rw [AsBad, hd, if_neg Bool.false_ne_true]
    exact min_le_left x y

/-- A merge takes every dimension from the own view or makes it the worse of both. -/
theorem noBetter_mergePair (own rev : WindowView F) (mode : PairCost) (d : Metric) :
    d.NoBetter (d.value own) (d.value (mergePair own rev mode)) := by
  cases mode with
  | off => exact Metric.NoBetter.refl d _
  | directional =>
    cases d with
    -- a directional merge takes the round trip, its loss and its jitter of both halves
    | rtt | loss | jitter => exact Metric.noBetter_worseUpper rfl _ _
    | tcp | udp | udp_loss | udp_jitter | implied => exact Metric.NoBetter.refl _ _
  | symmetric =>
    cases d with
    | rtt | loss | jitter | udp_loss | udp_jitter => exact Metric.noBetter_worseUpper rfl _ _
    | tcp | udp | implied => exact Metric.noBetter_worseLower rfl _ _

end Merge

/-- For every configuration: a view that has every measurement of another, each as bad or worse,
    is classified no better; so is a view in which one dimension is made worse, or measured
    where it was not; a merge with the reverse half is classified no better than the own view;
    and the merges of two halves into one cost have the same class. -/
theorem classification_monotone {F : Type*} [LinearOrder F] (cfg : QualityCfg F) :
    (∀ v w : WindowView F, (∀ d : Metric, d.NoBetter (d.value v) (d.value w)) →
      (classifyWindow cfg v).severity ≤ (classifyWindow cfg w).severity) ∧
    (∀ (d : Metric) (v : WindowView F) (x : F), (∀ y, d.value v = some y → d.AsBad y x) →
      (classifyWindow cfg v).severity ≤ (classifyWindow cfg (d.set v x)).severity) ∧
    (∀ (own rev : WindowView F) (mode : PairCost),
      (classifyWindow cfg own).severity ≤ (classifyWindow cfg (mergePair own rev mode)).severity) ∧
    ∀ a b : WindowView F, classifyWindow cfg (mergePair a b .symmetric) =
      classifyWindow cfg (mergePair b a .symmetric) := by
  refine ⟨fun v w h => severity_mono cfg h, fun d v x h => severity_mono cfg (fun d' => ?_),
    fun own rev mode => severity_mono cfg (noBetter_mergePair own rev mode),
    fun a b => (mergePair_symmetric cfg a b).1⟩
  rw [Metric.value_set]
  split
  · rename_i hd
    exact fun y hy => ⟨x, rfl, hd ▸ h y (hd ▸ hy)⟩
  · exact Metric.NoBetter.refl d' _

end Mielofon
