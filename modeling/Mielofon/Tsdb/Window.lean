import Mathlib.Data.List.TakeWhile
import Mielofon.Kv
import Mielofon.Tsdb.Batch
import Mielofon.Tsdb.Store

namespace Mielofon

open Lib

/-!
# The window of a link

`Tsdb::window` (`tsdb.rs`) collapses the recent samples of a link into the view the classifier
decides from.  Time, state and utilisation are those of the newest sample; every measurement
comes from the newest sample that has it, as long as that one is inside the measurement's
horizon.

* `WindowSpec`, `WindowView` — the horizons and the view (`store.rs`);
* `Ring.window`, `Tsdb.window` — the collapse, scan by scan;
* `Leg`, `Ring.freshest` — a measurement, and the newest sample inside its horizon that has it;
* `Ring.window_eq` — the view in terms of the newest sample and the freshest ones;
* `Ring.freshest_eq_some_iff` — the freshest sample, second by second.
-/

/-- The horizons of a window. -/
structure WindowSpec where
  /-- How long rtt, loss and jitter stay current. -/
  always_fresh_secs : ℕ
  /-- How long throughput stays current. -/
  tcp_fresh_secs : ℕ
  /-- How long the last known throughput is carried. -/
  tcp_carry_secs : ℕ
deriving DecidableEq, Repr

/-- A collapse of a link's recent samples. -/
structure WindowView (F : Type*) where
  ts : ℕ
  state : ProbeState
  rtt_ms : Option F
  loss_pct : Option F
  jitter_ms : Option F
  tcp_mbps : Option F
  udp_mbps : Option F
  udp_jitter_ms : Option F
  udp_loss_pct : Option F
  util_mbps : F
  tcp_carried : Bool
  /- The passive tier: filled in by the classifier. -/
  mark_loss_pct : Option F
  mark_loss_s_pct : Option F
  mark_loss_l_pct : Option F
  mark_rate_mbps : Option F
  regime : Option Regime
  implied_tcp_mbps : Option F
deriving DecidableEq, Repr

/-- The state a code stands for. -/
def codeToState : ℕ → ProbeState
  | 0 => .quiet
  | 1 => .busy
  | _ => .conflict

theorem codeToState_eq_quiet_iff {code : ℕ} : codeToState code = .quiet ↔ code = 0 := by
  match code with
  | 0 => simp [codeToState]
  | 1 => simp [codeToState]
  | n + 2 => simp [codeToState]

variable {F : Type*}

/-- The view of nothing (`WindowView::default`). -/
def WindowView.default [Zero F] : WindowView F :=
  { ts := 0, state := .quiet, rtt_ms := none, loss_pct := none, jitter_ms := none,
    tcp_mbps := none, udp_mbps := none, udp_jitter_ms := none, udp_loss_pct := none,
    util_mbps := 0, tcp_carried := false, mark_loss_pct := none, mark_loss_s_pct := none,
    mark_loss_l_pct := none, mark_rate_mbps := none, regime := none, implied_tcp_mbps := none }

/-- Whether the window holds a current always-tier measurement. -/
def WindowView.measured (v : WindowView F) : Bool :=
  v.rtt_ms.isSome || v.loss_pct.isSome || v.jitter_ms.isSome

/-- Whether the link is in use and the sample that says so is recent: the classifier then holds
    the last decision. -/
def WindowView.busyHeld (v : WindowView F) (now busy_hold_secs : ℕ) : Bool :=
  (v.state = .busy || v.state = .conflict) && decide (now - v.ts < busy_hold_secs)

/-! ### The scans, newest sample first -/

section Scans

variable (spec : WindowSpec) (now : ℕ)

/-- The always-tier measurements: each from the first sample that has it. -/
def scanAlways : List (RawSample F) → WindowView F → WindowView F
  | [], view => view
  | s :: rest, view =>
    if spec.always_fresh_secs < now - s.ts then view
    else scanAlways rest { view with
      rtt_ms := view.rtt_ms.or s.rtt_ms
      loss_pct := view.loss_pct.or s.loss_pct
      jitter_ms := view.jitter_ms.or s.jitter_ms }

/-- The throughput: fresh, or carried. -/
def scanTcp : List (RawSample F) → WindowView F → WindowView F
  | [], view => view
  | s :: rest, view =>
    if spec.tcp_carry_secs < now - s.ts then view
    else match s.tcp_mbps with
      | some v => { view with
          tcp_mbps := some v, tcp_carried := decide (spec.tcp_fresh_secs < now - s.ts) }
      | none => scanTcp rest view

/-- The UDP leg, which travels as one set. -/
def scanUdp : List (RawSample F) → WindowView F → WindowView F
  | [], view => view
  | s :: rest, view =>
    if spec.tcp_carry_secs < now - s.ts then view
    else if s.udp_mbps.isSome || s.udp_loss_pct.isSome then
      { view with
        udp_mbps := s.udp_mbps, udp_jitter_ms := s.udp_jitter_ms, udp_loss_pct := s.udp_loss_pct }
    else scanUdp rest view

end Scans

/-- Collapse the samples of a ring.  `none` when no sample is within the carry horizon. -/
def Ring.window [Zero F] (ring : Ring F) (spec : WindowSpec) (now : ℕ) : Option (WindowView F) :=
  let newestFirst := ring.samples.reverse
  match newestFirst.find? (fun s => now - s.ts ≤ spec.tcp_carry_secs) with
  | none => none
  | some newest =>
    let view := { (WindowView.default : WindowView F) with
      ts := newest.ts, state := codeToState newest.state, util_mbps := newest.util_mbps }
    some (scanUdp spec now newestFirst (scanTcp spec now newestFirst
      (scanAlways spec now newestFirst view)))

/-- Collapse the recent samples of a link. -/
def Tsdb.window [Zero F] (t : Tsdb F) (link : LinkKey) (spec : WindowSpec) (now : ℕ) :
    Option (WindowView F) :=
  (t.byLink.get link).bind (fun ring => ring.window spec now)

/-- A link without a ring has no window, and neither has an empty ring. -/
theorem Tsdb.window_eq [Zero F] (t : Tsdb F) (link : LinkKey) (spec : WindowSpec) (now : ℕ) :
    t.window link spec now = (t.ringOf link).window spec now := by
  unfold Tsdb.window Tsdb.ringOf
  cases t.byLink.get link with
  | none => rfl
  | some ring => rfl

/-! ### Legs -/

/-- The measurements a window takes, each from a sample of its own. -/
inductive Leg where
  | rtt | loss | jitter | tcp | udp
deriving DecidableEq, Repr

instance : Fintype Leg where
  elems := {.rtt, .loss, .jitter, .tcp, .udp}
  complete l := by cases l <;> decide

namespace Leg

/-- Whether a sample has the measurement. -/
def carriedBy (s : RawSample F) : Leg → Bool
  | .rtt => s.rtt_ms.isSome
  | .loss => s.loss_pct.isSome
  | .jitter => s.jitter_ms.isSome
  | .tcp => s.tcp_mbps.isSome
  | .udp => s.udp_mbps.isSome || s.udp_loss_pct.isSome

/-- How old a sample may be for the window to take the measurement from it. -/
def horizon (spec : WindowSpec) : Leg → ℕ
  | .rtt | .loss | .jitter => spec.always_fresh_secs
  | .tcp | .udp => spec.tcp_carry_secs

end Leg

/-- The newest sample inside the horizon of a leg that has it, newest sample first. -/
def freshest (spec : WindowSpec) (now : ℕ) (newestFirst : List (RawSample F)) (leg : Leg) :
    Option (RawSample F) :=
  (newestFirst.takeWhile (fun s => now - s.ts ≤ leg.horizon spec)).find? (leg.carriedBy ·)

/-- The same, of a ring. -/
def Ring.freshest (ring : Ring F) (spec : WindowSpec) (now : ℕ) (leg : Leg) :
    Option (RawSample F) :=
  Mielofon.freshest spec now ring.samples.reverse leg

/-- The view of a newest sample and of the samples the legs are taken from. -/
def viewOf [Zero F] (spec : WindowSpec) (now : ℕ) (newest : RawSample F)
    (legs : Leg → Option (RawSample F)) : WindowView F :=
  { (WindowView.default : WindowView F) with
    ts := newest.ts
    state := codeToState newest.state
    util_mbps := newest.util_mbps
    rtt_ms := (legs .rtt).bind RawSample.rtt_ms
    loss_pct := (legs .loss).bind RawSample.loss_pct
    jitter_ms := (legs .jitter).bind RawSample.jitter_ms
    tcp_mbps := (legs .tcp).bind RawSample.tcp_mbps
    tcp_carried := (legs .tcp).any (fun s => decide (spec.tcp_fresh_secs < now - s.ts))
    udp_mbps := (legs .udp).bind RawSample.udp_mbps
    udp_jitter_ms := (legs .udp).bind RawSample.udp_jitter_ms
    udp_loss_pct := (legs .udp).bind RawSample.udp_loss_pct }

/-! ### The scans find the freshest samples -/

section Freshest

variable {spec : WindowSpec} {now : ℕ} {s : RawSample F} {rest : List (RawSample F)}

@[simp] theorem freshest_nil (leg : Leg) :
    freshest spec now ([] : List (RawSample F)) leg = none := rfl

theorem freshest_cons_old (leg : Leg) (h : leg.horizon spec < now - s.ts) :
    freshest spec now (s :: rest) leg = none := by
  rw [freshest, List.takeWhile_cons_of_neg (by rw [decide_eq_true_eq]; omega)]
  rfl

theorem freshest_cons (leg : Leg) (h : ¬ leg.horizon spec < now - s.ts) :
    freshest spec now (s :: rest) leg =
      if leg.carriedBy s then some s else freshest spec now rest leg := by
  rw [freshest, List.takeWhile_cons_of_pos (by rw [decide_eq_true_eq]; omega), List.find?_cons]
  cases leg.carriedBy s <;> rfl

/-- What the freshest sample states for a leg, when the first sample is inside the horizon. -/
theorem bind_freshest_cons (leg : Leg) {β : Type*} {f : RawSample F → Option β}
    (hf : leg.carriedBy s = (f s).isSome) (h : ¬ leg.horizon spec < now - s.ts) :
    (freshest spec now (s :: rest) leg).bind f = (f s).or ((freshest spec now rest leg).bind f) := by
  rw [freshest_cons leg h, hf]
  cases hs : f s with
  | none => rfl
  | some v => exact hs

theorem scanAlways_eq (l : List (RawSample F)) (view : WindowView F) :
    scanAlways spec now l view =
      { view with
        rtt_ms := view.rtt_ms.or ((freshest spec now l .rtt).bind RawSample.rtt_ms)
        loss_pct := view.loss_pct.or ((freshest spec now l .loss).bind RawSample.loss_pct)
        jitter_ms := view.jitter_ms.or ((freshest spec now l .jitter).bind RawSample.jitter_ms) } := by
  induction l generalizing view with
  | nil => simp [scanAlways]
  | cons s rest ih =>
    unfold scanAlways
    split
    · rename_i hold
      have hnone : ∀ leg ∈ [Leg.rtt, .loss, .jitter], freshest spec now (s :: rest) leg = none := by
        intro leg hleg
        apply freshest_cons_old
        rcases List.mem_cons.mp hleg with rfl | hleg
        · exact hold
        · simp only [List.mem_cons, List.not_mem_nil, or_false] at hleg
          rcases hleg with rfl | rfl <;> exact hold
      simp only [hnone _ (by decide : Leg.rtt ∈ _), hnone _ (by decide : Leg.loss ∈ _),
        hnone _ (by decide : Leg.jitter ∈ _), Option.bind_none, Option.or_none]
    · rename_i hin
      rw [ih, bind_freshest_cons .rtt rfl hin, bind_freshest_cons .loss rfl hin,
        bind_freshest_cons .jitter rfl hin]
      simp only [Option.or_assoc]

theorem scanTcp_eq (l : List (RawSample F)) (view : WindowView F) (hnone : view.tcp_mbps = none)
    (hfresh : view.tcp_carried = false) :
    scanTcp spec now l view =
      { view with
        tcp_mbps := (freshest spec now l .tcp).bind RawSample.tcp_mbps
        tcp_carried := (freshest spec now l .tcp).any
          (fun s => decide (spec.tcp_fresh_secs < now - s.ts)) } := by
  induction l with
  | nil =>
    show view = { view with tcp_mbps := none, tcp_carried := false }
    rw [← hnone, ← hfresh]
  | cons s rest ih =>
    unfold scanTcp
    split
    · rename_i hold
      rw [freshest_cons_old .tcp hold]
      show view = { view with tcp_mbps := none, tcp_carried := false }
      rw [← hnone, ← hfresh]
    · rename_i hin
      rw [freshest_cons .tcp hin]
      cases htcp : s.tcp_mbps with
      | none =>
        rw [if_neg (by simp [Leg.carriedBy, htcp])]
        exact ih
      | some v =>
        rw [if_pos (by simp [Leg.carriedBy, htcp])]
        simp only [Option.bind_some, htcp, Option.any_some]

theorem scanUdp_eq (l : List (RawSample F)) (view : WindowView F) (hmbps : view.udp_mbps = none)
    (hjitter : view.udp_jitter_ms = none) (hloss : view.udp_loss_pct = none) :
    scanUdp spec now l view =
      { view with
        udp_mbps := (freshest spec now l .udp).bind RawSample.udp_mbps
        udp_jitter_ms := (freshest spec now l .udp).bind RawSample.udp_jitter_ms
        udp_loss_pct := (freshest spec now l .udp).bind RawSample.udp_loss_pct } := by
  have hself : view = { view with
      udp_mbps := none, udp_jitter_ms := none, udp_loss_pct := none } := by
    cases view
    cases hmbps
    cases hjitter
    cases hloss
    rfl
  induction l with
  | nil => exact hself
  | cons s rest ih =>
    unfold scanUdp
    split
    · rename_i hold
      rw [freshest_cons_old .udp hold]
      exact hself
    · rename_i hin
      rw [freshest_cons .udp hin]
      split
      · rename_i hcarried
        rw [if_pos (show Leg.udp.carriedBy s = true from hcarried)]
        rfl
      · rename_i hbare
        rw [if_neg (show ¬ Leg.udp.carriedBy s = true from hbare)]
        exact ih

end Freshest

/-! ### The window of a ring -/

/-- The newest sample of a ring, if it is within `horizon`. -/
def Ring.newestWithin (ring : Ring F) (horizon now : ℕ) : Option (RawSample F) :=
  ring.samples.reverse.find? (fun s => now - s.ts ≤ horizon)

/-- **The window**, in terms of the newest sample and the freshest of each leg. -/
theorem Ring.window_eq [Zero F] (ring : Ring F) (spec : WindowSpec) (now : ℕ) :
    ring.window spec now = (ring.newestWithin spec.tcp_carry_secs now).map
      (fun newest => viewOf spec now newest (ring.freshest spec now)) := by
  unfold Ring.window Ring.newestWithin
  dsimp only
  cases ring.samples.reverse.find? (fun s => now - s.ts ≤ spec.tcp_carry_secs) with
  | none => rfl
  | some newest =>
    rw [Option.map_some]
    refine congrArg some ?_
    rw [scanAlways_eq, scanTcp_eq _ _ rfl rfl, scanUdp_eq _ _ rfl rfl rfl]
    rfl

namespace Ring

variable {r : Ring F} {spec : WindowSpec} {now horizon : ℕ} {leg : Leg} {s : RawSample F}

/-- `s` is the newest sample of the ring that has the leg. -/
def NewestWith (r : Ring F) (leg : Leg) (s : RawSample F) : Prop :=
  s ∈ r.samples ∧ leg.carriedBy s = true ∧ ∀ x ∈ r.samples, s.ts < x.ts → leg.carriedBy x = false

/-- The freshest sample of a leg: the newest one that has it, if inside the horizon. -/
theorem freshest_eq_some_iff : r.freshest spec now leg = some s ↔
    r.NewestWith leg s ∧ now - s.ts ≤ leg.horizon spec := by
  have hclosed : ∀ a b : RawSample F, a.ts ≤ b.ts →
      decide (now - a.ts ≤ leg.horizon spec) = true →
        decide (now - b.ts ≤ leg.horizon spec) = true := by
    intro a b hab ha
    rw [decide_eq_true_eq] at ha ⊢
    omega
  unfold Ring.freshest Mielofon.freshest
  rw [find_reverse_takeWhile_eq_some_iff r.ascending hclosed]
  simp only [decide_eq_true_eq, Bool.not_eq_true, NewestWith]
  tauto

/-- The newest sample within a horizon is the newest of all. -/
theorem newestWithin_eq_some_iff : r.newestWithin horizon now = some s ↔
    r.Newest s ∧ now - s.ts ≤ horizon := by
  have hfind := find_reverse_takeWhile_eq_some_iff (p := fun _ => true)
    (q := fun x : RawSample F => decide (now - x.ts ≤ horizon)) (a := s) r.ascending
    (fun _ _ _ h => h)
  have hall : r.samples.reverse.takeWhile (fun _ => true) = r.samples.reverse :=
    List.takeWhile_eq_self_iff.mpr (fun _ _ => rfl)
  rw [hall] at hfind
  unfold newestWithin
  rw [hfind]
  simp only [decide_eq_true_eq, true_and]
  constructor
  · rintro ⟨hs, hage, hlast⟩
    refine ⟨⟨hs, fun x hx => not_lt.mp (fun hlt => ?_)⟩, hage⟩
    exact absurd (show now - x.ts ≤ horizon by omega) (hlast x hx hlt)
  · rintro ⟨⟨hs, hlast⟩, hage⟩
    refine ⟨hs, hage, fun x hx hlt => ?_⟩
    have := hlast x hx
    omega

theorem newestWithin_eq_none_iff : r.newestWithin horizon now = none ↔
    ∀ x ∈ r.samples, horizon < now - x.ts := by
  unfold newestWithin
  rw [List.find?_eq_none]
  simp only [List.mem_reverse, decide_eq_true_eq, not_le]

/-- Where a sample has a leg inside its horizon, there is a freshest one, at least as new. -/
theorem exists_freshest (spec : WindowSpec) (now : ℕ) (hs : s ∈ r.samples) (hage : now - s.ts ≤ leg.horizon spec)
    (hcarried : leg.carriedBy s = true) :
    ∃ x, r.freshest spec now leg = some x ∧ s.ts ≤ x.ts := by
  have hdesc : r.samples.reverse.Pairwise (fun a b => b.ts < a.ts) :=
    List.pairwise_reverse.mpr r.ascending
  have hin : s ∈ r.samples.reverse.takeWhile (fun x => now - x.ts ≤ leg.horizon spec) := by
    apply (mem_takeWhile_iff hdesc ?_).mpr
    · exact ⟨List.mem_reverse.mpr hs, decide_eq_true hage⟩
    · intro a b hab ha
      rw [decide_eq_true_eq] at ha ⊢
      omega
  have hsome : (r.freshest spec now leg).isSome := by
    apply List.find?_isSome.mpr
    exact ⟨s, hin, hcarried⟩
  obtain ⟨x, hx⟩ := Option.isSome_iff_exists.mp hsome
  refine ⟨x, hx, not_lt.mp (fun hlt => ?_)⟩
  have hlast := (freshest_eq_some_iff.mp hx).1.2.2 s hs hlt
  exact Bool.false_ne_true (hlast.symm.trans hcarried)

end Ring

end Mielofon
