import Mathlib
import Mielofon.Tsdb.MarkBlocks
import Mielofon.Tsdb.Reference

namespace Mielofon

open Lib

/-!
# The roll-up of a minute

A bucket is kept up to date sample by sample, on two paths: a new second is added, and a sample
merged onto a counted second adds what the second had not.  Computed from scratch, the bucket of a
minute has of every second its merge, and counts the seconds that had a probe among their samples.

The dimensions come out the same either way, as the samples of a second do not contradict each
other.  The count and the utilisation go by the moment at which the version of a second turns into
a probe: a probe that measures nothing does not turn a block second into one, a block does turn the
second of such a probe back, and a utilisation that rises afterwards is not counted any more.

* `RawSample.measures`, `RawSample.marked` — the two parts of `is_probe`, as a merge keeps them;
* `RollsUp`, `counted_util_concat_iff` — when one more sample of a second keeps its roll-up right;
* `fromScratch` — the bucket of a minute, computed at once;
* `Tsdb.KeepsMinute` — the state of a minute that neither retention nor the capacity reaches;
* `rolled_up_iff` — the buckets that are the roll-up of their seconds all the way.
-/

variable {F : Type*}

/-! ### What a merge keeps of `is_probe` -/

namespace RawSample

/-- Whether the sample has one of the values that only probes measure. -/
def measures (s : RawSample F) : Bool :=
  s.rtt_ms.isSome || s.loss_pct.isSome || s.jitter_ms.isSome || s.tcp_mbps.isSome ||
    s.udp_mbps.isSome || s.udp_loss_pct.isSome

/-- Whether the sample carries a marking block or a joined block result. -/
def marked (s : RawSample F) : Bool := s.mark_n.isSome || s.mark_loss_pct.isSome

theorem isProbe_eq (s : RawSample F) : s.isProbe = (s.measures || !s.marked) := by
  rw [isProbe, measures, marked, Bool.not_or, Option.not_isSome, Option.not_isSome]

variable [LinearOrder F]

theorem measures_mergedWith (a b : RawSample F) :
    (a.mergedWith b).measures = (a.measures || b.measures) := by
  simp only [measures, mergedWith, Option.isSome_or]
  ac_rfl

theorem marked_mergedWith (a b : RawSample F) :
    (a.mergedWith b).marked = (a.marked || b.marked) := by
  simp only [marked, mergedWith, Option.isSome_or]
  ac_rfl

variable {ss : List (RawSample F)} {v : RawSample F}

/-- What a merge has if one of the two has it, the merge of a second has if one sample has it. -/
theorem any_of_mergeAll {p : RawSample F → Bool} (hp : ∀ a b, p (a.mergedWith b) = (p a || p b))
    (h : mergeAll ss = some v) : p v = ss.any p := by
  induction ss using List.reverseRecOn generalizing v with
  | nil => exact absurd h (by simp)
  | append_singleton ss s ih =>
    rw [mergeAll_concat, Option.some.injEq] at h
    subst h
    rw [List.any_append, List.any_cons, List.any_nil, Bool.or_false]
    cases hheld : mergeAll ss with
    | none =>
      rw [mergeAll_eq_none_iff.mp hheld]
      rfl
    | some held =>
      rw [← ih hheld]
      exact hp held s

/-- The utilisation of a merge is the highest of the second. -/
theorem le_util_of_mergeAll (h : mergeAll ss = some v) :
    ∀ u, u ≤ v.util_mbps ↔ ∃ x ∈ ss, u ≤ x.util_mbps := by
  intro u
  induction ss using List.reverseRecOn generalizing v with
  | nil => exact absurd h (by simp)
  | append_singleton ss s ih =>
    rw [mergeAll_concat, Option.some.injEq] at h
    subst h
    cases hheld : mergeAll ss with
    | none =>
      rw [mergeAll_eq_none_iff.mp hheld]
      simp [onto]
    | some held =>
      show u ≤ max held.util_mbps s.util_mbps ↔ _
      rw [le_max_iff, ih hheld]
      simp only [List.mem_append, List.mem_singleton, or_and_right, exists_or, exists_eq_left]

/-- A value of the merge is one that a sample stated. -/
theorem exists_dim_of_mergeAll {d : Dim} {x : F} (h : mergeAll ss = some v)
    (hx : v.dim d = some x) : ∃ s ∈ ss, s.dim d = some x := by
  induction ss using List.reverseRecOn generalizing v with
  | nil => exact absurd h (by simp)
  | append_singleton ss s ih =>
    rw [mergeAll_concat, Option.some.injEq] at h
    subst h
    cases hheld : mergeAll ss with
    | none =>
      rw [hheld] at hx
      exact ⟨s, List.mem_append_right _ (List.mem_singleton_self s), hx⟩
    | some held =>
      rw [hheld] at hx
      have hor : (s.dim d).or (held.dim d) = some x := (mergedWith_dim held s d).symm.trans hx
      rcases Option.or_eq_some_iff.mp hor with hs | ⟨-, hold⟩
      · exact ⟨s, List.mem_append_right _ (List.mem_singleton_self s), hs⟩
      · obtain ⟨y, hy, hyx⟩ := ih hheld hold
        exact ⟨y, List.mem_append_left _ hy, hyx⟩

end RawSample

/-! ### One second -/

section Second

variable [LinearOrder F]

/-- The value a second has of a figure: a dimension of its merge, and the utilisation of its merge
    if one of its samples is a probe. -/
def secondValues (f : Figure) (ss : List (RawSample F)) : List F :=
  match f with
  | .util => if ss.any RawSample.isProbe then ((RawSample.mergeAll ss).map (·.util_mbps)).toList else []
  | .dim d => ((RawSample.mergeAll ss).bind (·.dim d)).toList

/-- When a sample keeps the roll-up of its second right, after those that came before it.  The
    first probe is the first sample, or measures something.  After a probe the utilisation does
    not rise, and no sample is the first to measure something on a marked second. -/
structure RollsUp (before : List (RawSample F)) (s : RawSample F) : Prop where
  first : before.any RawSample.isProbe = false → s.isProbe = true → before = [] ∨ s.measures = true
  util : before.any RawSample.isProbe = true → ∃ x ∈ before, s.util_mbps ≤ x.util_mbps
  once : before.any RawSample.isProbe = true → s.measures = true →
    before.any RawSample.measures = true ∨ before.any RawSample.marked = false

/-- A dimension is counted with the value of the merge, if the samples of the second agree. -/
theorem counted_dim {ss : List (RawSample F)} {d : Dim}
    (hagree : ∀ a ∈ ss, ∀ b ∈ ss, Flat.Agree (a.dim d) (b.dim d)) :
    counted (.dim d) none ss = secondValues (.dim d) ss := by
  induction ss using List.reverseRecOn with
  | nil => rfl
  | append_singleton ss s ih =>
    have hs : s ∈ ss ++ [s] := List.mem_append_right _ (List.mem_singleton_self s)
    have hold : ∀ a ∈ ss, a ∈ ss ++ [s] := fun a ha => List.mem_append_left _ ha
    rw [counted_concat, ih (fun a ha b hb => hagree a (hold a ha) b (hold b hb)), secondValues,
      secondValues, RawSample.mergeAll_concat, Option.bind_some]
    cases hheld : RawSample.mergeAll ss with
    | none => rfl
    | some held =>
      show (held.dim d).toList ++ (if held.dim d = none then _ else none).toList = _
      cases hx : held.dim d with
      | none => rfl
      | some x =>
        -- what the sample states is what the second has already
        have hmerged : (held.mergedWith s).dim d = some x := by
          rw [RawSample.mergedWith_dim]
          cases hsx : s.dim d with
          | none => exact hx
          | some y =>
            obtain ⟨z, hz, hzx⟩ := RawSample.exists_dim_of_mergeAll hheld hx
            rw [hagree z (hold z hz) s hs x y hzx hsx]
            rfl
        show [x] ++ [] = ((held.mergedWith s).dim d).toList
        rw [hmerged]
        rfl

/-- Whether the version of a second is a probe. -/
theorem isProbe_of_mergeAll {ss : List (RawSample F)} {v : RawSample F}
    (h : RawSample.mergeAll ss = some v) :
    v.isProbe = (ss.any RawSample.measures || !ss.any RawSample.marked) := by
  rw [RawSample.isProbe_eq, RawSample.any_of_mergeAll RawSample.measures_mergedWith h,
    RawSample.any_of_mergeAll RawSample.marked_mergedWith h]

omit [LinearOrder F] in
/-- Samples none of which is a probe are all marked, and measure nothing. -/
theorem not_any_isProbe {ss : List (RawSample F)} (h : ss.any RawSample.isProbe = false) :
    ss.any RawSample.measures = false ∧ (ss ≠ [] → ss.any RawSample.marked = true) := by
  have hall : ∀ x ∈ ss, x.measures = false ∧ x.marked = true := by
    intro x hx
    have hx := List.any_eq_false.mp h x hx
    rw [RawSample.isProbe_eq] at hx
    simpa using hx
  refine ⟨List.any_eq_false.mpr (fun x hx => by simp [(hall x hx).1]), fun hne => ?_⟩
  obtain ⟨x, hx⟩ := List.exists_mem_of_ne_nil ss hne
  exact List.any_eq_true.mpr ⟨x, hx, (hall x hx).2⟩

/-- While no probe has come, nothing is counted, and a probe is counted if it is the first sample
    or measures something. -/
private theorem counted_first {ss : List (RawSample F)} (h : ss.any RawSample.isProbe = false)
    (s : RawSample F) : (RawSample.mergeAll ss).bind (·.figure .util) = none ∧
      ((RawSample.onto (RawSample.mergeAll ss) s).isProbe = s.isProbe ↔
        (s.isProbe = true → ss = [] ∨ s.measures = true)) := by
  obtain ⟨hmeasures, hmarked⟩ := not_any_isProbe h
  cases hheld : RawSample.mergeAll ss with
  | none =>
    have hnil := RawSample.mergeAll_eq_none_iff.mp hheld
    exact ⟨rfl, fun _ _ => Or.inl hnil, fun _ => rfl⟩
  | some v =>
    have hne : ss ≠ [] := by
      rintro rfl
      exact absurd hheld (by simp)
    have hv : v.isProbe = false := by
      rw [isProbe_of_mergeAll hheld, hmeasures, hmarked hne]
      rfl
    have honto : (v.mergedWith s).isProbe = s.measures := by
      rw [RawSample.isProbe_eq, RawSample.measures_mergedWith, RawSample.marked_mergedWith,
        RawSample.any_of_mergeAll RawSample.measures_mergedWith hheld, hmeasures,
        RawSample.any_of_mergeAll RawSample.marked_mergedWith hheld, hmarked hne]
      simp
    refine ⟨by simp [RawSample.figure, hv], ?_⟩
    show (v.mergedWith s).isProbe = s.isProbe ↔ _
    rw [honto, RawSample.isProbe_eq]
    cases s.measures <;> cases s.marked <;> simp [hne]

/-- Once a probe has come, the version turns into a probe again only where no sample measured
    anything on a marked second. -/
private theorem counted_again {ss : List (RawSample F)} (s : RawSample F) {v : RawSample F}
    (hv : RawSample.mergeAll ss = some v) :
    (v.isProbe = false ∧ (v.mergedWith s).isProbe = true) ↔
      ¬ (s.measures = true → ss.any RawSample.measures = true ∨ ss.any RawSample.marked = false) := by
  rw [isProbe_of_mergeAll hv, RawSample.isProbe_eq, RawSample.measures_mergedWith,
    RawSample.marked_mergedWith, RawSample.any_of_mergeAll RawSample.measures_mergedWith hv,
    RawSample.any_of_mergeAll RawSample.marked_mergedWith hv]
  cases s.measures <;> cases ss.any RawSample.measures <;> cases ss.any RawSample.marked <;> simp

/-- **One more sample of a second.** If the utilisations counted so far are those of the second,
    they are after one more sample, exactly when it rolls up. -/
theorem counted_util_concat_iff {ss : List (RawSample F)} {s : RawSample F}
    (h : counted .util none ss = secondValues .util ss) :
    counted .util none (ss ++ [s]) = secondValues .util (ss ++ [s]) ↔ RollsUp ss s := by
  have hnew : secondValues .util (ss ++ [s]) =
      if ss.any RawSample.isProbe || s.isProbe then
        [(RawSample.onto (RawSample.mergeAll ss) s).util_mbps] else [] := by
    rw [secondValues, RawSample.mergeAll_concat, List.any_append, List.any_cons, List.any_nil,
      Bool.or_false]
    rfl
  rw [counted_concat, h, hnew, secondValues]
  cases hprobe : ss.any RawSample.isProbe with
  | false =>
    -- nothing was counted: `first` decides
    obtain ⟨hnone, hiff⟩ := counted_first hprobe s
    have hrolls : RollsUp ss s ↔ (s.isProbe = true → ss = [] ∨ s.measures = true) :=
      ⟨fun hr => hr.first hprobe, fun hf => ⟨fun _ => hf, fun ht => absurd ht (by simp [hprobe]),
        fun ht => absurd ht (by simp [hprobe])⟩⟩
    rw [hrolls, ← hiff, hnone, if_pos rfl, Bool.false_or, RawSample.figure]
    cases (RawSample.onto (RawSample.mergeAll ss) s).isProbe <;> cases s.isProbe <;> simp
  | true =>
    cases hv : RawSample.mergeAll ss with
    | none =>
      rw [RawSample.mergeAll_eq_none_iff.mp hv] at hprobe
      exact absurd hprobe (by simp)
    | some v =>
      -- one value was counted: it stays right by `util`, and stays the only one by `once`
      have hutil : (∃ x ∈ ss, s.util_mbps ≤ x.util_mbps) ↔ v.util_mbps = max v.util_mbps s.util_mbps := by
        rw [← RawSample.le_util_of_mergeAll hv, left_eq_sup]
      have hrolls : RollsUp ss s ↔ v.util_mbps = max v.util_mbps s.util_mbps ∧
          ¬ (v.isProbe = false ∧ (v.mergedWith s).isProbe = true) := by
        rw [counted_again s hv, not_not, ← hutil]
        exact ⟨fun hr => ⟨hr.util hprobe, hr.once hprobe⟩, fun hf =>
          ⟨fun hfalse => absurd hfalse (by simp [hprobe]), fun _ => hf.1, fun _ => hf.2⟩⟩
      rw [hrolls, Bool.true_or, if_pos rfl, if_pos rfl, Option.bind_some]
      show [v.util_mbps] ++ (if v.figure .util = none then (v.mergedWith s).figure .util else none).toList =
        [max v.util_mbps s.util_mbps] ↔ _
      unfold RawSample.figure
      cases v.isProbe <;> cases (v.mergedWith s).isProbe <;> simp

/-- A second whose samples all roll up is counted with the value of its merge, and no other is,
    sample for sample. -/
theorem counted_util_iff (ss : List (RawSample F)) :
    (∀ before, before <+: ss → counted .util none before = secondValues .util before) ↔
      ∀ before s, before ++ [s] <+: ss → RollsUp before s := by
  constructor
  · intro h before s hpre
    exact (counted_util_concat_iff (h before ((List.prefix_append _ _).trans hpre))).mp (h _ hpre)
  · intro h before hpre
    induction before using List.reverseRecOn with
    | nil => rfl
    | append_singleton before s ih =>
      exact (counted_util_concat_iff (ih ((List.prefix_append _ _).trans hpre))).mpr (h before s hpre)

end Second

/-! ### One minute -/

section Minute

variable [LinearOrder F] [Zero F] [AddCommSemigroup F]

/-- The bucket of a minute computed from scratch, from the merges of its seconds; `n` counts the
    seconds with a probe among their samples. -/
def fromScratch (start : ℕ) (perSecond : ℕ → List (RawSample F)) : Option (Bucket F) :=
  let agg f := aggregate (minuteValues start (fun ts => secondValues f (perSecond ts)))
  if (List.range bucketSecs).all (fun i => (perSecond (start + i)).isEmpty) then none
  else some
    { bucket := start
      n := (List.range bucketSecs).countP (fun i => (perSecond (start + i)).any RawSample.isProbe)
      rtt := agg (.dim .rtt)
      loss := agg (.dim .loss)
      jitter := agg (.dim .jitter)
      tcp := agg (.dim .tcp)
      udp := agg (.dim .udp)
      udp_jitter := agg (.dim .udp_jitter)
      udp_loss := agg (.dim .udp_loss)
      util := agg .util
      mark_loss := agg (.dim .mark_loss)
      mark_rate := agg (.dim .mark_rate) }

omit [Zero F] [AddCommSemigroup F] in
/-- The seconds with a probe are as many as the utilisations of the minute. -/
theorem length_utils (start : ℕ) (g : ℕ → List (RawSample F)) :
    (minuteValues start (fun ts => secondValues .util (g ts))).length =
      (List.range bucketSecs).countP (fun i => (g (start + i)).any RawSample.isProbe) := by
  have hone : ∀ ss : List (RawSample F), (secondValues .util ss).length =
      if ss.any RawSample.isProbe then 1 else 0 := by
    intro ss
    rw [secondValues]
    split
    · -- a second with a probe has a merge
      rename_i hprobe
      cases hv : RawSample.mergeAll ss with
      | none =>
        rw [RawSample.mergeAll_eq_none_iff.mp hv] at hprobe
        exact absurd hprobe (by simp)
      | some v => rfl
    · rfl
  rw [minuteValues]
  induction List.range bucketSecs with
  | nil => rfl
  | cons i places ih =>
    rw [List.flatMap_cons, List.length_append, ih, hone, List.countP_cons, add_comm]

/-- The bucket of a minute is the one computed from scratch, exactly when every figure was counted
    with the values of the seconds. -/
theorem MinuteHolds.eq_fromScratch_iff {held : Option (Bucket F)} {start : ℕ}
    {g : ℕ → List (RawSample F)} (h : MinuteHolds held start g)
    (hstart : ∀ b, held = some b → b.bucket = start) (hminute : start % bucketSecs = 0) :
    held = fromScratch start g ↔
      ∀ f, aggregate (minuteValues start (fun ts => counted f none (g ts))) =
        aggregate (minuteValues start (fun ts => secondValues f (g ts))) := by
  have hempty : ((List.range bucketSecs).all (fun i => (g (start + i)).isEmpty) = true) ↔
      ∀ ts, bucketTs ts = start → g ts = [] := by
    rw [List.all_eq_true]
    constructor
    · intro hall ts hts
      obtain ⟨-, hle, hlt⟩ := bucketTs_eq_iff.mp hts
      have hnil := hall (ts - start) (List.mem_range.mpr (by omega))
      rwa [Nat.add_sub_cancel' hle, List.isEmpty_iff] at hnil
    · intro hall i hi
      rw [List.mem_range] at hi
      rw [hall (start + i) (bucketTs_eq_iff.mpr ⟨hminute, by omega, by omega⟩)]
      rfl
  cases held with
  -- no bucket: no second of the minute has a sample, and both sides count nothing
  | none =>
    have hnil := h.missing rfl
    rw [fromScratch, if_pos (hempty.mpr hnil)]
    refine ⟨fun _ f => congrArg _ (minuteValues_congr fun ts hle hlt => ?_), fun _ => rfl⟩
    rw [hnil ts (bucketTs_eq_iff.mpr ⟨hminute, hle, hlt⟩)]
    cases f <;> rfl
  | some x =>
    -- a bucket of a minute with a sample: the two agree if they agree figure by figure
    obtain ⟨⟨ts, hts, hne⟩, hn, hfigures⟩ := h.present x rfl
    have hsome : ¬ (List.range bucketSecs).all (fun i => (g (start + i)).isEmpty) = true :=
      fun hall => hne (hempty.mp hall ts hts)
    rw [fromScratch, if_neg hsome, Option.some.injEq]
    constructor
    · intro hx f
      rw [← hfigures f, hx]
      cases f with
      | util => rfl
      | dim d => cases d <;> rfl
    · intro hall
      apply Bucket.ext_figures
      · exact hstart x rfl
      · rw [hn, hfigures, hall, aggregate_n]
        exact length_utils start g
      · intro f
        rw [hfigures f, hall f]
        cases f with
        | util => rfl
        | dim d => cases d <;> rfl

end Minute

section Exact

variable [LinearOrder F] [AddCancelCommMonoid F]

/-- With exact sums, an aggregate tells the last value from any other. -/
private theorem eq_of_aggregate_append {rest vs ws : List F} (hws : ws.length ≤ 1)
    (h : aggregate (rest ++ vs) = aggregate (rest ++ ws)) : vs = ws := by
  have hlen : vs.length = ws.length := by
    have hn := congrArg DimAgg.n h
    rw [aggregate_n, aggregate_n, List.length_append, List.length_append] at hn
    omega
  match vs, ws, hlen with
  | [], [], _ => rfl
  | [v], [w], _ =>
    rw [aggregate, aggregate, List.foldl_concat, List.foldl_concat] at h
    -- equal sums of the rest and one value more
    have hsum := congrArg DimAgg.sum h
    unfold DimAgg.merge at hsum
    split at hsum
    · exact congrArg (fun x => [x]) hsum
    · exact congrArg (fun x => [x]) (add_left_cancel hsum)
  | _ :: _ :: _, _ :: _ :: _, _ => simp at hws

/-- Where all seconds but one are counted with their values, the aggregate shows whether that one
    is. -/
theorem aggregate_counted_iff {start ts : ℕ} (hts : bucketTs ts = start)
    {g : ℕ → List (RawSample F)}
    (hrest : ∀ ts', bucketTs ts' = start → ts' ≠ ts →
      counted .util none (g ts') = secondValues .util (g ts')) :
    aggregate (minuteValues start (fun ts => counted .util none (g ts))) =
        aggregate (minuteValues start (fun ts => secondValues .util (g ts))) ↔
      counted .util none (g ts) = secondValues .util (g ts) := by
  have hminute := bucketTs_eq_iff.mp hts
  -- the values of the other seconds
  let rest := minuteValues start (fun ts' => if ts' = ts then [] else secondValues .util (g ts'))
  have hcounted : (minuteValues start (fun ts => counted .util none (g ts))).Perm
      (rest ++ counted .util none (g ts)) := by
    have hsame : minuteValues start (fun ts => counted .util none (g ts)) =
        minuteValues start (fun ts' => if ts' = ts then counted .util none (g ts)
          else secondValues .util (g ts')) := by
      apply minuteValues_congr
      intro ts' hle hlt
      split
      · rename_i heq
        rw [heq]
      · rename_i hne
        exact hrest ts' (bucketTs_eq_iff.mpr ⟨hminute.1, hle, hlt⟩) hne
    rw [hsame]
    apply minuteValues_perm hminute.2
    · simp
    · intro ts' hne
      rw [if_neg hne, if_neg hne]
  have hvalues : (minuteValues start (fun ts => secondValues .util (g ts))).Perm
      (rest ++ secondValues .util (g ts)) := by
    apply minuteValues_perm hminute.2
    · simp
    · intro ts' hne
      rw [if_neg hne]
  rw [aggregate_perm hcounted, aggregate_perm hvalues]
  constructor
  · apply eq_of_aggregate_append
    rw [secondValues]
    split
    · cases RawSample.mergeAll (g ts) <;> simp
    · exact Nat.zero_le 1
  · intro h
    rw [h]

end Exact

/-! ### One ingest -/

namespace Ring

variable [LinearOrder F] {r r' : Ring F} {s : RawSample F} {acc : Option (Accepted F)}

/-- A second with less than a full ring above it states the sample already, or takes it. -/
theorem Offer.taken (h : Offer r s r' acc) (hfloor : r.floor < s.ts)
    (hcount : countAbove (insert s.ts r.seconds) s.ts < rawRingCap) :
    r'.sampleAt s.ts = some (RawSample.onto (r.sampleAt s.ts) s) ∧
      ((acc = none ∧ ∃ held, r.sampleAt s.ts = some held ∧ s.Within held) ∨
        acc = some ⟨r.sampleAt s.ts, RawSample.onto (r.sampleAt s.ts) s⟩) := by
  cases h with
  | old hold => omega
  | resend held _ hheld hin =>
    have honto : RawSample.onto (some held) s = held := RawSample.mergedWith_eq_self_iff.mpr hin
    rw [hheld, honto]
    exact ⟨rfl, Or.inl ⟨rfl, held, rfl, hin⟩⟩
  | merged held _ _ hheld _ _ hat =>
    rw [hat, if_pos rfl, hheld]
    exact ⟨rfl, Or.inr rfl⟩
  | full _ _ hcap hlow =>
    have hfull := countAbove_of_full hcap hlow
    have := countAbove_mono (Finset.subset_insert s.ts r.seconds) s.ts
    omega
  | added _ _ hnone _ _ hat =>
    rw [hat, if_pos rfl, hnone]
    exact ⟨rfl, Or.inr rfl⟩
  | evicted _ _ _ hnone _ _ _ _ _ hat =>
    rw [hat, if_pos rfl, hnone]
    exact ⟨rfl, Or.inr rfl⟩

/-- Another second with less than a full ring above it is left alone. -/
theorem Offer.sampleAt_of_room (h : Offer r s r' acc) {ts : ℕ} (hne : ts ≠ s.ts)
    (hcount : countAbove (insert s.ts r.seconds) ts < rawRingCap) :
    r'.sampleAt ts = r.sampleAt ts := by
  cases hheld : r.sampleAt ts with
  | some held =>
    rcases h.sampleAt_of_some hheld hcount with hsame | ⟨hts, -⟩
    · exact hsame
    · exact absurd hts.symm hne
  | none =>
    cases hx : r'.sampleAt ts with
    | none => rfl
    | some x => exact absurd (hheld.symm.trans (h.sampleAt_of_ne hne hx)) (by simp)

omit [LinearOrder F] in
/-- The seconds of the ring and of a sample are among those given so far. -/
theorem countAbove_insert_le_given {ss : List (RawSample F)}
    (hseen : r.seconds ⊆ secondsAbove 0 ss) (s : RawSample F) (ts : ℕ) :
    countAbove (insert s.ts r.seconds) ts ≤ countAbove (secondsAbove 0 (ss ++ [s])) ts := by
  apply Finset.card_le_card
  intro x hx
  obtain ⟨hmem, hlt⟩ := Finset.mem_filter.mp hx
  refine Finset.mem_filter.mpr ⟨?_, hlt⟩
  rcases Finset.mem_insert.mp hmem with rfl | hmem
  · exact mem_secondsAbove.mpr
      ⟨Nat.zero_lt_of_lt hlt, s, List.mem_append_right _ (List.mem_singleton_self s), rfl⟩
  · exact secondsAbove_mono (List.subset_append_left ss [s]) 0 (hseen hmem)

end Ring

/-! ### Runs -/

/-- The samples of a history, with their links. -/
def ingested (es : List (StoreEvent F)) : List (LinkKey × RawSample F) :=
  es.filterMap fun
    | .ingest link s _ => some (link, s)
    | .prune _ => none

/-- Neither the capacity of the ring nor a prune reaches the samples of a minute. -/
structure MinuteStays (cfg : TsConfig) (es : List (StoreEvent F)) (l : LinkKey) (start : ℕ) :
    Prop where
  room : ∀ ts, bucketTs ts = start → samplesOf (ingested es) l ts ≠ [] →
    countAbove (secondsAbove 0 (batchOf (ingested es) l)) ts < rawRingCap
  retained : ∀ now, .prune now ∈ es →
    now - cfg.raw_retention_secs ≤ start ∧ now - cfg.agg_retention_secs ≤ start

/-- A history no longer than a ring leaves every minute in place that its prunes do. -/
theorem MinuteStays.of_length {cfg : TsConfig} {es : List (StoreEvent F)} {l : LinkKey} {start : ℕ}
    (hlen : (ingested es).length ≤ rawRingCap) (hretained : ∀ now, .prune now ∈ es →
      now - cfg.raw_retention_secs ≤ start ∧ now - cfg.agg_retention_secs ≤ start) :
    MinuteStays cfg es l start := by
  refine ⟨fun ts _ hne => ?_, hretained⟩
  obtain ⟨s, hs⟩ := List.exists_mem_of_ne_nil _ hne
  obtain ⟨hmem, rfl, hpos⟩ := mem_samplesOf.mp hs
  have hts : s.ts ∈ secondsAbove 0 (batchOf (ingested es) l) :=
    mem_secondsAbove.mpr ⟨hpos, s, mem_batchOf.mpr hmem, rfl⟩
  exact (countAbove_lt_card hts).trans_le (WithinCapacity.of_length hlen l)

theorem ingested_append (es more : List (StoreEvent F)) :
    ingested (es ++ more) = ingested es ++ ingested more := List.filterMap_append

theorem samplesOf_append (history more : List (LinkKey × RawSample F)) (l : LinkKey) (ts : ℕ) :
    samplesOf (history ++ more) l ts = samplesOf history l ts ++ samplesOf more l ts := by
  simp only [samplesOf, batchOf_append, List.filter_append]

theorem samplesOf_mono {es es' : List (StoreEvent F)} (h : es' <+: es) (l : LinkKey) (ts : ℕ) :
    samplesOf (ingested es') l ts <+: samplesOf (ingested es) l ts := by
  obtain ⟨more, rfl⟩ := h
  rw [ingested_append, samplesOf_append]
  exact List.prefix_append _ _

/-- The samples of a second up to one of them are those of a prefix of the history. -/
theorem exists_initial_samplesOf {es : List (StoreEvent F)} {l : LinkKey} {ts : ℕ}
    {before : List (RawSample F)} (h : before <+: samplesOf (ingested es) l ts) :
    ∃ es', es' <+: es ∧ samplesOf (ingested es') l ts = before := by
  induction es using List.reverseRecOn with
  | nil => exact ⟨[], List.prefix_rfl, (List.prefix_nil.mp h).symm⟩
  | append_singleton es e ih =>
    -- one event gives a second one sample at most
    have hone : samplesOf (ingested [e]) l ts = [] ∨ ∃ s, samplesOf (ingested [e]) l ts = [s] := by
      cases e with
      | prune now => exact Or.inl rfl
      | ingest link s persist =>
        have hs : samplesOf (ingested [.ingest link s persist]) l ts =
            if link = l ∧ s.ts = ts ∧ 0 < s.ts then [s] else [] := samplesOf_concat [] link l s ts
        rw [hs]
        split
        · exact Or.inr ⟨s, rfl⟩
        · exact Or.inl rfl
    by_cases hfull : before = samplesOf (ingested (es ++ [e])) l ts
    · exact ⟨es ++ [e], List.prefix_rfl, hfull.symm⟩
    · rw [ingested_append, samplesOf_append] at h hfull
      have hold : before <+: samplesOf (ingested es) l ts := by
        rcases hone with hnil | ⟨s, hs⟩
        · rwa [hnil, List.append_nil] at h
        · rw [hs] at h hfull
          exact (List.prefix_concat_iff.mp h).resolve_left hfull
      obtain ⟨es', hpre, heq⟩ := ih hold
      exact ⟨es', hpre.trans (List.prefix_append _ _), heq⟩

theorem MinuteStays.mono {cfg : TsConfig} {es es' : List (StoreEvent F)} {l : LinkKey}
    {start : ℕ} (h : MinuteStays cfg es l start) (hpre : es' <+: es) :
    MinuteStays cfg es' l start := by
  refine ⟨fun ts hts hne => ?_, fun now hmem => h.retained now (hpre.subset hmem)⟩
  have hne' : samplesOf (ingested es) l ts ≠ [] := by
    intro hnil
    have hpre := samplesOf_mono hpre l ts
    rw [hnil] at hpre
    exact hne (List.prefix_nil.mp hpre)
  obtain ⟨more, rfl⟩ := hpre
  refine (countAbove_mono (secondsAbove_mono ?_ 0) ts).trans_lt (h.room ts hts hne')
  rw [ingested_append, batchOf_append]
  exact List.subset_append_left _ _

namespace Tsdb

section State

variable [LinearOrder F] [Zero F] [AddCommSemigroup F] {t : Tsdb F}
  {history : List (LinkKey × RawSample F)} {l : LinkKey} {start : ℕ}

/-- What a store holds of a minute it neither evicts nor prunes: the merge of every second with
    less than a full ring above it, and the bucket of these seconds. -/
structure KeepsMinute (t : Tsdb F) (history : List (LinkKey × RawSample F)) (l : LinkKey)
    (start : ℕ) : Prop where
  seen : (t.ringOf l).seconds ⊆ secondsAbove 0 (batchOf history l)
  kept : ∀ ts, bucketTs ts = start → 0 < ts →
    countAbove (secondsAbove 0 (batchOf history l)) ts < rawRingCap →
      (t.ringOf l).floor < ts ∧
        (t.ringOf l).sampleAt ts = RawSample.mergeAll (samplesOf history l ts)
  minute : MinuteHolds ((t.minutesOf l).bucketAt start) start (samplesOf history l)

/-- An ingest for another link. -/
private theorem KeepsMinute.ingest_other (h : t.KeepsMinute history l start) {link : LinkKey}
    (hl : link ≠ l) (s : RawSample F) (persist : Bool) :
    (t.ingest link s persist).1.KeepsMinute (history ++ [(link, s)]) l start := by
  have hring : (t.ingest link s persist).1.ringOf l = t.ringOf l := by
    rw [ringOf_ingest, if_neg (Ne.symm hl)]
  have hbatch : batchOf (history ++ [(link, s)]) l = batchOf history l := by
    rw [batchOf_append, batchOf_cons, if_neg hl]
    exact List.append_nil _
  have hsamples : samplesOf (history ++ [(link, s)]) l = samplesOf history l := by
    funext ts
    rw [samplesOf_concat, if_neg (fun hc => hl hc.1)]
  have hbucket : ((t.ingest link s persist).1.minutesOf l).bucketAt start =
      (t.minutesOf l).bucketAt start := by
    cases hacc : ((t.ringOf link).offer s).2 with
    | none =>
      rw [ingest_of_refused persist hacc]
      rfl
    | some acc =>
      rw [minutesOf_ingest persist hacc, bucketAt_bucketSection, if_neg (fun hc => hl hc.1)]
  refine ⟨?_, ?_, ?_⟩
  · rw [hring, hbatch]
    exact h.seen
  · rw [hring, hbatch, hsamples]
    exact h.kept
  · rw [hbucket, hsamples]
    exact h.minute

/-- Room above a second in the history with one more sample is room in the history, and in the ring
    with the second of the sample. -/
private theorem KeepsMinute.room (h : t.KeepsMinute history l start) {s : RawSample F} {ts : ℕ}
    (hroom : countAbove (secondsAbove 0 (batchOf (history ++ [(l, s)]) l)) ts < rawRingCap) :
    countAbove (secondsAbove 0 (batchOf history l)) ts < rawRingCap ∧
      countAbove (insert s.ts (t.ringOf l).seconds) ts < rawRingCap := by
  rw [batchOf_append, batchOf_cons, if_pos rfl] at hroom
  exact ⟨(countAbove_mono (secondsAbove_mono (List.subset_append_left _ _) 0) ts).trans_lt hroom,
    (Ring.countAbove_insert_le_given h.seen s ts).trans_lt hroom⟩

/-- The bucket after an ingest: a refused sample changes nothing, an accepted one the bucket of its
    minute. -/
private theorem KeepsMinute.minute_ingest (h : t.KeepsMinute history l start) (s : RawSample F)
    (persist : Bool) (hroom : bucketTs s.ts = start → 0 < s.ts →
      countAbove (secondsAbove 0 (batchOf (history ++ [(l, s)]) l)) s.ts < rawRingCap) :
    MinuteHolds (((t.ingest l s persist).1.minutesOf l).bucketAt start) start
      (samplesOf (history ++ [(l, s)]) l) := by
  have hoffer := t.ringOf_offer_spec l s
  have hother : ∀ ts, ts ≠ s.ts →
      samplesOf (history ++ [(l, s)]) l ts = samplesOf history l ts := by
    intro ts hne
    rw [samplesOf_concat, if_neg (fun hc => hne hc.2.1.symm)]
  have hrefused : ((t.ringOf l).offer s).2 = none → (s.ts = 0 ∨ ∃ held,
      RawSample.mergeAll (samplesOf history l s.ts) = some held ∧ s.Within held) →
      MinuteHolds (((t.ingest l s persist).1.minutesOf l).bucketAt start) start
        (samplesOf (history ++ [(l, s)]) l) := by
    intro hacc hstated
    rw [ingest_of_refused persist hacc]
    exact h.minute.congr (fun ts _ => samplesOf_stated hstated l ts)
  by_cases hs : bucketTs s.ts = start
  · rcases Nat.eq_zero_or_pos s.ts with hzero | hpos
    · exact hrefused (hoffer.refused_of_le_floor (by omega)).2 (Or.inl hzero)
    · -- of the minute itself: its ring holds the second, or there is room for it
      obtain ⟨hold, hnow⟩ := h.room (hroom hs hpos)
      obtain ⟨hfloor, hheld⟩ := h.kept s.ts hs hpos hold
      rcases (hoffer.taken hfloor hnow).2 with ⟨hacc, hin⟩ | hacc
      · rw [hheld] at hin
        exact hrefused hacc (Or.inr hin)
      · have hts := hacc ▸ hoffer
        rw [minutesOf_ingest persist hacc, bucketAt_bucketSection, hts.stamped, if_pos ⟨rfl, hs⟩,
          hheld]
        apply h.minute.rolled hs _ hother
        rw [samplesOf_concat, if_pos ⟨rfl, rfl, hpos⟩]
  · -- a sample of another minute, whose second is none of this one
    have hbucket : ((t.ingest l s persist).1.minutesOf l).bucketAt start =
        (t.minutesOf l).bucketAt start := by
      cases hacc : ((t.ringOf l).offer s).2 with
      | none =>
        rw [ingest_of_refused persist hacc]
        rfl
      | some acc =>
        have hts := hacc ▸ hoffer
        rw [minutesOf_ingest persist hacc, bucketAt_bucketSection, hts.stamped,
          if_neg (fun hc => hs hc.2)]
    rw [hbucket]
    apply h.minute.congr
    intro ts hts
    rw [hother ts (fun heq => hs (heq ▸ hts))]
    exact ⟨rfl, fun _ => rfl⟩

/-- **Step lemma**, for an ingest: the second of the sample has less than a full ring above it, if
    it is one of the minute. -/
theorem KeepsMinute.ingest (h : t.KeepsMinute history l start) (link : LinkKey) (s : RawSample F)
    (persist : Bool) (hroom : link = l → bucketTs s.ts = start → 0 < s.ts →
      countAbove (secondsAbove 0 (batchOf (history ++ [(link, s)]) l)) s.ts < rawRingCap) :
    (t.ingest link s persist).1.KeepsMinute (history ++ [(link, s)]) l start := by
  by_cases hl : link = l
  swap
  · exact h.ingest_other hl s persist
  subst hl
  have hoffer := t.ringOf_offer_spec link s
  have hring : (t.ingest link s persist).1.ringOf link = ((t.ringOf link).offer s).1 := by
    rw [ringOf_ingest, if_pos rfl]
  have hbatch : batchOf (history ++ [(link, s)]) link = batchOf history link ++ [s] := by
    rw [batchOf_append, batchOf_cons, if_pos rfl]
    rfl
  refine ⟨fun ts hts => ?_, fun ts hts hpos hcount => ?_, h.minute_ingest s persist (hroom rfl)⟩
  · -- what the ring has now is the sample or was there before
    rw [hring] at hts
    have hpos : 0 < ts := Nat.zero_lt_of_lt (Ring.floor_lt_of_mem_seconds hts)
    obtain ⟨x, hx⟩ := Ring.mem_seconds.mp hts
    rw [hbatch]
    by_cases hs : ts = s.ts
    · exact mem_secondsAbove.mpr
        ⟨hpos, s, List.mem_append_right _ (List.mem_singleton_self s), hs.symm⟩
    · exact secondsAbove_mono (List.subset_append_left _ [s]) 0
        (h.seen (Ring.mem_seconds.mpr ⟨x, hoffer.sampleAt_of_ne hs hx⟩))
  · -- a second with room above it is kept, with the sample merged into its own
    obtain ⟨hold, hnow⟩ := h.room hcount
    obtain ⟨hfloor, hheld⟩ := h.kept ts hts hpos hold
    rw [hring]
    refine ⟨hoffer.floor_lt hfloor hnow, ?_⟩
    by_cases hs : ts = s.ts
    · subst hs
      rw [(hoffer.taken hfloor hnow).1, hheld, samplesOf_concat, if_pos ⟨rfl, rfl, hpos⟩,
        RawSample.mergeAll_concat]
    · rw [hoffer.sampleAt_of_room hs hnow, hheld, samplesOf_concat,
        if_neg (fun hc => hs hc.2.1.symm)]

/-- **Step lemma**, for a prune that keeps the minute. -/
theorem KeepsMinute.prune (h : t.KeepsMinute history l start) {now : ℕ}
    (hraw : t.rawCut now ≤ start) (hagg : t.aggCut now ≤ start) :
    (t.prune now).KeepsMinute history l start := by
  refine ⟨fun ts hts => ?_, fun ts hts hpos hroom => ?_, ?_⟩
  · rw [ringOf_prune] at hts
    obtain ⟨x, hx⟩ := Ring.mem_seconds.mp hts
    rw [Ring.sampleAt_prune] at hx
    split at hx
    · exact absurd hx (by simp)
    · exact h.seen (Ring.mem_seconds.mpr ⟨x, hx⟩)
  · have hle := (bucketTs_eq_iff.mp hts).2.1
    obtain ⟨hfloor, hheld⟩ := h.kept ts hts hpos hroom
    rw [ringOf_prune]
    refine ⟨Ring.floor_prune_lt hfloor (by omega), ?_⟩
    rw [Ring.sampleAt_prune, if_neg (by omega), hheld]
  · rw [minutesOf_prune, Minutes.bucketAt_prune, if_neg (by omega)]
    exact h.minute

/-- **Run lemma.** -/
theorem keepsMinute_replay {cfg : TsConfig} {es : List (StoreEvent F)}
    (h : MinuteStays cfg es l start) :
    ((new cfg).replay es).KeepsMinute (ingested es) l start := by
  induction es using List.reverseRecOn with
  | nil =>
    refine ⟨fun ts hts => absurd hts (by simp [replay, new, ringOf, Ring.seconds, Ring.empty]),
      fun ts _ hpos _ => ⟨hpos, rfl⟩, fun _ _ _ => rfl, fun x hx => ?_⟩
    exact absurd (show none = some x from hx) (by simp)
  | append_singleton es e ih =>
    have hes := ih (h.mono (List.prefix_append _ _))
    rw [replay_concat, ingested_append]
    cases e with
    | ingest link s persist =>
      apply hes.ingest link s persist
      intro hl hs hpos
      have hroom := h.room s.ts hs
      rw [ingested_append] at hroom
      apply hroom
      refine List.ne_nil_of_mem (mem_samplesOf.mpr ⟨?_, rfl, hpos⟩)
      rw [← hl]
      exact List.mem_append_right _ (List.mem_singleton_self _)
    | prune now =>
      obtain ⟨hraw, hagg⟩ := h.retained now (List.mem_append_right _ (List.mem_singleton_self _))
      have hkept : (((new cfg).replay es).prune now).KeepsMinute (ingested es) l start :=
        hes.prune (by rwa [rawCut, cfg_replay]) (by rwa [aggCut, cfg_replay])
      have hnone : ingested es ++ ingested [.prune now] = ingested es := List.append_nil _
      rw [hnone]
      exact hkept

end State

end Tsdb

section Main

variable [LinearOrder F] [AddCancelCommMonoid F]

/-- Utilisations that add up at every point of a history are counted right in every second. -/
theorem counted_of_aggregates {es : List (StoreEvent F)} {l : LinkKey} {start : ℕ}
    (h : ∀ es', es' <+: es →
      aggregate (minuteValues start (fun ts => counted .util none (samplesOf (ingested es') l ts))) =
        aggregate (minuteValues start (fun ts => secondValues .util (samplesOf (ingested es') l ts))))
    {es' : List (StoreEvent F)} (hpre : es' <+: es) {ts : ℕ} (hts : bucketTs ts = start) :
    counted .util none (samplesOf (ingested es') l ts) =
      secondValues .util (samplesOf (ingested es') l ts) := by
  -- event by event: the second of the event is the only one that can go wrong
  induction es' using List.reverseRecOn generalizing ts with
  | nil => rfl
  | append_singleton es' e ih =>
    have hold := (List.prefix_append es' [e]).trans hpre
    have hnow := h _ hpre
    rw [ingested_append] at hnow ⊢
    cases e with
    | prune now =>
      have hnone : ingested es' ++ ingested [.prune now] = ingested es' := List.append_nil _
      rw [hnone]
      exact ih hold hts
    | ingest link s persist =>
      have hother : ∀ ts, ts ≠ s.ts → samplesOf (ingested es' ++
          ingested [.ingest link s persist]) l ts = samplesOf (ingested es') l ts := by
        intro ts hne
        exact (samplesOf_concat _ link l s ts).trans (if_neg (fun hc => hne hc.2.1.symm))
      by_cases hs : ts = s.ts
      · subst hs
        refine (aggregate_counted_iff hts (fun ts' hts' hne => ?_)).mp hnow
        rw [hother ts' hne]
        exact ih hold hts'
      · rw [hother ts hs]
        exact ih hold hts

/-- **Where a bucket is the roll-up of its seconds.** For every history of ingests and prunes that
    leave the samples of a minute of a link in place, the samples of each of its seconds agreeing
    on the dimensions, the bucket of the minute is at every point of the history the one computed
    from scratch, if and only if every sample of the minute rolls up after the ones of its second
    before it. -/
theorem rolled_up_iff (cfg : TsConfig) (es : List (StoreEvent F)) (l : LinkKey) (sec : ℕ)
    (hstays : MinuteStays cfg es l (bucketTs sec))
    (hagree : ∀ ts, bucketTs ts = bucketTs sec → ∀ a ∈ samplesOf (ingested es) l ts,
      ∀ b ∈ samplesOf (ingested es) l ts, ∀ d, Flat.Agree (a.dim d) (b.dim d)) :
    (∀ es', es' <+: es → (((Tsdb.new cfg).replay es').minutesOf l).bucketAt (bucketTs sec) =
        fromScratch (bucketTs sec) (samplesOf (ingested es') l)) ↔
      ∀ ts, bucketTs ts = bucketTs sec → ∀ before s,
        before ++ [s] <+: samplesOf (ingested es) l ts → RollsUp before s := by
  have hminute := (bucketTs_eq_iff.mp (rfl : bucketTs sec = bucketTs sec)).1
  -- the dimensions are right in any case, so it is a matter of the utilisation
  have hiff : ∀ es', es' <+: es →
      ((((Tsdb.new cfg).replay es').minutesOf l).bucketAt (bucketTs sec) =
          fromScratch (bucketTs sec) (samplesOf (ingested es') l) ↔
        aggregate (minuteValues (bucketTs sec)
            (fun ts => counted .util none (samplesOf (ingested es') l ts))) =
          aggregate (minuteValues (bucketTs sec)
            (fun ts => secondValues .util (samplesOf (ingested es') l ts)))) := by
    intro es' hpre
    have hkeeps := Tsdb.keepsMinute_replay (hstays.mono hpre)
    rw [hkeeps.minute.eq_fromScratch_iff (fun b hb => key_of_slot (Minutes.ascending _) hb) hminute]
    refine ⟨fun h => h .util, fun h f => ?_⟩
    cases f with
    | util => exact h
    | dim d =>
      refine congrArg _ (minuteValues_congr fun ts hle hlt => counted_dim fun a ha b hb => ?_)
      have hsub := (samplesOf_mono hpre l ts).subset
      exact hagree ts (bucketTs_eq_iff.mpr ⟨hminute, hle, hlt⟩) a (hsub ha) b (hsub hb) d
  constructor
  · intro h ts hts
    refine (counted_util_iff _).mp (fun before hbefore => ?_)
    obtain ⟨es', hpre, rfl⟩ := exists_initial_samplesOf hbefore
    exact counted_of_aggregates (fun es' hpre => (hiff es' hpre).mp (h es' hpre)) hpre hts
  · intro h es' hpre
    refine (hiff es' hpre).mpr (congrArg _ (minuteValues_congr fun ts hle hlt => ?_))
    have hts := bucketTs_eq_iff.mpr ⟨hminute, hle, hlt⟩
    exact (counted_util_iff _).mpr (h ts hts) _ (samplesOf_mono hpre l ts)

end Main

/-! ### A probe that is not counted -/

/-- A probe report that measured nothing, at second 120. -/
def failedReport : RawSample ℕ := RawSample.fromDims .busy 120 none none none none 40

/-- A probe report that measured a round trip, at second 120. -/
def pingReport : RawSample ℕ := RawSample.fromDims .quiet 120 (some 20) (some 0) none none 40

/-- The sample of the block that starts at second 120. -/
def blockReport : RawSample ℕ := (RawSample.fromBlock (doneBlock 12)).getD .default

/-- That block, and then a report of the same second. -/
def afterBlock (s : RawSample ℕ) : List (StoreEvent ℕ) :=
  [.ingest echoKey blockReport true, .ingest echoKey s true]

/-- **A failed probe on a block second is not counted.** Retention and capacity leave the two
    samples in place, and they state no dimension in common; the bucket has no probe, and the
    second had one. -/
theorem failed_probe_on_block_not_counted :
    let cfg : TsConfig := ⟨"", 7200, 86400⟩
    let es := afterBlock failedReport
    MinuteStays cfg es echoKey (bucketTs 120) ∧
      (∀ ts, ∀ a ∈ samplesOf (ingested es) echoKey ts, ∀ b ∈ samplesOf (ingested es) echoKey ts,
        ∀ d, Flat.Agree (a.dim d) (b.dim d)) ∧
      ((((Tsdb.new cfg).replay es).minutesOf echoKey).bucketAt (bucketTs 120)).map Bucket.n = some 0 ∧
      (fromScratch (bucketTs 120) (samplesOf (ingested es) echoKey)).map Bucket.n = some 1 := by
  have hdims : ∀ p ∈ ingested (afterBlock failedReport), ∀ q ∈ ingested (afterBlock failedReport),
      ∀ d, Flat.Agree (p.2.dim d) (q.2.dim d) := by decide
  refine ⟨MinuteStays.of_length (by decide) (fun now hnow => absurd hnow (by simp [afterBlock])),
    fun ts a ha b hb => hdims _ (mem_samplesOf.mp ha).1 _ (mem_samplesOf.mp hb).1, ?_, ?_⟩
  · decide
  · decide

/-- A probe on that block that measured something is counted, and the bucket is right at every point
    of the history. -/
theorem measuring_probe_on_block_rolls_up :
    ((((Tsdb.new ⟨"", 7200, 86400⟩).replay (afterBlock pingReport)).minutesOf echoKey).bucketAt
        (bucketTs 120)).map Bucket.n = some 1 ∧
      ∀ es', es' <+: afterBlock pingReport →
        (((Tsdb.new ⟨"", 7200, 86400⟩).replay es').minutesOf echoKey).bucketAt (bucketTs 120) =
          fromScratch (bucketTs 120) (samplesOf (ingested es') echoKey) := by
  have hdims : ∀ p ∈ ingested (afterBlock pingReport), ∀ q ∈ ingested (afterBlock pingReport),
      ∀ d, Flat.Agree (p.2.dim d) (q.2.dim d) := by decide
  refine ⟨by decide, (rolled_up_iff ⟨"", 7200, 86400⟩ _ echoKey 120
    (MinuteStays.of_length (by decide) (fun now hnow => absurd hnow (by simp [afterBlock])))
    (fun ts _ a ha b hb => hdims _ (mem_samplesOf.mp ha).1 _ (mem_samplesOf.mp hb).1)).mpr ?_⟩
  intro ts _ before s hpre
  have hmem : s ∈ samplesOf (ingested (afterBlock pingReport)) echoKey ts :=
    hpre.subset (List.mem_append_right _ (List.mem_singleton_self s))
  have hts : ts = 120 := by
    obtain ⟨hs, rfl, -⟩ := mem_samplesOf.mp hmem
    have hall : ∀ p ∈ ingested (afterBlock pingReport), p.2.ts = 120 := by decide
    exact hall _ hs
  subst hts
  have hsecond : samplesOf (ingested (afterBlock pingReport)) echoKey 120 =
      [] ++ [blockReport] ++ [pingReport] := by decide
  rw [hsecond, List.prefix_concat_iff, List.prefix_concat_iff] at hpre
  rcases hpre with heq | heq | hnil
  · obtain ⟨rfl, rfl⟩ := List.append_inj' heq rfl |>.imp id List.singleton_inj.mp
    exact ⟨by decide, by decide, by decide⟩
  · obtain ⟨rfl, rfl⟩ := List.append_inj' heq rfl |>.imp id List.singleton_inj.mp
    exact ⟨by decide, by decide, by decide⟩
  · exact absurd (List.prefix_nil.mp hnil) (by simp)

end Mielofon
