import Mathlib
import Mielofon.Tsdb.Database
import Mielofon.Tsdb.Redelivery

namespace Mielofon

open Lib

/-!
# What a store holds of a history

As long as the rings have room, the ring holds of every second the merge of all its samples, and
the bucket of a minute aggregates what its seconds were counted with: of every figure the value
at the moment the second first had one.  Later samples of the second change the ring alone.

* `RawSample.mergeAll` — the final version of a second;
* `Figure`, `counted`, `aggregate` — what a bucket counts of a sample, of a second, of a minute;
* `MinuteHolds` — the bucket of a minute, from the samples of its seconds;
* `Ring.Offer.room` — the ring step when there is room;
* `Tsdb.Holds`, `holds_ingest` — the state after a history, and its step lemma;
* `holds_history` — every history within the capacity of the rings.
-/

variable {F : Type*}

/-! ### One second -/

namespace RawSample

variable [LinearOrder F]

/-- The version of a second after another sample of it. -/
def onto (held : Option (RawSample F)) (s : RawSample F) : RawSample F :=
  match held with
  | none => s
  | some v => v.mergedWith s

/-- The final version of a second whose samples came in this order. -/
def mergeAll (ss : List (RawSample F)) : Option (RawSample F) :=
  ss.foldl (fun held s => some (onto held s)) none

@[simp] theorem mergeAll_nil : mergeAll ([] : List (RawSample F)) = none := rfl

theorem mergeAll_concat (ss : List (RawSample F)) (s : RawSample F) :
    mergeAll (ss ++ [s]) = some (onto (mergeAll ss) s) := by
  rw [mergeAll, List.foldl_concat]
  rfl

theorem mergeAll_eq_none_iff {ss : List (RawSample F)} : mergeAll ss = none ↔ ss = [] := by
  induction ss using List.reverseRecOn with
  | nil => simp
  | append_singleton ss s => simp [mergeAll_concat]

end RawSample

/-- What a bucket aggregates: the utilisation of probes, and every dimension. -/
inductive Figure where
  | util
  | dim (d : Dim)
deriving DecidableEq, Repr

instance : Fintype Figure where
  elems := insert .util (Finset.univ.image .dim)
  complete f := by cases f <;> simp

/-- The value a sample has for a figure. -/
def RawSample.figure (s : RawSample F) : Figure → Option F
  | .util => if s.isProbe then some s.util_mbps else none
  | .dim d => s.dim d

/-- The aggregate a bucket has of a figure. -/
def Bucket.figure (b : Bucket F) : Figure → DimAgg F
  | .util => b.util
  | .dim d => b.agg d

/-- Two buckets with the same start, the same count and the same figures are equal. -/
theorem Bucket.ext_figures {b b' : Bucket F} (hstart : b.bucket = b'.bucket) (hn : b.n = b'.n)
    (h : ∀ f, b.figure f = b'.figure f) : b = b' := by
  cases b
  cases b'
  rw [mk.injEq]
  exact ⟨hstart, hn, h (.dim .rtt), h (.dim .loss), h (.dim .jitter), h (.dim .tcp), h (.dim .udp),
    h (.dim .udp_jitter), h (.dim .udp_loss), h .util, h (.dim .mark_loss), h (.dim .mark_rate)⟩

section Counted

variable [LinearOrder F]

/-- What a bucket counts of a figure while the samples of one second come in: the value of every
    version whose previous version had none. -/
def counted (f : Figure) : Option (RawSample F) → List (RawSample F) → List F
  | _, [] => []
  | held, s :: rest =>
    (if held.bind (·.figure f) = none then (RawSample.onto held s).figure f else none).toList ++
      counted f (some (RawSample.onto held s)) rest

private theorem counted_cons (f : Figure) (held : Option (RawSample F)) (s : RawSample F)
    (rest : List (RawSample F)) : counted f held (s :: rest) =
      (if held.bind (·.figure f) = none then (RawSample.onto held s).figure f else none).toList ++
        counted f (some (RawSample.onto held s)) rest := rfl

private theorem counted_append (f : Figure) (held : Option (RawSample F)) (ss : List (RawSample F))
    (s : RawSample F) : counted f held (ss ++ [s]) = counted f held ss ++
      counted f (ss.foldl (fun held s => some (RawSample.onto held s)) held) [s] := by
  induction ss generalizing held with
  | nil => rfl
  | cons x ss ih =>
    rw [List.cons_append, counted_cons f held x, ih, counted_cons f held x, List.foldl_cons,
      List.append_assoc]

/-- One more sample counts what its version has and the one before had not. -/
theorem counted_concat (f : Figure) (ss : List (RawSample F)) (s : RawSample F) :
    counted f none (ss ++ [s]) = counted f none ss ++
      (if (RawSample.mergeAll ss).bind (·.figure f) = none then
        (RawSample.onto (RawSample.mergeAll ss) s).figure f else none).toList := by
  rw [counted_append]
  show _ ++ counted f (RawSample.mergeAll ss) [s] = _
  rw [counted, counted, List.append_nil]

end Counted

/-! ### One minute -/

section Aggregates

variable [LinearOrder F] [Zero F] [AddCommSemigroup F]

/-- The aggregate of a list of values. -/
def aggregate (vs : List F) : DimAgg F := vs.foldl DimAgg.merge DimAgg.default

/-- The order of the values does not matter. -/
theorem aggregate_perm {vs ws : List F} (h : vs.Perm ws) : aggregate vs = aggregate ws :=
  h.foldl_eq' (fun _ _ _ _ a => DimAgg.merge_right_comm a _ _) _

theorem aggregate_n (vs : List F) : (aggregate vs).n = vs.length := by
  induction vs using List.reverseRecOn with
  | nil => rfl
  | append_singleton vs v ih =>
    rw [aggregate, List.foldl_concat, List.length_append, List.length_singleton, ← ih]
    have hcount := DimAgg.count_n (aggregate vs) (some v) none
    simpa [DimAgg.count, aggregate] using hcount

/-- Counting a value is aggregating one more. -/
theorem count_aggregate (vs : List F) (v already : Option F) :
    (aggregate vs).count v already =
      aggregate (vs ++ (if already = none then v else none).toList) := by
  cases v with
  | none => cases already <;> simp [DimAgg.count]
  | some v =>
    cases already with
    | none => simp [DimAgg.count, aggregate]
    | some w => simp [DimAgg.count]

/-- The values of a minute, second by second. -/
def minuteValues (start : ℕ) (perSecond : ℕ → List F) : List F :=
  (List.range bucketSecs).flatMap (fun i => perSecond (start + i))

end Aggregates

/-- A second lies in the minute that starts at its bucket's start. -/
theorem bucketTs_eq_iff {ts start : ℕ} :
    bucketTs ts = start ↔ start % bucketSecs = 0 ∧ start ≤ ts ∧ ts < start + bucketSecs := by
  unfold bucketTs bucketSecs
  omega

/-- More values in one place of a list of values. -/
private theorem flatMap_perm {ι β : Type*} {places : List ι} (hnd : places.Nodup) {i : ι}
    (hi : i ∈ places) {g g' : ι → List β} {more : List β} (hat : g' i = g i ++ more)
    (hne : ∀ j ∈ places, j ≠ i → g' j = g j) :
    (places.flatMap g').Perm (places.flatMap g ++ more) := by
  induction places with
  | nil => exact absurd hi List.not_mem_nil
  | cons p places ih =>
    rw [List.nodup_cons] at hnd
    rw [List.flatMap_cons, List.flatMap_cons]
    rcases List.mem_cons.mp hi with rfl | hmem
    · -- the places behind are other ones
      have hrest : places.flatMap g' = places.flatMap g := by
        apply List.flatMap_congr
        intro j hj
        apply hne j (List.mem_cons_of_mem _ hj)
        rintro rfl
        exact hnd.1 hj
      rw [hat, hrest, List.append_assoc, List.append_assoc]
      exact (List.perm_append_comm).append_left _
    · have hp : g' p = g p := by
        apply hne p List.mem_cons_self
        rintro rfl
        exact hnd.1 hmem
      rw [hp, List.append_assoc]
      exact (ih hnd.2 hmem (fun j hj => hne j (List.mem_cons_of_mem _ hj))).append_left _

theorem minuteValues_perm {start ts : ℕ} (hts : start ≤ ts ∧ ts < start + bucketSecs)
    {g g' : ℕ → List F} {more : List F} (hat : g' ts = g ts ++ more)
    (hne : ∀ ts', ts' ≠ ts → g' ts' = g ts') :
    (minuteValues start g').Perm (minuteValues start g ++ more) := by
  have hi : ts - start ∈ List.range bucketSecs := by
    rw [List.mem_range]
    omega
  apply flatMap_perm List.nodup_range hi
  · rw [Nat.add_sub_cancel' hts.1, hat]
  · intro j _ hj
    apply hne
    omega

theorem minuteValues_congr {start : ℕ} {g g' : ℕ → List F}
    (h : ∀ ts, start ≤ ts → ts < start + bucketSecs → g ts = g' ts) :
    minuteValues start g = minuteValues start g' := by
  apply List.flatMap_congr
  intro i hi
  rw [List.mem_range] at hi
  apply h <;> omega

/-! ### Rings with room -/

section Room

variable [LinearOrder F]

/-- **The ring step with room.** Above the floor nothing is shut out or evicted: what is offered
    is stated already, or is merged onto the version held. -/
theorem Ring.Offer.room {r r' : Ring F} {s : RawSample F} {acc : Option (Accepted F)}
    (h : Ring.Offer r s r' acc) (hroom : r.floor < s.ts → (insert s.ts r.seconds).card ≤ rawRingCap) :
    (acc = none ∧ (s.ts ≤ r.floor ∨ ∃ held, r.sampleAt s.ts = some held ∧ s.Within held)) ∨
    (acc = some ⟨r.sampleAt s.ts, RawSample.onto (r.sampleAt s.ts) s⟩ ∧ r.floor < s.ts ∧
      r'.floor = r.floor ∧ ∀ ts, r'.sampleAt ts =
        if ts = s.ts then some (RawSample.onto (r.sampleAt s.ts) s) else r.sampleAt ts) := by
  -- a full ring has no room for a new second
  have hfull : r.floor < s.ts → r.sampleAt s.ts = none → r.samples.length ≠ rawRingCap := by
    intro hfloor hnone hcap
    have hroom := hroom hfloor
    rw [Finset.card_insert_of_notMem (Ring.notMem_seconds.mpr hnone), Ring.card_seconds] at hroom
    omega
  cases h with
  | old hfloor => exact Or.inl ⟨rfl, Or.inl hfloor⟩
  | resend held _ hheld hin => exact Or.inl ⟨rfl, Or.inr ⟨held, hheld, hin⟩⟩
  | merged held _ hfloor hheld _ hkeep hat =>
    rw [hheld]
    exact Or.inr ⟨rfl, hfloor, hkeep, hat⟩
  | full hfloor hnone hcap => exact absurd hcap (hfull hfloor hnone)
  | added _ hfloor hnone _ hkeep hat =>
    rw [hnone]
    exact Or.inr ⟨rfl, hfloor, hkeep, hat⟩
  | evicted _ _ hfloor hnone hcap => exact absurd hcap (hfull hfloor hnone)

end Room

/-! ### The state after a history -/

/-- The samples of a second of a link, in the order they came. -/
def samplesOf (history : List (LinkKey × RawSample F)) (l : LinkKey) (ts : ℕ) :
    List (RawSample F) :=
  (batchOf history l).filter (fun s => s.ts = ts ∧ 0 < s.ts)

theorem mem_samplesOf {history : List (LinkKey × RawSample F)} {l : LinkKey} {ts : ℕ}
    {s : RawSample F} : s ∈ samplesOf history l ts ↔ (l, s) ∈ history ∧ s.ts = ts ∧ 0 < s.ts := by
  rw [samplesOf, List.mem_filter, mem_batchOf, decide_eq_true_eq]

theorem samplesOf_concat (history : List (LinkKey × RawSample F)) (link l : LinkKey)
    (s : RawSample F) (ts : ℕ) : samplesOf (history ++ [(link, s)]) l ts =
      if link = l ∧ s.ts = ts ∧ 0 < s.ts then samplesOf history l ts ++ [s]
      else samplesOf history l ts := by
  unfold samplesOf batchOf
  rw [List.filter_append, List.map_append, List.filter_append]
  by_cases hl : link = l
  · by_cases hts : s.ts = ts ∧ 0 < s.ts
    · obtain ⟨rfl, hpos⟩ := hts
      simp [hl, hpos]
    · rw [if_neg (fun h => hts h.2)]
      simpa [hl] using hts
  · simp [hl]

/-- The history has no more seconds of a link than a ring holds. -/
def WithinCapacity (history : List (LinkKey × RawSample F)) : Prop :=
  ∀ l, (secondsAbove 0 (batchOf history l)).card ≤ rawRingCap

/-- A history no longer than a ring fits. -/
theorem WithinCapacity.of_length {history : List (LinkKey × RawSample F)}
    (h : history.length ≤ rawRingCap) : WithinCapacity history := by
  intro l
  calc (secondsAbove 0 (batchOf history l)).card
      ≤ (((batchOf history l).map RawSample.ts).filter (0 < ·)).length := List.toFinset_card_le _
    _ ≤ ((batchOf history l).map RawSample.ts).length := List.length_filter_le _ _
    _ = (history.filter (fun p => p.1 = l)).length := by rw [batchOf, List.length_map, List.length_map]
    _ ≤ history.length := List.length_filter_le _ _
    _ ≤ rawRingCap := h

theorem WithinCapacity.of_append {history more : List (LinkKey × RawSample F)}
    (h : WithinCapacity (history ++ more)) : WithinCapacity history := by
  intro l
  apply (Finset.card_le_card (secondsAbove_mono (fun s hs => ?_) 0)).trans (h l)
  exact mem_batchOf.mpr (List.mem_append_left _ (mem_batchOf.mp hs))

section Holds

variable [LinearOrder F] [Zero F] [AddCommSemigroup F]

/-- The values a bucket has counted of a figure in a minute of a link. -/
def countedIn (history : List (LinkKey × RawSample F)) (l : LinkKey) (start : ℕ) (f : Figure) :
    List F :=
  minuteValues start (fun ts => counted f none (samplesOf history l ts))

/-- The store holds a history: the merge of every second in the rings, and what the seconds were
    counted with in the buckets, all of which are dirty. -/
structure Tsdb.Holds (t : Tsdb F) (history : List (LinkKey × RawSample F)) : Prop where
  floor : ∀ l, (t.ringOf l).floor = 0
  rings : ∀ l ts, (t.ringOf l).sampleAt ts = RawSample.mergeAll (samplesOf history l ts)
  missing : ∀ l ts, (t.minutesOf l).bucketAt (bucketTs ts) = none → samplesOf history l ts = []
  present : ∀ l start x, (t.minutesOf l).bucketAt start = some x →
    (∃ ts, bucketTs ts = start ∧ samplesOf history l ts ≠ []) ∧
      x.n = (x.figure .util).n ∧ ∀ f, x.figure f = aggregate (countedIn history l start f)

/-- What a roll-up does to one figure. -/
theorem figure_rolled (held : Option (Bucket F)) (acc : Accepted F) (f : Figure) :
    (Minutes.rolled held acc).figure f = match held with
      | none => (DimAgg.default : DimAgg F).count (acc.sample.figure f) none
      | some b => (b.figure f).count (acc.sample.figure f) (acc.merged_from.bind (·.figure f)) := by
  obtain ⟨prev, s⟩ := acc
  cases f with
  | dim d =>
    have h := Minutes.agg_rolled held ⟨prev, s⟩ d
    cases held <;> exact h
  | util =>
    cases held with
    | none =>
      show (Bucket.default.add s).util = _
      unfold Bucket.add RawSample.figure
      split <;> rfl
    | some b =>
      cases prev with
      | none =>
        show (b.add s).util = _
        unfold Bucket.add RawSample.figure
        split <;> rfl
      | some prev =>
        show (b.mergeInto s prev).util = _
        unfold Bucket.mergeInto RawSample.figure
        cases s.isProbe <;> cases hprev : prev.isProbe <;>
          simp [Bucket.addDims, Bucket.figure, DimAgg.count, hprev]

/-- A bucket counts as many samples as utilisations. -/
theorem n_rolled {held : Option (Bucket F)} (h : ∀ b ∈ held, b.n = (b.figure .util).n)
    (acc : Accepted F) :
    (Minutes.rolled held acc).n = ((Minutes.rolled held acc).figure .util).n := by
  have hmerge : ∀ (a : DimAgg F) v, (a.merge v).n = a.n + 1 :=
    fun a v => by simpa [DimAgg.count] using DimAgg.count_n a (some v) none
  obtain ⟨prev, s⟩ := acc
  cases held with
  | none =>
    show (Bucket.default.add s).n = (Bucket.default.add s).util.n
    unfold Bucket.add
    split
    · exact (hmerge (Bucket.default : Bucket F).util s.util_mbps).symm
    · rfl
  | some b =>
    have hb : b.n = b.util.n := h b rfl
    cases prev with
    | none =>
      show (b.add s).n = (b.add s).util.n
      unfold Bucket.add
      split
      · exact (congrArg (· + 1) hb).trans (hmerge b.util s.util_mbps).symm
      · exact hb
    | some prev =>
      show (b.mergeInto s prev).n = (b.mergeInto s prev).util.n
      unfold Bucket.mergeInto
      split
      · exact (congrArg (· + 1) hb).trans (hmerge b.util s.util_mbps).symm
      · exact hb

/-- The bucket of a minute whose seconds had these samples, or none if they had none. -/
structure MinuteHolds (held : Option (Bucket F)) (start : ℕ) (perSecond : ℕ → List (RawSample F)) :
    Prop where
  missing : held = none → ∀ ts, bucketTs ts = start → perSecond ts = []
  present : ∀ x, held = some x → (∃ ts, bucketTs ts = start ∧ perSecond ts ≠ []) ∧
    x.n = (x.figure .util).n ∧
      ∀ f, x.figure f = aggregate (minuteValues start (fun ts => counted f none (perSecond ts)))

namespace MinuteHolds

variable {held : Option (Bucket F)} {start : ℕ} {g g' : ℕ → List (RawSample F)}

/-- Samples that change neither the versions of the seconds nor their values. -/
theorem congr (h : MinuteHolds held start g) (hsame : ∀ ts, bucketTs ts = start →
      RawSample.mergeAll (g' ts) = RawSample.mergeAll (g ts) ∧
        ∀ f, counted f none (g' ts) = counted f none (g ts)) :
    MinuteHolds held start g' := by
  have hnil : ∀ ts, bucketTs ts = start → (g' ts = [] ↔ g ts = []) := by
    intro ts hts
    rw [← RawSample.mergeAll_eq_none_iff, (hsame ts hts).1, RawSample.mergeAll_eq_none_iff]
  refine ⟨fun hnone ts hts => (hnil ts hts).mpr (h.missing hnone ts hts), fun x hx => ?_⟩
  obtain ⟨⟨ts, hts, hne⟩, hn, hfigures⟩ := h.present x hx
  refine ⟨⟨ts, hts, fun hg => hne ((hnil ts hts).mp hg)⟩, hn, fun f => ?_⟩
  rw [hfigures f]
  congr 1
  apply minuteValues_congr
  intro ts' hle hlt
  exact ((hsame ts' (bucketTs_eq_iff.mpr ⟨(bucketTs_eq_iff.mp hts).1, hle, hlt⟩)).2 f).symm

/-- An accepted sample adds to the bucket what its version has and the one before had not. -/
theorem rolled (h : MinuteHolds held start g) {s : RawSample F} {ts : ℕ} (hts : bucketTs ts = start)
    (hat : g' ts = g ts ++ [s]) (hne : ∀ ts', ts' ≠ ts → g' ts' = g ts') :
    MinuteHolds (some (Minutes.rolled held ⟨RawSample.mergeAll (g ts),
      RawSample.onto (RawSample.mergeAll (g ts)) s⟩)) start g' := by
  have hminute := bucketTs_eq_iff.mp hts
  refine ⟨fun hnone => absurd hnone (by simp), fun x hx => ?_⟩
  obtain rfl := Option.some.inj hx
  refine ⟨⟨ts, hts, by rw [hat]; simp⟩, ?_, fun f => ?_⟩
  · apply n_rolled
    intro b hb
    exact (h.present b hb).2.1
  · have hvalues : (minuteValues start (fun ts => counted f none (g' ts))).Perm
        (minuteValues start (fun ts => counted f none (g ts)) ++
          (if (RawSample.mergeAll (g ts)).bind (·.figure f) = none then
            (RawSample.onto (RawSample.mergeAll (g ts)) s).figure f else none).toList) := by
      apply minuteValues_perm hminute.2
      · rw [hat, counted_concat]
      · intro ts' hts'
        rw [hne ts' hts']
    rw [figure_rolled, aggregate_perm hvalues, ← count_aggregate]
    cases held with
    | some b =>
      dsimp only
      rw [(h.present b rfl).2.2 f]
    | none =>
      -- no second of the minute has come before
      have hempty : ∀ ts, bucketTs ts = start → g ts = [] := h.missing rfl
      have hzero : minuteValues start (fun ts => counted f none (g ts)) = [] := by
        have hcongr : minuteValues start (fun ts => counted f none (g ts)) =
            minuteValues start (fun _ => []) := minuteValues_congr fun ts' hle hlt => by
          rw [hempty ts' (bucketTs_eq_iff.mpr ⟨hminute.1, hle, hlt⟩)]
          rfl
        rw [hcongr]
        simp [minuteValues]
      rw [hzero, hempty ts hts]
      rfl

end MinuteHolds

namespace Tsdb

omit [LinearOrder F] [Zero F] [AddCommSemigroup F] in
/-- A sample that its second states already changes neither its version nor its values. -/
theorem samplesOf_stated [LinearOrder F] {history : List (LinkKey × RawSample F)}
    {link : LinkKey} {s : RawSample F}
    (hold : s.ts = 0 ∨ ∃ held, RawSample.mergeAll (samplesOf history link s.ts) = some held ∧
      s.Within held) (l : LinkKey) (ts : ℕ) :
    RawSample.mergeAll (samplesOf (history ++ [(link, s)]) l ts) =
        RawSample.mergeAll (samplesOf history l ts) ∧
      ∀ f, counted f none (samplesOf (history ++ [(link, s)]) l ts) =
        counted f none (samplesOf history l ts) := by
  rw [samplesOf_concat]
  split
  · rename_i hs
    obtain ⟨rfl, rfl, hpos⟩ := hs
    rcases hold with hzero | ⟨held, hheld, hin⟩
    · omega
    have honto : RawSample.onto (some held) s = held := RawSample.mergedWith_eq_self_iff.mpr hin
    rw [RawSample.mergeAll_concat, hheld, honto]
    refine ⟨rfl, fun f => ?_⟩
    rw [counted_concat, hheld, honto, Option.bind_some]
    cases hfig : held.figure f <;> simp
  · exact ⟨rfl, fun _ => rfl⟩

/-- The seconds of a ring are those of the history. -/
private theorem Holds.insert_subset {t : Tsdb F} {history : List (LinkKey × RawSample F)}
    (h : t.Holds history) {link : LinkKey} {s : RawSample F} (hpos : 0 < s.ts) :
    insert s.ts (t.ringOf link).seconds ⊆
      secondsAbove 0 (batchOf (history ++ [(link, s)]) link) := by
  intro ts hts
  rw [mem_secondsAbove]
  rcases Finset.mem_insert.mp hts with rfl | hts
  · exact ⟨hpos, s, mem_batchOf.mpr (List.mem_append_right _ (List.mem_singleton_self _)), rfl⟩
  · obtain ⟨x, hx⟩ := Ring.mem_seconds.mp hts
    rw [h.rings] at hx
    have hne : samplesOf history link ts ≠ [] := by
      intro hnil
      rw [hnil] at hx
      exact absurd hx (by simp)
    obtain ⟨y, hy⟩ := List.exists_mem_of_ne_nil _ hne
    obtain ⟨hmem, rfl, hypos⟩ := mem_samplesOf.mp hy
    exact ⟨hypos, y, mem_batchOf.mpr (List.mem_append_left _ hmem), rfl⟩

/-- The bucket of every minute is that of its seconds. -/
private theorem Holds.minute {t : Tsdb F} {history : List (LinkKey × RawSample F)}
    (h : t.Holds history) (l : LinkKey) (start : ℕ) :
    MinuteHolds ((t.minutesOf l).bucketAt start) start (samplesOf history l) := by
  refine ⟨fun hnone ts hts => ?_, h.present l start⟩
  apply h.missing l ts
  rw [hts]
  exact hnone

/-- An accepted sample: the next version of its second, and what it adds to the bucket. -/
private theorem Holds.accepted {t : Tsdb F} {history : List (LinkKey × RawSample F)}
    (h : t.Holds history) {link : LinkKey} {s : RawSample F} (persist : Bool) (hpos : 0 < s.ts)
    (hacc : ((t.ringOf link).offer s).2 = some ⟨RawSample.mergeAll (samplesOf history link s.ts),
      RawSample.onto (RawSample.mergeAll (samplesOf history link s.ts)) s⟩)
    (hfloor : ((t.ringOf link).offer s).1.floor = 0)
    (hat : ∀ ts, ((t.ringOf link).offer s).1.sampleAt ts = if ts = s.ts then
      some (RawSample.onto (RawSample.mergeAll (samplesOf history link s.ts)) s)
        else (t.ringOf link).sampleAt ts) :
    (t.ingest link s persist).1.Holds (history ++ [(link, s)]) := by
  have hspec := t.ringOf_offer_spec link s
  rw [hacc] at hspec
  have hts : (RawSample.onto (RawSample.mergeAll (samplesOf history link s.ts)) s).ts = s.ts :=
    hspec.stamped
  have hself : samplesOf (history ++ [(link, s)]) link s.ts = samplesOf history link s.ts ++ [s] := by
    rw [samplesOf_concat, if_pos ⟨rfl, rfl, hpos⟩]
  have hother : ∀ l ts, ¬ (link = l ∧ s.ts = ts) →
      samplesOf (history ++ [(link, s)]) l ts = samplesOf history l ts := by
    intro l ts hne
    rw [samplesOf_concat, if_neg (fun heq => hne ⟨heq.1, heq.2.1⟩)]
  have hbucket : ∀ l start, ((t.ingest link s persist).1.minutesOf l).bucketAt start =
      if link = l ∧ bucketTs s.ts = start then
        some (Minutes.rolled ((t.minutesOf l).bucketAt start)
          ⟨RawSample.mergeAll (samplesOf history link s.ts),
            RawSample.onto (RawSample.mergeAll (samplesOf history link s.ts)) s⟩)
      else (t.minutesOf l).bucketAt start := by
    intro l start
    rw [minutesOf_ingest persist hacc, bucketAt_bucketSection, hts]
  -- a minute holds what its samples say: one more for the sample's own, the same for the others
  have hminute : ∀ l start, MinuteHolds (((t.ingest link s persist).1.minutesOf l).bucketAt start)
      start (samplesOf (history ++ [(link, s)]) l) := by
    intro l start
    rw [hbucket]
    split
    · rename_i heq
      obtain ⟨rfl, rfl⟩ := heq
      exact (h.minute link _).rolled rfl hself (fun ts hne => hother link ts (fun heq => hne heq.2.symm))
    · rename_i hne
      apply (h.minute l start).congr
      intro ts hts
      rw [hother l ts (fun heq => hne ⟨heq.1, heq.2 ▸ hts⟩)]
      exact ⟨rfl, fun _ => rfl⟩
  refine ⟨fun l => ?_, fun l ts => ?_, fun l ts hnone => (hminute l _).missing hnone ts rfl,
    fun l start => (hminute l start).present⟩
  · rw [ringOf_ingest]
    split
    · exact hfloor
    · exact h.floor l
  · rw [ringOf_ingest]
    by_cases hl : l = link
    · subst hl
      rw [if_pos rfl, hat]
      by_cases hs : ts = s.ts
      · rw [if_pos hs, hs, hself, RawSample.mergeAll_concat]
      · rw [if_neg hs, h.rings, hother l ts (fun heq => hs heq.2.symm)]
    · rw [if_neg hl, h.rings, hother l ts (fun heq => hl heq.1.symm)]

/-- The next sample of a history is stated already, or is merged onto its second. -/
theorem Holds.offer_cases {t : Tsdb F} {history : List (LinkKey × RawSample F)}
    (h : t.Holds history) {link : LinkKey} {s : RawSample F}
    (hcap : (secondsAbove 0 (batchOf (history ++ [(link, s)]) link)).card ≤ rawRingCap) :
    (((t.ringOf link).offer s).2 = none ∧
      (s.ts = 0 ∨ ∃ held, RawSample.mergeAll (samplesOf history link s.ts) = some held ∧
        s.Within held)) ∨
    (((t.ringOf link).offer s).2 = some ⟨RawSample.mergeAll (samplesOf history link s.ts),
        RawSample.onto (RawSample.mergeAll (samplesOf history link s.ts)) s⟩ ∧ 0 < s.ts ∧
      ((t.ringOf link).offer s).1.floor = 0 ∧
      ∀ ts, ((t.ringOf link).offer s).1.sampleAt ts = if ts = s.ts then
        some (RawSample.onto (RawSample.mergeAll (samplesOf history link s.ts)) s)
          else (t.ringOf link).sampleAt ts) := by
  have hroom : (t.ringOf link).floor < s.ts →
      (insert s.ts (t.ringOf link).seconds).card ≤ rawRingCap := by
    intro hpos
    rw [h.floor] at hpos
    exact (Finset.card_le_card (h.insert_subset hpos)).trans hcap
  have hcases := (t.ringOf_offer_spec link s).room hroom
  rw [h.floor, Nat.le_zero, h.rings] at hcases
  exact hcases

/-- **Step lemma.** -/
theorem Holds.ingest {t : Tsdb F} {history : List (LinkKey × RawSample F)} (h : t.Holds history)
    (link : LinkKey) (s : RawSample F) (persist : Bool)
    (hcap : (secondsAbove 0 (batchOf (history ++ [(link, s)]) link)).card ≤ rawRingCap) :
    (t.ingest link s persist).1.Holds (history ++ [(link, s)]) := by
  rcases h.offer_cases hcap with ⟨hacc, hold⟩ | ⟨hacc, hpos, hfloor, hat⟩
  · -- nothing is accepted
    have hspec := t.ringOf_offer_spec link s
    have hsame := samplesOf_stated hold
    have hring : ((t.ringOf link).offer s).1 = t.ringOf link := by
      rw [hacc] at hspec
      exact hspec.eq_of_none
    have hrings : ∀ l, (t.ingest link s persist).1.ringOf l = t.ringOf l := by
      intro l
      rw [ringOf_ingest, hring]
      split
      · rename_i hl
        rw [hl]
      · rfl
    have hminutes : ∀ l, (t.ingest link s persist).1.minutesOf l = t.minutesOf l := by
      intro l
      rw [ingest_of_refused persist hacc]
      rfl
    have hminute : ∀ l start, MinuteHolds (((t.ingest link s persist).1.minutesOf l).bucketAt start)
        start (samplesOf (history ++ [(link, s)]) l) := by
      intro l start
      rw [hminutes]
      exact (h.minute l start).congr (fun ts _ => hsame l ts)
    refine ⟨fun l => ?_, fun l ts => ?_, fun l ts hnone => (hminute l _).missing hnone ts rfl,
      fun l start => (hminute l start).present⟩
    · rw [hrings]
      exact h.floor l
    · rw [hrings, (hsame l ts).1]
      exact h.rings l ts
  · exact h.accepted persist hpos hacc hfloor hat

/-! ### The queues after a history -/

omit [Zero F] [AddCommSemigroup F] in
/-- What is queued of a history: of every second the last version, and nothing of another link. -/
structure Queued (t : Tsdb F) (history : List (LinkKey × RawSample F)) : Prop where
  rows : ∀ l ts, t.lastRow l ts = RawSample.mergeAll (samplesOf history l ts)
  links : ∀ p ∈ t.pending, ∃ s, (p.1, s) ∈ history

theorem Queued.ingest {t : Tsdb F} {history : List (LinkKey × RawSample F)} (hq : t.Queued history)
    (h : t.Holds history) (hpath : t.cfg.path ≠ "") (link : LinkKey) (s : RawSample F)
    (hcap : (secondsAbove 0 (batchOf (history ++ [(link, s)]) link)).card ≤ rawRingCap) :
    (t.ingest link s true).1.Queued (history ++ [(link, s)]) := by
  have hmem : ∀ p ∈ t.pending, ∃ x, (p.1, x) ∈ history ++ [(link, s)] := by
    intro p hp
    obtain ⟨x, hx⟩ := hq.links p hp
    exact ⟨x, List.mem_append_left _ hx⟩
  rcases h.offer_cases hcap with ⟨hacc, hold⟩ | ⟨hacc, hpos, -⟩
  · -- refused: it said nothing new, so the rows are still the versions
    rw [ingest_of_refused true hacc]
    refine ⟨fun l ts => ?_, hmem⟩
    rw [(samplesOf_stated hold l ts).1]
    exact hq.rows l ts
  · have hspec := t.ringOf_offer_spec link s
    rw [hacc] at hspec
    have hts := hspec.stamped
    rw [ingest_of_accepted true hacc]
    refine ⟨fun l ts => ?_, fun p hp => ?_⟩
    · -- accepted: the row queued last is the new version
      have hrow := lastRowOf_queue t link l
        (RawSample.onto (RawSample.mergeAll (samplesOf history link s.ts)) s) true ts
      refine hrow.trans ?_
      have hpersist : (true && t.cfg.path != "") = true := by simpa using hpath
      rw [samplesOf_concat, hts, hq.rows]
      by_cases hs : link = l ∧ s.ts = ts
      · obtain ⟨rfl, rfl⟩ := hs
        rw [if_pos ⟨⟨rfl, rfl⟩, hpersist⟩, if_pos ⟨rfl, rfl, hpos⟩, RawSample.mergeAll_concat]
      · rw [if_neg (fun hc => hs hc.1), if_neg (fun hc => hs ⟨hc.1, hc.2.1⟩)]
    · rcases List.mem_append.mp hp with hp | hp
      · exact hmem p hp
      · unfold rowsFor at hp
        split at hp
        · rw [List.mem_singleton.mp hp]
          exact ⟨s, List.mem_append_right _ (List.mem_singleton_self _)⟩
        · exact absurd hp List.not_mem_nil

/-- Every bucket is dirty in its current version. -/
def AllDirty (t : Tsdb F) : Prop :=
  ∀ l start, t.dirty.get (l, start) = (t.minutesOf l).bucketAt start

theorem AllDirty.ingest {t : Tsdb F} (h : t.AllDirty) (link : LinkKey) (s : RawSample F)
    (persist : Bool) : (t.ingest link s persist).1.AllDirty := by
  intro l start
  cases hacc : ((t.ringOf link).offer s).2 with
  | none =>
    rw [ingest_of_refused persist hacc]
    exact h l start
  | some acc =>
    rw [minutesOf_ingest persist hacc, bucketAt_bucketSection, ingest_of_accepted persist hacc]
    dsimp only
    rw [Map.get_set]
    by_cases heq : l = link ∧ start = bucketTs acc.sample.ts
    · obtain ⟨rfl, rfl⟩ := heq
      rw [if_pos rfl, if_pos ⟨rfl, rfl⟩]
    · rw [if_neg (fun hc => heq (Prod.mk.inj hc)), if_neg (fun hc => heq ⟨hc.1.symm, hc.2.symm⟩)]
      exact h l start

/-! ### Whole histories -/

/-- A history, ingested one sample after another. -/
def ingestAll (t : Tsdb F) (persist : Bool) (history : List (LinkKey × RawSample F)) : Tsdb F :=
  history.foldl (fun t p => (t.ingest p.1 p.2 persist).1) t

theorem ingestAll_concat (t : Tsdb F) (persist : Bool) (history : List (LinkKey × RawSample F))
    (p : LinkKey × RawSample F) : t.ingestAll persist (history ++ [p]) =
      ((t.ingestAll persist history).ingest p.1 p.2 persist).1 := by
  rw [ingestAll, List.foldl_concat]
  rfl

theorem cfg_ingestAll (t : Tsdb F) (persist : Bool) (history : List (LinkKey × RawSample F)) :
    (t.ingestAll persist history).cfg = t.cfg := by
  induction history using List.reverseRecOn with
  | nil => rfl
  | append_singleton history p ih => rw [ingestAll_concat, cfg_ingest, ih]

theorem db_ingest (t : Tsdb F) (link : LinkKey) (s : RawSample F) (persist : Bool) :
    (t.ingest link s persist).1.db = t.db := by
  cases h : ((t.ringOf link).offer s).2 with
  | none => rw [ingest_of_refused persist h]
  | some acc => rw [ingest_of_accepted persist h]

theorem db_ingestAll (t : Tsdb F) (persist : Bool) (history : List (LinkKey × RawSample F)) :
    (t.ingestAll persist history).db = t.db := by
  induction history using List.reverseRecOn with
  | nil => rfl
  | append_singleton history p ih => rw [ingestAll_concat, db_ingest, ih]

/-- A store that nothing was ingested into. -/
structure Blank (t : Tsdb F) : Prop where
  rings : t.byLink = ∅
  buckets : t.buckets = ∅
  pending : t.pending = []
  dirty : t.dirty = ∅

omit [LinearOrder F] [Zero F] [AddCommSemigroup F] in
theorem blank_new (cfg : TsConfig) : (new cfg : Tsdb F).Blank := ⟨rfl, rfl, rfl, rfl⟩

/-- **What a store holds of a history.** -/
theorem holds_history {t : Tsdb F} (ht : t.Blank) {history : List (LinkKey × RawSample F)}
    (hcap : WithinCapacity history) (persist : Bool) :
    (t.ingestAll persist history).Holds history := by
  induction history using List.reverseRecOn with
  | nil =>
    have hring : ∀ l, t.ringOf l = Ring.empty := by
      intro l
      rw [ringOf, ht.rings]
      rfl
    have hminutes : ∀ l, t.minutesOf l = Minutes.empty := by
      intro l
      rw [minutesOf, ht.buckets]
      rfl
    refine ⟨fun l => ?_, fun l ts => ?_, fun _ _ _ => rfl, fun l start x hx => ?_⟩
    · exact congrArg Ring.floor (hring l)
    · exact congrArg (Ring.sampleAt · ts) (hring l)
    · rw [ingestAll, List.foldl_nil, hminutes] at hx
      exact absurd (show none = some x from hx) (by simp)
  | append_singleton history p ih =>
    rw [ingestAll_concat]
    exact (ih hcap.of_append).ingest p.1 p.2 persist (hcap p.1)

/-- **What a history queues.** -/
theorem queued_history {t : Tsdb F} (ht : t.Blank) (hpath : t.cfg.path ≠ "")
    {history : List (LinkKey × RawSample F)} (hcap : WithinCapacity history) :
    (t.ingestAll true history).Queued history ∧ (t.ingestAll true history).AllDirty := by
  induction history using List.reverseRecOn with
  | nil =>
    refine ⟨⟨fun l ts => ?_, fun p hp => ?_⟩, fun l start => ?_⟩
    · rw [ingestAll, List.foldl_nil, lastRow, ht.pending]
      rfl
    · rw [ingestAll, List.foldl_nil, ht.pending] at hp
      exact absurd hp List.not_mem_nil
    · rw [ingestAll, List.foldl_nil, minutesOf, ht.dirty, ht.buckets]
      rfl
  | append_singleton history p ih =>
    obtain ⟨hq, hd⟩ := ih hcap.of_append
    have hholds := holds_history ht hcap.of_append true
    rw [ingestAll_concat]
    have hcfg : (t.ingestAll true history).cfg.path ≠ "" := by rwa [cfg_ingestAll]
    exact ⟨hq.ingest hholds hcfg p.1 p.2 (hcap p.1), hd.ingest p.1 p.2 true⟩

end Tsdb

end Holds

end Mielofon
