import Mielofon.Tsdb.History

namespace Mielofon

open Lib

/-!
# The ring and its reference

What a ring holds of everything offered to it, said without its floor, its evictions and its
refusals: the newest `rawRingCap` seconds, each with the merge of all its samples in the order
they came.  A second that is refused once, or evicted, has a full ring of newer seconds from then
on, and so no later sample can bring it back with a part of its samples only.

* `atSecond`, `reference` — the samples of a second, and the list a ring stands for;
* `Ring.countAbove_of_held` — a new second that is held never had a full ring above it;
* `Ring.sampleAt_offers_empty` — second by second, the merge of all samples;
* `ring_eq_reference` — the ring of a link after every sequence of ingests.
-/

variable {F : Type*} [LinearOrder F]

omit [LinearOrder F] in
/-- The samples of a second, in the order they came. -/
def atSecond (ss : List (RawSample F)) (ts : ℕ) : List (RawSample F) :=
  ss.filter (fun s => s.ts = ts)

/-- The newest seconds of the samples, in ascending order, each merged from all its samples. -/
def reference (ss : List (RawSample F)) : List (RawSample F) :=
  ((newest rawRingCap (secondsAbove 0 ss)).sort (· ≤ ·)).filterMap
    (fun ts => RawSample.mergeAll (atSecond ss ts))

omit [LinearOrder F] in
theorem atSecond_concat (ss : List (RawSample F)) (s : RawSample F) (ts : ℕ) :
    atSecond (ss ++ [s]) ts = atSecond ss ts ++ if s.ts = ts then [s] else [] := by
  simp only [atSecond, List.filter_append, List.filter_cons, List.filter_nil, decide_eq_true_eq]

omit [LinearOrder F] in
theorem atSecond_eq_nil_iff {ss : List (RawSample F)} {ts : ℕ} (hpos : 0 < ts) :
    atSecond ss ts = [] ↔ ts ∉ secondsAbove 0 ss := by
  rw [atSecond, List.filter_eq_nil_iff, mem_secondsAbove]
  simp [hpos]

/-- A merge is stamped with the second of its samples. -/
theorem ts_of_mergeAll_atSecond {ss : List (RawSample F)} {ts : ℕ} {v : RawSample F}
    (h : RawSample.mergeAll (atSecond ss ts) = some v) : v.ts = ts := by
  induction ss using List.reverseRecOn generalizing v with
  | nil => exact absurd h (by simp [atSecond, RawSample.mergeAll])
  | append_singleton ss s ih =>
    rw [atSecond_concat] at h
    split at h
    · rename_i hts
      rw [RawSample.mergeAll_concat, Option.some.injEq] at h
      subst h
      cases hheld : RawSample.mergeAll (atSecond ss ts) with
      | none => exact hts
      | some held =>
        show held.ts = ts
        exact ih hheld
    · rw [List.append_nil] at h
      exact ih h

namespace Ring

/-- A new second that is then held has less than a full ring of seconds above it. -/
theorem countAbove_of_held {r r' : Ring F} {s x : RawSample F} {acc : Option (Accepted F)}
    (h : Offer r s r' acc) (hfloor : r.floor < s.ts) (hx : r'.sampleAt s.ts = some x) :
    countAbove r.seconds s.ts < rawRingCap := by
  have hmem : s.ts ∈ r'.seconds := mem_seconds.mpr ⟨x, hx⟩
  rw [h.seconds hfloor, mem_newest] at hmem
  exact (countAbove_mono (Finset.subset_insert s.ts r.seconds) s.ts).trans_lt hmem.2

omit [LinearOrder F] in
/-- A second of the samples that the ring does not hold has a full ring above it. -/
theorem le_countAbove_of_not_held {ss : List (RawSample F)} {r : Ring F} {ts : ℕ}
    (hseconds : r.seconds = newest rawRingCap (secondsAbove 0 ss)) (hts : ts ∈ secondsAbove 0 ss)
    (hnone : r.sampleAt ts = none) : rawRingCap ≤ countAbove r.seconds ts := by
  rw [hseconds]
  refine le_countAbove_newest (not_lt.mp (fun hcount => ?_))
  have hheld : ts ∈ r.seconds := by
    rw [hseconds]
    exact mem_newest.mpr ⟨hts, hcount⟩
  exact notMem_seconds.mpr hnone hheld

theorem seconds_offers_empty (ss : List (RawSample F)) :
    ((empty : Ring F).offers ss).seconds = newest rawRingCap (secondsAbove 0 ss) := by
  rw [seconds_offers]
  exact congrArg _ (Finset.empty_union _)

/-- **What a second holds** is the merge of all its samples, if it is held at all. -/
theorem sampleAt_offers_empty (ss : List (RawSample F)) {ts : ℕ} {x : RawSample F}
    (hx : ((empty : Ring F).offers ss).sampleAt ts = some x) :
    RawSample.mergeAll (atSecond ss ts) = some x := by
  induction ss using List.reverseRecOn generalizing x with
  | nil => exact absurd hx (by simp [offers, empty, sampleAt])
  | append_singleton ss s ih =>
    have hstep : (empty : Ring F).offers (ss ++ [s]) = (((empty : Ring F).offers ss).offer s).1 := by
      rw [offers, List.foldl_concat]
      rfl
    have hoffer := offer_spec ((empty : Ring F).offers ss) s
    rw [hstep] at hx
    rw [atSecond_concat]
    by_cases hts : s.ts = ts
    · subst hts
      rw [if_pos rfl, RawSample.mergeAll_concat, Option.some.injEq]
      have hseconds := seconds_offers_empty ss
      generalize (empty : Ring F).offers ss = r at hoffer hx hseconds ih
      -- a second that is new to the ring is new to the samples
      have hnew : r.floor < s.ts → r.sampleAt s.ts = none →
          RawSample.mergeAll (atSecond ss s.ts) = none := by
        intro hfloor hnone
        rw [RawSample.mergeAll_eq_none_iff, atSecond_eq_nil_iff (Nat.zero_lt_of_lt hfloor)]
        intro hmem
        exact absurd (countAbove_of_held hoffer hfloor hx)
          (not_lt.mpr (le_countAbove_of_not_held hseconds hmem hnone))
      generalize (r.offer s).1 = r', (r.offer s).2 = acc at hoffer hx
      cases hoffer with
      | old hfloor =>
        exact absurd (floor_lt_of_mem_seconds (mem_seconds.mpr ⟨x, hx⟩)) (not_lt.mpr hfloor)
      | resend held _ hheld hin =>
        obtain rfl := Option.some.inj (hheld.symm.trans hx)
        rw [ih hheld]
        exact RawSample.mergedWith_eq_self_iff.mpr hin
      | merged held _ hfloor hheld _ _ hat =>
        rw [hat, if_pos rfl, Option.some.injEq] at hx
        rw [ih hheld]
        exact hx
      | full hfloor hnone =>
        exact absurd (hnone.symm.trans hx) (by simp)
      | added _ hfloor hnone _ _ hat =>
        rw [hat, if_pos rfl, Option.some.injEq] at hx
        rw [hnew hfloor hnone]
        exact hx
      | evicted old _ hfloor hnone _ _ _ _ _ hat =>
        rw [hat, if_pos rfl, Option.some.injEq] at hx
        rw [hnew hfloor hnone]
        exact hx
    · rw [if_neg hts, List.append_nil]
      exact ih (hoffer.sampleAt_of_ne (Ne.symm hts) hx)

/-- The ring of the samples, as a list. -/
theorem samples_offers_empty (ss : List (RawSample F)) :
    ((empty : Ring F).offers ss).samples = reference ss := by
  have hsorted : Ascending RawSample.ts (reference ss) := by
    refine List.Pairwise.filterMap (R := (· < ·)) _ (fun ts ts' hlt v hv v' hv' => ?_)
      (Finset.sortedLT_sort _).pairwise
    rwa [ts_of_mergeAll_atSecond hv, ts_of_mergeAll_atSecond hv']
  refine ((empty : Ring F).offers ss).ascending.eq_of_slot hsorted (fun ts => ?_)
  ext x
  show ((empty : Ring F).offers ss).sampleAt ts = some x ↔ _
  rw [slot_eq_some_iff hsorted, reference, List.mem_filterMap]
  simp only [Finset.mem_sort, ← seconds_offers_empty]
  constructor
  · intro hx
    have hmerge := sampleAt_offers_empty ss hx
    exact ⟨⟨ts, mem_seconds.mpr ⟨x, hx⟩, hmerge⟩, ts_of_mergeAll_atSecond hmerge⟩
  · rintro ⟨⟨ts', hmem, hmerge⟩, hts⟩
    obtain rfl := (ts_of_mergeAll_atSecond hmerge).symm.trans hts
    obtain ⟨y, hy⟩ := mem_seconds.mp hmem
    exact (sampleAt_offers_empty ss hy).symm.trans hmerge ▸ hy

end Ring

section Store

variable [Zero F] [Add F]

/-- A sequence of ingests, each local or not. -/
def Tsdb.ingestEach (t : Tsdb F) (history : List ((LinkKey × RawSample F) × Bool)) : Tsdb F :=
  history.foldl (fun t p => (t.ingest p.1.1 p.1.2 p.2).1) t

theorem ringOf_ingestEach (t : Tsdb F) (history : List ((LinkKey × RawSample F) × Bool))
    (l : LinkKey) :
    (t.ingestEach history).ringOf l = (t.ringOf l).offers (batchOf (history.map Prod.fst) l) := by
  induction history generalizing t with
  | nil => rfl
  | cons p history ih =>
    rw [Tsdb.ingestEach, List.foldl_cons, ← Tsdb.ingestEach, ih, Tsdb.ringOf_ingest, List.map_cons,
      batchOf_cons]
    by_cases hp : p.1.1 = l
    · rw [if_pos hp, if_pos hp.symm, Ring.offers_cons, hp]
    · rw [if_neg hp, if_neg (Ne.symm hp)]

/-- **The ring equals its reference.** After any sequence of ingests into an empty store, the ring
    of a link holds the newest `rawRingCap` of the positive seconds ingested for it, all of them
    when there are fewer, in strictly ascending order, and of each second the merge of all its
    samples in the order they came. -/
theorem ring_eq_reference (cfg : TsConfig) (history : List ((LinkKey × RawSample F) × Bool))
    (l : LinkKey) :
    (((Tsdb.new cfg).ingestEach history).ringOf l).samples =
        reference (batchOf (history.map Prod.fst) l) ∧
      (((Tsdb.new cfg).ingestEach history).ringOf l).samples.Pairwise (fun a b => a.ts < b.ts) ∧
      (((Tsdb.new cfg).ingestEach history).ringOf l).samples.length =
        min rawRingCap (secondsAbove 0 (batchOf (history.map Prod.fst) l)).card := by
  have hring : ((Tsdb.new cfg).ingestEach history).ringOf l =
      (Ring.empty : Ring F).offers (batchOf (history.map Prod.fst) l) :=
    ringOf_ingestEach (Tsdb.new cfg) history l
  refine ⟨hring ▸ Ring.samples_offers_empty _, Ring.ascending _, ?_⟩
  rw [← Ring.card_seconds, hring, Ring.seconds_offers_empty, card_newest]

end Store

end Mielofon
