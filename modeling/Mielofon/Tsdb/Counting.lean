import Mathlib.Data.Finset.Card
import Mielofon.Tsdb.Store

namespace Mielofon

open Lib

/-!
# How often a bucket counts a dimension

A same-second merge counts only the dimensions its previous version did not have, and the ring
holds that version until the second is shut out.  So a bucket counts a dimension of a second
at most once, however often samples of the second arrive.

* `Bucket.agg`, `Tsdb.countAt` — the aggregate of a dimension, and its count in a store;
* `Minutes.agg_rolled` — what a roll-up does to one dimension;
* `Ring.States` — a second can no longer add to the count of a dimension;
* `Tsdb.Counted`, `Counted.ingest` — the count grew by at most one for each second.
-/

variable {F : Type*}

/-- The aggregate of a dimension. -/
def Bucket.agg (b : Bucket F) : Dim → DimAgg F
  | .rtt => b.rtt
  | .loss => b.loss
  | .jitter => b.jitter
  | .tcp => b.tcp
  | .udp => b.udp
  | .udp_jitter => b.udp_jitter
  | .udp_loss => b.udp_loss
  | .mark_loss => b.mark_loss
  | .mark_rate => b.mark_rate

/-- How often the bucket of a minute has counted a dimension. -/
def Tsdb.countAt (t : Tsdb F) (l : LinkKey) (b : ℕ) (d : Dim) : ℕ :=
  (((t.minutesOf l).bucketAt b).map (fun x => (x.agg d).n)).getD 0

variable [LinearOrder F] [Zero F] [Add F]

omit [Zero F] in
/-- A dimension that is stated and was not counted before counts once. -/
theorem DimAgg.count_n (a : DimAgg F) (v already : Option F) :
    (a.count v already).n = a.n + if v.isSome ∧ already = none then 1 else 0 := by
  cases v with
  | none => rfl
  | some v =>
    cases already with
    | some w => rfl
    | none =>
      show (a.merge v).n = a.n + 1
      unfold DimAgg.merge
      split
      · rename_i hn
        rw [hn]
      · rfl

namespace Bucket

theorem agg_add (b : Bucket F) (s : RawSample F) (d : Dim) :
    (b.add s).agg d = (b.agg d).count (s.dim d) none := by
  unfold add
  split <;> cases d <;> rfl

omit [Zero F] in
theorem agg_mergeInto (b : Bucket F) (s already : RawSample F) (d : Dim) :
    (b.mergeInto s already).agg d = (b.agg d).count (s.dim d) (already.dim d) := by
  unfold mergeInto
  split <;> cases d <;> rfl

end Bucket

/-- A roll-up counts what the sample states and its previous version did not; into a missing
    bucket it counts all the sample states. -/
theorem Minutes.agg_rolled (held : Option (Bucket F)) (acc : Accepted F) (d : Dim) :
    (rolled held acc).agg d = match held with
      | none => (DimAgg.default : DimAgg F).count (acc.sample.dim d) none
      | some b => (b.agg d).count (acc.sample.dim d) (acc.merged_from.bind (·.dim d)) := by
  obtain ⟨prev, s⟩ := acc
  cases held with
  | none => rw [rolled, Bucket.agg_add]; cases d <;> rfl
  | some b =>
    cases prev with
    | none => exact Bucket.agg_add b s d
    | some prev => exact Bucket.agg_mergeInto b s prev d

/-- A roll-up that adds to the count of a dimension adds one, for a sample that states it where no
    version before did. -/
theorem Minutes.count_rolled_of_lt {held : Option (Bucket F)} {acc : Accepted F} {d : Dim}
    (h : (held.map (fun b => (b.agg d).n)).getD 0 < ((rolled held acc).agg d).n) :
    (acc.sample.dim d).isSome ∧ (held.isSome → acc.merged_from.bind (·.dim d) = none) ∧
      ((rolled held acc).agg d).n = (held.map (fun b => (b.agg d).n)).getD 0 + 1 := by
  rw [agg_rolled] at h ⊢
  cases held with
  | none =>
    simp only [Option.map_none, Option.getD_none, DimAgg.count_n] at h ⊢
    split at h
    · rename_i hd
      exact ⟨hd.1, fun h => absurd h (by simp), by rw [if_pos hd]; rfl⟩
    · exact absurd h (lt_irrefl _)
  | some x =>
    simp only [Option.map_some, Option.getD_some, DimAgg.count_n] at h ⊢
    split at h
    · rename_i hd
      exact ⟨hd.1, fun _ => hd.2, by rw [if_pos hd]⟩
    · exact absurd h (by omega)

namespace Ring

omit [LinearOrder F] [Zero F] [Add F] in
/-- The second is shut out, or the sample held for it states the dimension. -/
def States (r : Ring F) (d : Dim) (ts : ℕ) : Prop :=
  ts ≤ r.floor ∨ ∃ held, r.sampleAt ts = some held ∧ (held.dim d).isSome

omit [Zero F] [Add F] in
/-- A second stays so, whatever is offered. -/
theorem Offer.states {r r' : Ring F} {s : RawSample F} {acc : Option (Accepted F)} {d : Dim}
    {ts : ℕ} (h : Offer r s r' acc) (hs : r.States d ts) : r'.States d ts := by
  rcases hs with hle | ⟨held, hheld, hdim⟩
  · exact Or.inl (hle.trans h.floor_le)
  rcases h.kept hheld with hshut | hsame | ⟨-, hmerged⟩
  · exact Or.inl hshut
  · exact Or.inr ⟨held, hsame, hdim⟩
  · refine Or.inr ⟨_, hmerged, ?_⟩
    rw [RawSample.mergedWith_dim, Option.isSome_or, hdim, Bool.or_true]

omit [Zero F] [Add F] in
/-- What is accepted is held afterwards, and its previous version before. -/
theorem Offer.accepted {r r' : Ring F} {s : RawSample F} {acc : Accepted F}
    (h : Offer r s r' (some acc)) : r.floor < s.ts ∧ r.sampleAt s.ts = acc.merged_from ∧
      r'.sampleAt s.ts = some acc.sample := by
  cases h with
  | merged held _ hfloor hheld _ _ hat => exact ⟨hfloor, hheld, (hat s.ts).trans (if_pos rfl)⟩
  | added _ hfloor hnone _ _ hat => exact ⟨hfloor, hnone, (hat s.ts).trans (if_pos rfl)⟩
  | evicted _ _ hfloor hnone _ _ _ _ _ hat =>
    exact ⟨hfloor, hnone, (hat s.ts).trans (if_pos rfl)⟩

end Ring

namespace Tsdb

/-- The bucket section updates the bucket of its link and minute. -/
theorem bucketAt_bucketSection (t : Tsdb F) (link l : LinkKey) (acc : Accepted F) (b : ℕ) :
    ((t.bucketSection link acc).minutesOf l).bucketAt b =
      if link = l ∧ bucketTs acc.sample.ts = b then
        some (Minutes.rolled ((t.minutesOf l).bucketAt b) acc)
      else (t.minutesOf l).bucketAt b := by
  have hof : (t.bucketSection link acc).minutesOf l =
      if l = link then (t.minutesOf link).update acc else t.minutesOf l := by
    unfold minutesOf bucketSection
    rw [Map.get_set]
    split <;> rfl
  rw [hof]
  by_cases hl : l = link
  · subst hl
    rw [if_pos rfl, Minutes.bucketAt_update]
    by_cases hb : b = bucketTs acc.sample.ts
    · subst hb
      rw [if_pos rfl, if_pos ⟨rfl, rfl⟩]
    · rw [if_neg hb, if_neg (fun h => hb h.2.symm)]
  · rw [if_neg hl, if_neg (fun h => hl h.1.symm)]

/-- The buckets after an ingest. -/
theorem minutesOf_ingest {t : Tsdb F} {link : LinkKey} {s : RawSample F} (persist : Bool)
    {acc : Accepted F} (h : ((t.ringOf link).offer s).2 = some acc) (l : LinkKey) :
    (t.ingest link s persist).1.minutesOf l = (t.bucketSection link acc).minutesOf l := by
  rw [ingest_of_accepted persist h]
  rfl

omit [LinearOrder F] [Zero F] [Add F] in
/-- Since `t₀`, the count of a dimension in a bucket grew at most by one for each of `seconds`,
    and those it grew for cannot add to it again. -/
def Counted (t₀ t : Tsdb F) (l : LinkKey) (b : ℕ) (d : Dim) (seconds : Finset ℕ) : Prop :=
  ∃ S ⊆ seconds, t.countAt l b d ≤ t₀.countAt l b d + S.card ∧
    ∀ ts ∈ S, ((t.minutesOf l).bucketAt b).isSome ∧ (t.ringOf l).States d ts

omit [LinearOrder F] [Zero F] [Add F] in
theorem Counted.refl (t : Tsdb F) (l : LinkKey) (b : ℕ) (d : Dim) : Counted t t l b d ∅ :=
  ⟨∅, Finset.Subset.refl _, Nat.le_add_right _ _, fun _ h => absurd h (Finset.notMem_empty _)⟩

omit [LinearOrder F] [Zero F] [Add F] in
/-- A step that leaves the bucket alone and no second open. -/
theorem Counted.frame {t₀ t t' : Tsdb F} {l : LinkKey} {b : ℕ} {d : Dim}
    {seconds seconds' : Finset ℕ} (h : Counted t₀ t l b d seconds) (hsub : seconds ⊆ seconds')
    (hmin : (t'.minutesOf l).bucketAt b = (t.minutesOf l).bucketAt b)
    (hring : ∀ ts, (t.ringOf l).States d ts → (t'.ringOf l).States d ts) :
    Counted t₀ t' l b d seconds' := by
  obtain ⟨S, hS, hcount, hst⟩ := h
  have hsame : t'.countAt l b d = t.countAt l b d := by rw [countAt, countAt, hmin]
  exact ⟨S, hS.trans hsub, hsame ▸ hcount,
    fun ts hts => ⟨hmin ▸ (hst ts hts).1, hring ts (hst ts hts).2⟩⟩

/-- **Step lemma.** An ingest counts a dimension once for its second, or not at all. -/
theorem Counted.ingest {t₀ t : Tsdb F} {l : LinkKey} {b : ℕ} {d : Dim} {seconds : Finset ℕ}
    (h : Counted t₀ t l b d seconds) (link : LinkKey) (s : RawSample F) (persist : Bool) :
    Counted t₀ (t.ingest link s persist).1 l b d
      (if link = l ∧ bucketTs s.ts = b then insert s.ts seconds else seconds) := by
  have hspec := t.ringOf_offer_spec link s
  have hring : ∀ ts, (t.ringOf l).States d ts →
      ((t.ingest link s persist).1.ringOf l).States d ts := by
    intro ts hts
    rw [ringOf_ingest]
    split
    · rename_i hl
      subst hl
      exact hspec.states hts
    · exact hts
  have hsub : seconds ⊆ if link = l ∧ bucketTs s.ts = b then insert s.ts seconds else seconds := by
    split
    · exact Finset.subset_insert _ _
    · exact Finset.Subset.refl _
  cases hacc : ((t.ringOf link).offer s).2 with
  | none =>
    refine h.frame hsub ?_ hring
    rw [ingest_of_refused persist hacc]
    rfl
  | some acc =>
    rw [hacc] at hspec
    have hts := hspec.stamped
    have hat := t.bucketAt_bucketSection link l acc b
    rw [← minutesOf_ingest persist hacc, hts] at hat
    by_cases hlb : link = l ∧ bucketTs s.ts = b
    · obtain ⟨rfl, rfl⟩ := hlb
      rw [if_pos ⟨rfl, rfl⟩] at hat ⊢
      obtain ⟨S, hS, hcount, hst⟩ := h
      obtain ⟨hfloor, hprev, hheld⟩ := hspec.accepted
      have hnew : (t.ingest link s persist).1.countAt link (bucketTs s.ts) d =
          ((Minutes.rolled ((t.minutesOf link).bucketAt (bucketTs s.ts)) acc).agg d).n := by
        rw [countAt, hat]
        rfl
      have hkeep : ∀ ts ∈ S,
          (((t.ingest link s persist).1.minutesOf link).bucketAt (bucketTs s.ts)).isSome ∧
            ((t.ingest link s persist).1.ringOf link).States d ts := fun ts hts' =>
        ⟨by rw [hat]; rfl, hring ts (hst ts hts').2⟩
      by_cases hinc : t.countAt link (bucketTs s.ts) d <
          (t.ingest link s persist).1.countAt link (bucketTs s.ts) d
      · -- the second is new to the count, and its sample states the dimension from now on
        rw [hnew] at hinc
        obtain ⟨hstated, hfresh, hrolled⟩ := Minutes.count_rolled_of_lt hinc
        have hone : (t.ingest link s persist).1.countAt link (bucketTs s.ts) d =
            t.countAt link (bucketTs s.ts) d + 1 := hnew.trans hrolled
        have hnotin : s.ts ∉ S := by
          intro hin
          obtain ⟨hsome, hle | ⟨held, hat', hdim⟩⟩ := hst s.ts hin
          · omega
          · have hprev' := hfresh hsome
            rw [← hprev, hat', Option.bind_some] at hprev'
            rw [hprev'] at hdim
            exact absurd hdim (by simp)
        refine ⟨insert s.ts S, Finset.insert_subset_insert _ hS, ?_, fun ts hmem => ?_⟩
        · rw [Finset.card_insert_of_notMem hnotin]
          omega
        · rcases Finset.mem_insert.mp hmem with rfl | hmem
          · refine ⟨by rw [hat]; rfl, Or.inr ⟨acc.sample, ?_, hstated⟩⟩
            rw [ringOf_ingest, if_pos rfl]
            exact hheld
          · exact hkeep ts hmem
      · exact ⟨S, hS.trans (Finset.subset_insert _ _), by omega, hkeep⟩
    · rw [if_neg hlb] at hat ⊢
      exact h.frame (Finset.Subset.refl _) hat hring

end Tsdb

end Mielofon
