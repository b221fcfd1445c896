import Mathlib
import Mielofon.Tsdb.Batch
import Mielofon.Tsdb.Store

namespace Mielofon

open Lib

/-!
# Delivering a batch twice

Gossip re-sends a batch whose acknowledgement was lost.  The same-second merge keeps the last
value that arrived, so a batch that states two values for one dimension of one second replaces
one by the other and, delivered again, replaces them back.

* `batchOf` — the samples of a batch for one link;
* `ringOf_mergeDelta` — the ring of a link after a batch;
* `Tsdb.BatchAgrees` — the samples of the batch agree wherever their second stays in the ring;
* `mergeDelta_mergeDelta_iff` — the second delivery changes nothing exactly under this;
* `mergeDelta_not_idempotent` — a batch for which it does.
-/

variable {F : Type*} [LinearOrder F] [Zero F] [Add F]

omit [LinearOrder F] [Zero F] [Add F] in
/-- The samples of a batch for one link. -/
def batchOf (b : List (LinkKey × RawSample F)) (l : LinkKey) : List (RawSample F) :=
  (b.filter (fun p => p.1 = l)).map Prod.snd

omit [LinearOrder F] [Zero F] [Add F] in
theorem mem_batchOf {b : List (LinkKey × RawSample F)} {l : LinkKey} {s : RawSample F} :
    s ∈ batchOf b l ↔ (l, s) ∈ b := by
  simp only [batchOf, List.mem_map, List.mem_filter, decide_eq_true_eq]
  constructor
  · rintro ⟨⟨l', s'⟩, ⟨hmem, rfl⟩, rfl⟩
    exact hmem
  · intro h
    exact ⟨(l, s), ⟨h, rfl⟩, rfl⟩

omit [LinearOrder F] [Zero F] [Add F] in
theorem batchOf_cons (p : LinkKey × RawSample F) (b : List (LinkKey × RawSample F)) (l : LinkKey) :
    batchOf (p :: b) l = if p.1 = l then p.2 :: batchOf b l else batchOf b l := by
  by_cases hp : p.1 = l
  · simp [batchOf, hp]
  · simp [batchOf, hp]

omit [LinearOrder F] [Zero F] [Add F] in
theorem batchOf_append (b b' : List (LinkKey × RawSample F)) (l : LinkKey) :
    batchOf (b ++ b') l = batchOf b l ++ batchOf b' l := by
  simp only [batchOf, List.filter_append, List.map_append]

namespace Tsdb

@[simp] theorem mergeDelta_nil (t : Tsdb F) : t.mergeDelta [] = t := rfl

@[simp] theorem mergeDelta_cons (t : Tsdb F) (p : LinkKey × RawSample F)
    (b : List (LinkKey × RawSample F)) :
    t.mergeDelta (p :: b) = (t.ingest p.1 p.2 true).1.mergeDelta b := rfl

/-- A batch offers to the ring of each link its samples for that link. -/
theorem ringOf_mergeDelta (t : Tsdb F) (b : List (LinkKey × RawSample F)) (l : LinkKey) :
    (t.mergeDelta b).ringOf l = (t.ringOf l).offers (batchOf b l) := by
  induction b generalizing t with
  | nil => rfl
  | cons p b ih =>
    rw [mergeDelta_cons, ih, ringOf_ingest, batchOf_cons]
    by_cases hp : p.1 = l
    · rw [if_pos hp, if_pos hp.symm, Ring.offers_cons, hp]
    · rw [if_neg hp, if_neg (Ne.symm hp)]

/-- After a batch every link it names has a ring. -/
theorem mem_byLink_mergeDelta {t : Tsdb F} {b : List (LinkKey × RawSample F)} {l : LinkKey}
    (h : l ∈ t.byLink ∨ ∃ s, (l, s) ∈ b) : l ∈ (t.mergeDelta b).byLink := by
  induction b generalizing t with
  | nil =>
    rcases h with h | ⟨s, h⟩
    · exact h
    · exact absurd h List.not_mem_nil
  | cons p b ih =>
    rw [mergeDelta_cons]
    rcases h with h | ⟨s, h⟩
    · exact ih (Or.inl (mem_byLink_ingest t p.1 p.2 true (Or.inr h)))
    · rcases List.mem_cons.mp h with rfl | h
      · exact ih (Or.inl (mem_byLink_ingest t l s true (Or.inl rfl)))
      · exact ih (Or.inr ⟨s, h⟩)

/-- A batch never lowers the sequence counter. -/
theorem seq_le_mergeDelta (t : Tsdb F) (b : List (LinkKey × RawSample F)) :
    t.seq ≤ (t.mergeDelta b).seq := by
  induction b generalizing t with
  | nil => exact le_refl _
  | cons p b ih =>
    rw [mergeDelta_cons]
    exact le_trans (by rw [seq_ingest]; exact Nat.le_add_right _ _) (ih _)

/-- A batch changes nothing exactly when every ring refuses its samples, provided the links
    have rings: the first sample accepted would raise the sequence counter. -/
theorem mergeDelta_eq_self_iff {t : Tsdb F} {b : List (LinkKey × RawSample F)}
    (hmem : ∀ p ∈ b, p.1 ∈ t.byLink) :
    t.mergeDelta b = t ↔ ∀ p ∈ b, ((t.ringOf p.1).offer p.2).2 = none := by
  induction b with
  | nil => simp
  | cons p b ih =>
    have hp := hmem p List.mem_cons_self
    have hb := fun q hq => hmem q (List.mem_cons_of_mem _ hq)
    by_cases href : ((t.ringOf p.1).offer p.2).2 = none
    · rw [mergeDelta_cons, ingest_eq_self true hp href, ih hb]
      exact ⟨fun h q hq => (List.mem_cons.mp hq).elim (fun he => he ▸ href) (h q),
        fun h q hq => h q (List.mem_cons_of_mem _ hq)⟩
    · refine ⟨fun h => ?_, fun h => absurd (h p List.mem_cons_self) href⟩
      have hseq := seq_le_mergeDelta (t.ingest p.1 p.2 true).1 b
      rw [← mergeDelta_cons, h, seq_ingest, if_neg href] at hseq
      omega

/-- Wherever a second of the batch stays in the ring of its link, the samples the batch has
    for it do not state different values. -/
def BatchAgrees (t : Tsdb F) (b : List (LinkKey × RawSample F)) : Prop :=
  ∀ l s s', (l, s) ∈ b → (l, s') ∈ b → s'.ts = s.ts →
    (t.ringOf l).Survives (batchOf b l) s.ts → s.Agrees s'

/-- **When a second delivery is a no-op.** Merging a batch again directly afterwards leaves
    the whole store as it was, if and only if the samples of the batch agree at every second
    that stays. -/
theorem mergeDelta_mergeDelta_iff (t : Tsdb F) (b : List (LinkKey × RawSample F)) :
    (t.mergeDelta b).mergeDelta b = t.mergeDelta b ↔ t.BatchAgrees b := by
  rw [mergeDelta_eq_self_iff (fun p hp => mem_byLink_mergeDelta (Or.inr ⟨p.2, hp⟩))]
  have hring : ∀ l, (∀ s ∈ batchOf b l, (((t.ringOf l).offers (batchOf b l)).offer s).2 = none) ↔
      ∀ s ∈ batchOf b l, ∀ s' ∈ batchOf b l, s'.ts = s.ts →
        (t.ringOf l).Survives (batchOf b l) s.ts → s.Agrees s' :=
    fun l => Ring.all_refused_iff _ _
  constructor
  · intro hall l s s' hs hs' hts hsurv
    refine (hring l).mp (fun x hx => ?_) s (mem_batchOf.mpr hs) s' (mem_batchOf.mpr hs') hts hsurv
    rw [← ringOf_mergeDelta]
    exact hall (l, x) (mem_batchOf.mp hx)
  · intro hagree p hp
    rw [ringOf_mergeDelta]
    refine (hring p.1).mpr (fun s hs s' hs' hts hsurv => ?_) p.2 (mem_batchOf.mpr hp)
    exact hagree p.1 s s' (mem_batchOf.mp hs) (mem_batchOf.mp hs') hts hsurv

end Tsdb

/-! ### A batch with two values for one second -/

/-- The link of the examples. -/
def echoKey : LinkKey := ⟨"hub-a", "hub-b", "awg0"⟩

/-- A probe report of one round-trip time. -/
def rttSample (ts : ℕ) (rtt : ℕ) : RawSample ℕ :=
  RawSample.fromDims .quiet ts (some rtt) none none none 0

/-- **A second delivery that is not a no-op.** The batch reports two round-trip times for one
    second; each delivery replaces the later one by the earlier one and back, and logs both. -/
theorem mergeDelta_not_idempotent :
    ((Tsdb.new ⟨"", 7200, 86400⟩ : Tsdb ℕ).mergeDelta
        [(echoKey, rttSample 60 5), (echoKey, rttSample 60 6)]).mergeDelta
        [(echoKey, rttSample 60 5), (echoKey, rttSample 60 6)] ≠
      (Tsdb.new ⟨"", 7200, 86400⟩ : Tsdb ℕ).mergeDelta
        [(echoKey, rttSample 60 5), (echoKey, rttSample 60 6)] := by
  intro h
  have hseq := congrArg Tsdb.seq h
  exact absurd hseq (by decide)

end Mielofon
