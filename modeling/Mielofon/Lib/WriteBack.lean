import Mathlib.Data.Option.Basic

namespace Lib

/-!
# The copies of a record on its way to a store

A write-back queue holds the changed records.  A batch is drained from it and written to the
store in one go, while newer versions are queued behind.

* `Copies` — the version of one record in the queue, in the batch and in the store;
* `Copies.newest` — the version found first;
* `newest_drain`, `newest_commit` — draining and committing do not change it;
* `newest_lose_iff` — a batch that is given up must be covered by the queue or the store;
* `newest_requeue_iff` — a batch queued again behind the queue must not be superseded by it.
-/

variable {ν : Type*}

/-- The version of a record in the queue, in the batch being written and in the store. -/
structure Copies (ν : Type*) where
  queued : Option ν
  batch : Option ν
  stored : Option ν

namespace Copies

variable {c : Copies ν} {v : ν}

/-- The queue holds the newer version, then the batch, then the store. -/
def newest (c : Copies ν) : Option ν := c.queued.or (c.batch.or c.stored)

/-- The record is changed. -/
def write (c : Copies ν) (v : ν) : Copies ν := { c with queued := some v }

/-- The queue is taken as the batch. -/
def drain (c : Copies ν) : Copies ν := ⟨none, c.queued, c.stored⟩

/-- The batch is written. -/
def commit (c : Copies ν) : Copies ν := ⟨c.queued, none, c.batch.or c.stored⟩

/-- The batch is given up. -/
def lose (c : Copies ν) : Copies ν := { c with batch := none }

/-- The batch is queued again, behind what has been queued since: it is read as the newer one. -/
def requeue (c : Copies ν) : Copies ν := ⟨c.batch.or c.queued, none, c.stored⟩

/-- What the batch holds is in the store, or the record is queued again. -/
def Covered (c : Copies ν) : Prop := ∀ v ∈ c.batch, c.queued = none → c.stored = some v

/-- What the batch holds has not been queued again in another version. -/
def Unsuperseded (c : Copies ν) : Prop := ∀ v ∈ c.batch, ∀ v' ∈ c.queued, v' = v

instance [DecidableEq ν] (c : Copies ν) : Decidable c.Covered :=
  inferInstanceAs (Decidable (∀ v ∈ c.batch, _ → _))

instance [DecidableEq ν] (c : Copies ν) : Decidable c.Unsuperseded :=
  inferInstanceAs (Decidable (∀ v ∈ c.batch, ∀ v' ∈ c.queued, _))

theorem newest_drain (h : c.batch = none) : c.drain.newest = c.newest := by
  unfold newest drain
  rw [h, Option.none_or, Option.none_or]

theorem newest_commit (c : Copies ν) : c.commit.newest = c.newest := by
  unfold newest commit
  rw [Option.none_or]

/-- **Giving up a batch.** -/
theorem newest_lose_iff : c.lose.newest = c.newest ↔ c.Covered := by
  obtain ⟨queued, batch, stored⟩ := c
  unfold newest lose Covered
  cases queued with
  | some w => simp
  | none =>
    cases batch with
    | none => simp
    | some v => simp

/-- **Queueing a batch again.** -/
theorem newest_requeue_iff : c.requeue.newest = c.newest ↔ c.Unsuperseded := by
  obtain ⟨queued, batch, stored⟩ := c
  unfold newest requeue Unsuperseded
  cases batch with
  | none => simp
  | some v =>
    cases queued with
    | none => simp
    | some w => simp [eq_comm]

theorem covered_of_batch (h : c.batch = none) : c.Covered := by
  intro v hv
  rw [h] at hv
  exact absurd hv (by simp)

theorem unsuperseded_of_batch (h : c.batch = none) : c.Unsuperseded := by
  intro v hv
  rw [h] at hv
  exact absurd hv (by simp)

/-- Neither queued nor in a batch, the newest version is the one in the store. -/
theorem stored_of_newest (h : c.newest = some v) (hq : c.queued = none) (hb : c.batch = none) :
    c.stored = some v := by
  unfold newest at h
  rwa [hq, hb, Option.none_or, Option.none_or] at h

end Copies

end Lib
