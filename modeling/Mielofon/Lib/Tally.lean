import Mathlib.Data.List.Count
import Mathlib.Logic.Function.Basic

namespace Lib

/-!
# Counters that count tasks

A program counts what its tasks do, each counter at one place of the code.  A counter is right when
it has the number of the tasks that have come past its place.

* `inc` — one counter goes up;
* `Tallies` — every counter has the number of the tasks it counts, above a base;
* `Tallies.push`, `Tallies.set` — a new task, and a step of one.
-/

variable {κ τ : Type*} {counts : κ → τ → Bool} {base c c' : κ → ℕ} {tasks : List τ}

/-- Count one more under `k`. -/
def inc [DecidableEq κ] (c : κ → ℕ) (k : κ) : κ → ℕ := Function.update c k (c k + 1)

@[simp] theorem inc_apply [DecidableEq κ] (c : κ → ℕ) (k j : κ) :
    inc c k j = c j + if j = k then 1 else 0 := by
  unfold inc
  by_cases h : j = k
  · subst h
    simp
  · simp [h]

/-- Each counter has the number of the tasks it counts. -/
def Tallies (counts : κ → τ → Bool) (base c : κ → ℕ) (tasks : List τ) : Prop :=
  ∀ k, c k = base k + tasks.countP (counts k)

theorem Tallies.push (h : Tallies counts base c tasks) {t : τ}
    (hc : ∀ k, c' k = c k + if counts k t then 1 else 0) :
    Tallies counts base c' (tasks ++ [t]) := by
  intro k
  rw [hc k, h k, List.countP_append, List.countP_singleton, Nat.add_assoc]

theorem Tallies.set (h : Tallies counts base c tasks) {i : ℕ} {t t' : τ} (ht : tasks[i]? = some t)
    (hc : ∀ k, c' k + (if counts k t then 1 else 0) = c k + if counts k t' then 1 else 0) :
    Tallies counts base c' (tasks.set i t') := by
  intro k
  obtain ⟨hi, rfl⟩ := List.getElem?_eq_some_iff.1 ht
  have hle := List.boole_getElem_le_countP (p := counts k) hi
  have hck := hc k
  rw [h k] at hck
  rw [List.countP_set hi]
  omega

end Lib
