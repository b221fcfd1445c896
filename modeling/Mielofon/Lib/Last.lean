import Mathlib.Data.List.Basic

namespace Lib

/-!
# The last element of a list that meets a condition

A log or a queue keeps every version of a record; what counts is the last one of its key.

* `lastSuch p l` — the last element of `l` that meets `p`;
* `lastSuch_append`, `lastSuch_concat`, `lastSuch_middle` — how it reads off the parts of a list;
* `lastSuch_replace` — replacing one element.
-/

variable {α : Type*} {p : α → Bool} {a : α} {l l' : List α}

/-- The last element of `l` that meets `p`. -/
def lastSuch (p : α → Bool) (l : List α) : Option α := (l.filter p).getLast?

@[simp] theorem lastSuch_nil : lastSuch p [] = none := rfl

/-- The second part of a list has the say, if it has an element that meets `p`. -/
theorem lastSuch_append (l l' : List α) :
    lastSuch p (l ++ l') = (lastSuch p l').or (lastSuch p l) := by
  unfold lastSuch
  rw [List.filter_append, List.getLast?_append]

theorem lastSuch_concat (l : List α) (a : α) :
    lastSuch p (l ++ [a]) = if p a then some a else lastSuch p l := by
  rw [lastSuch_append]
  cases h : p a <;> simp [lastSuch, h]

/-- Around an element in the middle of a list. -/
theorem lastSuch_middle (l l' : List α) (a : α) :
    lastSuch p (l ++ a :: l') = (lastSuch p l').or (if p a then some a else lastSuch p l) := by
  rw [show l ++ a :: l' = (l ++ [a]) ++ l' by simp, lastSuch_append, lastSuch_concat]

/-- Replacing an element by one that meets `p` if it did replaces it as the last one, if it was. -/
theorem lastSuch_replace (l l' : List α) {a a' : α} (h : p a' = p a) :
    lastSuch p (l ++ a' :: l') = lastSuch p (l ++ a :: l') ∨
      lastSuch p (l ++ a :: l') = some a ∧ lastSuch p (l ++ a' :: l') = some a' := by
  rw [lastSuch_middle, lastSuch_middle, h]
  cases hl' : lastSuch p l' with
  | some x => exact Or.inl rfl
  | none =>
    by_cases ha : p a
    · exact Or.inr (by simp [ha])
    · exact Or.inl (by simp [ha])

theorem mem_of_lastSuch (h : lastSuch p l = some a) : a ∈ l ∧ p a :=
  List.mem_filter.mp (List.mem_of_getLast? h)

theorem lastSuch_eq_none_iff : lastSuch p l = none ↔ ∀ a ∈ l, ¬ p a := by
  unfold lastSuch
  rw [List.getLast?_eq_none_iff, List.filter_eq_nil_iff]

end Lib
