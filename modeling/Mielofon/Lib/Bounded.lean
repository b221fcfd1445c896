import Mathlib.Data.List.DropRight

namespace Lib

/-!
# Bounded queues

A queue that is pushed at its back and loses at its front what it has no room for.

* `popFront` — the loop that makes room;
* `popFront_eq` — what is left are the newest elements;
* `popFront_push` — the newest elements, one pushed, are again the newest.
-/

variable {α : Type*}

/-- While there are more than `size` elements, drop the front one. -/
def popFront (size : ℕ) : List α → List α
  | [] => []
  | a :: l => if size < l.length + 1 then popFront size l else a :: l

theorem popFront_eq (size : ℕ) (l : List α) : popFront size l = l.rtake size := by
  induction l with
  | nil => rw [popFront, List.rtake_nil]
  | cons a l ih =>
    rw [popFront, List.rtake, List.length_cons]
    split
    · have hlen : l.length + 1 - size = l.length - size + 1 := by omega
      rw [ih, List.rtake, hlen, List.drop_succ_cons]
    · rename_i hshort
      rw [Nat.sub_eq_zero_of_le (not_lt.mp hshort), List.drop_zero]

theorem length_rtake (size : ℕ) (l : List α) : (l.rtake size).length = min size l.length := by
  rw [List.rtake, List.length_drop]
  omega

/-- A queue of the newest `size` elements stays one when another is pushed. -/
theorem popFront_push (size : ℕ) (l : List α) (a : α) :
    popFront size (l.rtake size ++ [a]) = (l ++ [a]).rtake size := by
  rw [popFront_eq]
  cases size with
  | zero => rw [List.rtake_zero, List.rtake_zero]
  | succ n =>
    -- what the front loses is lost of the longer list too
    have htwice : (l.rtake (n + 1)).rtake n = l.rtake n := by
      rw [List.rtake_eq_reverse_take_reverse, List.rtake_eq_reverse_take_reverse,
        List.rtake_eq_reverse_take_reverse, List.reverse_reverse, List.take_take,
        min_eq_left (Nat.le_succ n)]
    rw [List.rtake_concat_succ, List.rtake_concat_succ, htwice]

end Lib
