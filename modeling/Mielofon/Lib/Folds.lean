import Mathlib.Data.List.DropRight
import Mathlib.Data.List.Nodup
import Mathlib.Order.MinMax

namespace Lib

/-!
# Folds over keyed elements

A loop over keyed elements that updates, for each, the part of the state under its key.  What the
loop does to the part under one key is what the step of that key does.

* `foldl_rel` — what every step does, the loop does, for a reflexive and transitive relation;
* `foldl_eq_self` — a loop over elements that all leave the state alone;
* `foldl_frame` — without an element of the key, the part is unchanged;
* `foldl_at` — with one such element, the part is what its step makes of it;
* `foldl_max_le_iff` — the greatest value among those that count, by its upper bounds;
* `remember`, `foldl_remember` — a memory that every failure erases.
-/

variable {σ α κ β : Type*} {f : σ → α → σ} {k : κ} {l : List α}

/-- A relation that every step keeps relates the states before and after the loop. -/
theorem foldl_rel {R : σ → σ → Prop} (hrefl : ∀ s, R s s)
    (htrans : ∀ s t u, R s t → R t u → R s u) (hstep : ∀ s a, R s (f s a)) (l : List α) (s : σ) :
    R s (l.foldl f s) := by
  induction l generalizing s with
  | nil => exact hrefl s
  | cons a l ih => exact htrans _ _ _ (hstep s a) (ih (f s a))

theorem foldl_eq_self {s : σ} (h : ∀ a ∈ l, f s a = s) : l.foldl f s = s := by
  induction l with
  | nil => rfl
  | cons a l ih =>
    rw [List.foldl_cons, h a List.mem_cons_self]
    exact ih (fun b hb => h b (List.mem_cons_of_mem _ hb))

theorem foldl_frame (key : α → κ) (obs : σ → β)
    (hframe : ∀ s a, key a ≠ k → obs (f s a) = obs s) (h : ∀ a ∈ l, key a ≠ k) (s : σ) :
    obs (l.foldl f s) = obs s := by
  induction l generalizing s with
  | nil => rfl
  | cons a l ih =>
    rw [List.foldl_cons, ih (fun b hb => h b (List.mem_cons_of_mem _ hb)),
      hframe s a (h a List.mem_cons_self)]

theorem foldl_at (key : α → κ) (obs : σ → β)
    (hframe : ∀ s a, key a ≠ k → obs (f s a) = obs s) (hnd : (l.map key).Nodup)
    {a : α} (ha : a ∈ l) (hk : key a = k) (s : σ) :
    ∃ s', obs s' = obs s ∧ obs (l.foldl f s) = obs (f s' a) := by
  induction l generalizing s with
  | nil => exact absurd ha List.not_mem_nil
  | cons b l ih =>
    rw [List.map_cons, List.nodup_cons] at hnd
    rcases List.mem_cons.mp ha with rfl | ha
    · -- the keys behind it are other ones
      refine ⟨s, rfl, ?_⟩
      rw [List.foldl_cons]
      refine foldl_frame key obs hframe (fun b hb heq => hnd.1 ?_) (f s a)
      exact hk ▸ heq ▸ List.mem_map_of_mem hb
    · have hb : key b ≠ k := fun heq => hnd.1 (heq.trans hk.symm ▸ List.mem_map_of_mem ha)
      obtain ⟨s', hs', hfold⟩ := ih hnd.2 ha (f s b)
      exact ⟨s', hs'.trans (hframe s b hb), hfold⟩

/-- The bounds of the greatest value among the elements that count. -/
theorem foldl_max_le_iff [LinearOrder β] (counts : α → Bool) (val : α → β) (l : List α) (m b : β) :
    l.foldl (fun m a => if counts a then max m (val a) else m) m ≤ b ↔
      m ≤ b ∧ ∀ a ∈ l, counts a → val a ≤ b := by
  induction l generalizing m with
  | nil => simp
  | cons a l ih =>
    rw [List.foldl_cons, ih, List.forall_mem_cons]
    by_cases ha : counts a
    · simp only [ha, if_true, max_le_iff, and_assoc, forall_const]
    · simp only [ha, if_false, Bool.false_eq_true, false_implies, true_and]

/-! ### A memory that failures erase -/

section Remember

/-- Keep what is remembered, or learn it; a failure erases it. -/
def remember (ok : α → Bool) (learn : α → Option β) (m : Option β) (a : α) : Option β :=
  if ok a then m.or (learn a) else none

/-- Without a failure what was remembered is kept; else it is the first thing learnt since the last
    failure. -/
theorem foldl_remember (ok : α → Bool) (learn : α → Option β) (l : List α) (m : Option β) :
    l.foldl (remember ok learn) m =
      (if l.all ok then m else none).or ((l.rtakeWhile ok).findSome? learn) := by
  induction l using List.reverseRecOn with
  | nil => simp
  | append_singleton l a ih =>
    rw [List.foldl_concat, remember, ih, List.rtakeWhile_concat]
    by_cases hok : ok a
    · rw [if_pos hok, if_pos hok, List.findSome?_append, Option.or_assoc]
      simp [hok]
    · simp [hok]

end Remember

end Lib
