import Mathlib.Data.List.Count

namespace Lib

/-!
# Values made of finitely many

Replicas that exchange values and keep the join of what they have got can only ever hold joins of
the values they began with.  Each of these that a replica comes to cover is covered for good, so
only finitely many exchanges change anything.

* `MadeOf r E v` — `v` is above some of `E`, and below whatever is above those;
* `MadeOf.join` — a join of two such values;
* `MadeOf.exists_new` — such a value that is not below `w` is above some of `E` that is not;
* `uncovered` — how many of `E` are not covered, and `uncovered_lt` — one less of them.
-/

variable {α : Type*} {r : α → α → Prop} {E : List α} {v w : α}

/-- `v` is made of the elements of `E` below it. -/
def MadeOf (r : α → α → Prop) (E : List α) (v : α) : Prop :=
  (∃ e ∈ E, r e v) ∧ ∀ w, (∀ e ∈ E, r e v → r e w) → r v w

theorem MadeOf.of_mem (hrefl : ∀ a, r a a) (h : v ∈ E) : MadeOf r E v :=
  ⟨⟨v, h, hrefl v⟩, fun _ hw => hw v h (hrefl v)⟩

/-- The least value above two values made of `E`. -/
theorem MadeOf.join {a b : α} (htrans : ∀ a b c, r a b → r b c → r a c) (ha : MadeOf r E a)
    (hb : MadeOf r E b) (hav : r a v) (hbv : r b v) (hleast : ∀ w, r a w → r b w → r v w) :
    MadeOf r E v := by
  obtain ⟨e, he, hea⟩ := ha.1
  refine ⟨⟨e, he, htrans e a v hea hav⟩, fun w hw => hleast w ?_ ?_⟩
  · exact ha.2 w fun e he hea => hw e he (htrans e a v hea hav)
  · exact hb.2 w fun e he heb => hw e he (htrans e b v heb hbv)

theorem MadeOf.exists_new (h : MadeOf r E v) (hnot : ¬ r v w) : ∃ e ∈ E, r e v ∧ ¬ r e w := by
  by_contra hall
  refine hnot (h.2 w fun e he hev => ?_)
  by_contra hew
  exact hall ⟨e, he, hev, hew⟩

/-! ### Counting -/

/-- How many elements of `E` are not covered. -/
def uncovered (covered : α → Bool) (E : List α) : ℕ := E.countP (fun e => !covered e)

variable {covered covered' : α → Bool}

theorem uncovered_le (h : ∀ e ∈ E, covered e → covered' e) :
    uncovered covered' E ≤ uncovered covered E := by
  apply List.countP_mono_left
  intro e he hnot
  by_contra hcov
  have hcov : covered e = true := by simpa using hcov
  rw [h e he hcov] at hnot
  exact absurd hnot (by decide)

/-- What covers one more element leaves fewer uncovered. -/
theorem uncovered_lt (h : ∀ e ∈ E, covered e → covered' e) {e : α} (he : e ∈ E)
    (hnot : covered e = false) (hnew : covered' e = true) :
    uncovered covered' E < uncovered covered E := by
  obtain ⟨before, after, rfl⟩ := List.append_of_mem he
  have hbefore := uncovered_le (E := before) fun x hx => h x (List.mem_append_left _ hx)
  have hafter := uncovered_le (E := after) fun x hx =>
    h x (List.mem_append_right _ (List.mem_cons_of_mem _ hx))
  unfold uncovered at hbefore hafter ⊢
  rw [List.countP_append, List.countP_append, List.countP_cons, List.countP_cons, hnot, hnew]
  simp only [Bool.not_true, Bool.not_false, if_true]
  simp only [Bool.false_eq_true, if_false]
  omega

end Lib
