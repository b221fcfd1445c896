import Mathlib.Data.Finset.Max
import Mathlib.Data.Finset.Card
import Mathlib.Order.Interval.Finset.Defs

namespace Lib

/-!
# The newest elements of a finite set

A bounded store that evicts its oldest element keeps the `n` greatest elements it was given.
`newest n U` is that set: the elements of `U` with fewer than `n` greater ones.

* `card_newest` — it has `n` elements, or all of them when there are fewer;
* `newest_union` — only the newest elements of what came before matter to what is kept
  later, so a store that evicts as it goes keeps the same as one that evicts at the end.
-/

variable {α : Type*} [LinearOrder α] {n : ℕ} {U V W : Finset α} {x y : α}

/-- How many elements of `U` are greater than `x`. -/
def countAbove (U : Finset α) (x : α) : ℕ := (U.filter (x < ·)).card

/-- The `n` greatest elements of `U`. -/
def newest (n : ℕ) (U : Finset α) : Finset α := U.filter (fun x => countAbove U x < n)

theorem mem_newest : x ∈ newest n U ↔ x ∈ U ∧ countAbove U x < n := Finset.mem_filter

theorem newest_subset (n : ℕ) (U : Finset α) : newest n U ⊆ U := Finset.filter_subset _ _

theorem countAbove_mono (h : U ⊆ V) (x : α) : countAbove U x ≤ countAbove V x :=
  Finset.card_le_card (Finset.filter_subset_filter _ h)

/-- A greater element has fewer elements above it. -/
theorem countAbove_anti (U : Finset α) (h : x ≤ y) : countAbove U y ≤ countAbove U x :=
  Finset.card_le_card (fun _ hz => Finset.mem_filter.mpr
    ⟨(Finset.mem_filter.mp hz).1, lt_of_le_of_lt h (Finset.mem_filter.mp hz).2⟩)

theorem countAbove_congr (h : ∀ y, x < y → (y ∈ U ↔ y ∈ V)) : countAbove U x = countAbove V x := by
  refine congrArg Finset.card (Finset.ext (fun y => ?_))
  simp only [Finset.mem_filter]
  exact ⟨fun ⟨hy, hxy⟩ => ⟨(h y hxy).mp hy, hxy⟩, fun ⟨hy, hxy⟩ => ⟨(h y hxy).mpr hy, hxy⟩⟩

theorem countAbove_lt_card (hx : x ∈ U) : countAbove U x < U.card :=
  Finset.card_lt_card ⟨Finset.filter_subset _ _, fun hsub =>
    absurd (Finset.mem_filter.mp (hsub hx)).2 (lt_irrefl x)⟩

/-- A set that fits is kept whole. -/
theorem newest_of_card_le (h : U.card ≤ n) : newest n U = U :=
  Finset.filter_true_of_mem (fun _ hx => lt_of_lt_of_le (countAbove_lt_card hx) h)

/-- The newest elements are closed upwards. -/
theorem mem_newest_of_le (hx : x ∈ newest n U) (hy : y ∈ U) (h : x ≤ y) : y ∈ newest n U :=
  mem_newest.mpr ⟨hy, lt_of_le_of_lt (countAbove_anti U h) (mem_newest.mp hx).2⟩

/-- `newest n U` has `n` elements, or all of `U` when there are fewer: by adding the elements
    in descending order, so that each new one has all the others above it. -/
theorem card_newest (n : ℕ) (U : Finset α) : (newest n U).card = min n U.card := by
  induction U using Finset.induction_on_min with
  | empty => simp [newest]
  | insert a U ha ih =>
    have hnot : a ∉ U := fun h => absurd (ha a h) (lt_irrefl a)
    have hcount : ∀ x ∈ U, countAbove (insert a U) x = countAbove U x := fun x hx =>
      countAbove_congr (fun y hxy => by
        rw [Finset.mem_insert]
        exact ⟨fun h => h.resolve_left (fun he => absurd (lt_trans (ha x hx) hxy)
          (by rw [he]; exact lt_irrefl a)), Or.inr⟩)
    have hself : countAbove (insert a U) a = U.card := by
      refine congrArg Finset.card (Finset.ext (fun y => ?_))
      rw [Finset.mem_filter, Finset.mem_insert]
      exact ⟨fun ⟨h, hay⟩ => h.resolve_left (fun he => absurd hay (by rw [he]; exact lt_irrefl a)),
        fun hy => ⟨Or.inr hy, ha y hy⟩⟩
    have hrest : U.filter (fun x => countAbove (insert a U) x < n) = newest n U :=
      Finset.filter_congr (fun x hx => by rw [hcount x hx])
    rw [newest, Finset.filter_insert, hrest, hself, Finset.card_insert_of_notMem hnot]
    split
    · rename_i hlt
      rw [Finset.card_insert_of_notMem (fun h => hnot (newest_subset n U h)), ih]
      omega
    · rename_i hge
      rw [ih]
      omega

/-- When more than `n` elements lie above `x`, so do `n` of the newest. -/
theorem le_countAbove_newest (h : n ≤ countAbove U x) : n ≤ countAbove (newest n U) x := by
  -- the newest of the elements above `x` are among the newest of all
  have hsub : newest n (U.filter (x < ·)) ⊆ (newest n U).filter (x < ·) := by
    intro y hy
    obtain ⟨hyU, hcount⟩ := mem_newest.mp hy
    obtain ⟨hyU, hxy⟩ := Finset.mem_filter.mp hyU
    have heq : countAbove (U.filter (x < ·)) y = countAbove U y := countAbove_congr (fun z hyz => by
      rw [Finset.mem_filter]
      exact ⟨fun hz => hz.1, fun hz => ⟨hz, lt_trans hxy hyz⟩⟩)
    exact Finset.mem_filter.mpr ⟨mem_newest.mpr ⟨hyU, heq ▸ hcount⟩, hxy⟩
  calc n = min n (U.filter (x < ·)).card := (min_eq_left h).symm
    _ = (newest n (U.filter (x < ·))).card := (card_newest n _).symm
    _ ≤ countAbove (newest n U) x := Finset.card_le_card hsub

/-- Whether fewer than `n` elements lie above `x` can be told from the newest ones. -/
theorem countAbove_newest_union_lt_iff :
    countAbove (newest n U ∪ W) x < n ↔ countAbove (U ∪ W) x < n := by
  constructor
  · intro h
    by_cases hU : countAbove U x < n
    · -- above `x` the newest of `U` are all of `U`
      have heq : countAbove (newest n U ∪ W) x = countAbove (U ∪ W) x :=
        countAbove_congr (fun y hxy => by
          rw [Finset.mem_union, Finset.mem_union]
          refine or_congr_left ⟨fun hy => newest_subset n U hy, fun hy => ?_⟩
          exact mem_newest.mpr ⟨hy, lt_of_le_of_lt (countAbove_anti U hxy.le) hU⟩)
      exact heq ▸ h
    · have hV := le_countAbove_newest (not_lt.mp hU)
      have hsub : newest n U ⊆ newest n U ∪ W := Finset.subset_union_left
      have hle := countAbove_mono hsub x
      omega
  · exact lt_of_le_of_lt (countAbove_mono
      (Finset.union_subset_union_left (newest_subset n U)) x)

/-- **Evicting early changes nothing.** What is kept of `U ∪ W` depends on `U` only through
    its newest elements. -/
theorem newest_union (n : ℕ) (U W : Finset α) :
    newest n (newest n U ∪ W) = newest n (U ∪ W) := by
  ext x
  rw [mem_newest, mem_newest, countAbove_newest_union_lt_iff, Finset.mem_union, Finset.mem_union]
  refine and_congr_left (fun hx => or_congr_left ⟨fun h => newest_subset n U h, fun h => ?_⟩)
  exact mem_newest.mpr ⟨h, lt_of_le_of_lt (countAbove_mono Finset.subset_union_left x) hx⟩

/-- Elements with `n` greater ones do not matter. -/
theorem newest_union_of_le_countAbove (h : ∀ z ∈ W, n ≤ countAbove U z) :
    newest n (U ∪ W) = newest n U := by
  ext y
  rw [mem_newest, mem_newest, Finset.mem_union]
  constructor
  · rintro ⟨hy, hcount⟩
    have hU : countAbove U y < n :=
      lt_of_le_of_lt (countAbove_mono Finset.subset_union_left y) hcount
    refine ⟨hy.resolve_right (fun hyW => ?_), hU⟩
    have := h y hyW
    omega
  · rintro ⟨hy, hcount⟩
    -- every element of `W` lies below `y`, so `W` adds nothing above `y`
    have heq : countAbove (U ∪ W) y = countAbove U y := countAbove_congr (fun z hyz => by
      rw [Finset.mem_union]
      refine ⟨fun hz => hz.resolve_right (fun hzW => ?_), Or.inl⟩
      have := h z hzW
      have := countAbove_anti U hyz.le
      omega)
    exact ⟨Or.inl hy, heq ▸ hcount⟩

/-- The same for one element. -/
theorem newest_insert_of_le_countAbove (h : n ≤ countAbove U x) :
    newest n (insert x U) = newest n U := by
  rw [Finset.insert_eq, Finset.union_comm]
  exact newest_union_of_le_countAbove (fun z hz => Finset.mem_singleton.mp hz ▸ h)

end Lib
