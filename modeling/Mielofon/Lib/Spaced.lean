import Mathlib.Data.Finset.Card
import Mathlib.Order.Interval.Finset.Nat

namespace Lib

/-!
# Spaced sets of numbers

What happens at most once in every `d` units of time happens at numbers that are `d` apart.

* `Spaced d X` — the elements of `X` are pairwise at least `d` apart;
* `Spaced.card_le` — there are at most `n / d + 1` of them in an interval of length `n`;
* `spaced_of_dvd` — the multiples of `d` are spaced.
-/

variable {d n s : ℕ} {X Y : Finset ℕ}

/-- The elements are pairwise at least `d` apart. -/
def Spaced (d : ℕ) (X : Finset ℕ) : Prop := ∀ x ∈ X, ∀ y ∈ X, x < y → x + d ≤ y

theorem Spaced.mono (h : Spaced d X) (hsub : Y ⊆ X) : Spaced d Y :=
  fun x hx y hy => h x (hsub hx) y (hsub hy)

theorem spaced_of_dvd (h : ∀ x ∈ X, d ∣ x) : Spaced d X := by
  intro x hx y hy hlt
  obtain ⟨i, rfl⟩ := h x hx
  obtain ⟨j, rfl⟩ := h y hy
  have hij : i + 1 ≤ j := Nat.lt_of_mul_lt_mul_left hlt
  calc d * i + d = d * (i + 1) := (Nat.mul_succ d i).symm
    _ ≤ d * j := Nat.mul_le_mul_left d hij

/-- A further element that is far enough from the others. -/
theorem Spaced.insert (h : Spaced d X) {y : ℕ} (hfar : ∀ x ∈ X, x + d ≤ y ∨ y + d ≤ x) :
    Spaced d (Insert.insert y X) := by
  intro a ha b hb hlt
  rcases Finset.mem_insert.mp ha with hay | haX
  · rcases Finset.mem_insert.mp hb with hby | hbX
    · omega
    · have := hfar b hbX
      omega
  · rcases Finset.mem_insert.mp hb with hby | hbX
    · have := hfar a haX
      omega
    · exact h a haX b hbX hlt

/-- **Counting.** The elements fall into different parts of length `d`. -/
theorem Spaced.card_le (h : Spaced d X) (hd : 0 < d) (hwin : ∀ x ∈ X, s ≤ x ∧ x ≤ s + n) :
    X.card ≤ n / d + 1 := by
  have hmaps : Set.MapsTo (fun x => (x - s) / d) X (Finset.range (n / d + 1)) := by
    intro x hx
    have hle : (x - s) / d ≤ n / d := Nat.div_le_div_right (by have := hwin x hx; omega)
    exact Finset.mem_coe.mpr (Finset.mem_range.mpr (Nat.lt_succ_of_le hle))
  have hinj : Set.InjOn (fun x => (x - s) / d) (X : Set ℕ) := by
    -- two in one part would be closer than `d`
    have hlt : ∀ x ∈ X, ∀ y ∈ X, (x - s) / d = (y - s) / d → ¬ x < y := by
      intro x hx y hy heq hxy
      have hapart := h x hx y hy hxy
      have hstart := (hwin x hx).1
      have hstep : (x - s) / d + 1 ≤ (y - s) / d := by
        rw [← Nat.add_div_right _ hd]
        exact Nat.div_le_div_right (by omega)
      omega
    intro x hx y hy heq
    have hxy := hlt x hx y hy heq
    have hyx := hlt y hy x hx heq.symm
    omega
  calc X.card ≤ (Finset.range (n / d + 1)).card := Finset.card_le_card_of_injOn _ hmaps hinj
    _ = n / d + 1 := Finset.card_range _

end Lib
