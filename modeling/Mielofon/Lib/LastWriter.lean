import Mathlib.Data.List.Induction
import Mathlib.Data.Nat.Basic

namespace Lib

/-!
# Last-writer-wins registers

A register keeps the arrival with the newest timestamp; of two with the same timestamp, the
one that arrived later.  What it holds after a list of arrivals is a newest one of the list, so
arrivals in any order and number converge exactly when there is only one newest.

* `write`, `register` — one arrival, and a list of them;
* `Newest` — an arrival that no other one is newer than;
* `newest_register`, `register_concat` — a register holds a newest arrival, and each can be it;
* `register_converges_iff` — when the order of arrival does not matter;
* `writeFrom` — what one register holds reaches another; `writeFrom_writeFrom` — there and back.
-/

variable {α : Type*} {stamp : α → ℕ} {l : List α} {a b : α} {held : Option α}

/-- One arrival: kept when it is at least as new as what is held. -/
def write (stamp : α → ℕ) (held : Option α) (a : α) : Option α :=
  if (held.map stamp).getD 0 ≤ stamp a then some a else held

/-- What a register holds after a list of arrivals. -/
def register (stamp : α → ℕ) (l : List α) : Option α := l.foldl (write stamp) none

/-- No arrival of the list is newer. -/
def Newest (stamp : α → ℕ) (l : List α) (a : α) : Prop := a ∈ l ∧ ∀ b ∈ l, stamp b ≤ stamp a

theorem Newest.congr {l' : List α} (h : ∀ x, x ∈ l ↔ x ∈ l') (ha : Newest stamp l a) :
    Newest stamp l' a :=
  ⟨(h a).mp ha.1, fun b hb => ha.2 b ((h b).mpr hb)⟩

theorem write_none (a : α) : write stamp none a = some a := if_pos (Nat.zero_le _)

theorem register_concat (l : List α) (a : α) :
    register stamp (l ++ [a]) = write stamp (register stamp l) a := by
  unfold register
  rw [List.foldl_append]
  rfl

/-- A register that saw an arrival holds one. -/
theorem register_isSome (stamp : α → ℕ) (h : a ∈ l) : (register stamp l).isSome := by
  induction l using List.reverseRecOn with
  | nil => exact absurd h List.not_mem_nil
  | append_singleton l b ih =>
    rw [register_concat]
    rcases List.mem_append.mp h with h | h
    · unfold write
      split
      · rfl
      · exact ih h
    · cases hl : register stamp l with
      | none => rw [write_none]; rfl
      | some x => unfold write; split <;> rfl

/-- **A register holds a newest arrival.** -/
theorem newest_register (h : register stamp l = some a) : Newest stamp l a := by
  induction l using List.reverseRecOn generalizing a with
  | nil => exact absurd h (by simp [register])
  | append_singleton l b ih =>
    rw [register_concat] at h
    cases hl : register stamp l with
    | none =>
      -- nothing arrived before
      rw [hl, write_none] at h
      obtain rfl := Option.some.inj h
      have hnil : ∀ x, x ∉ l := fun x hx => by
        have hsome := register_isSome stamp hx
        rw [hl] at hsome
        exact absurd hsome (by simp)
      refine ⟨List.mem_append_right _ (List.mem_singleton_self _), fun x hx => ?_⟩
      rcases List.mem_append.mp hx with hx | hx
      · exact absurd hx (hnil x)
      · exact (List.mem_singleton.mp hx ▸ le_refl _)
    | some held =>
      obtain ⟨hmem, hmax⟩ := ih hl
      rw [hl] at h
      unfold write at h
      split at h
      · rename_i hle
        obtain rfl := Option.some.inj h
        refine ⟨List.mem_append_right _ (List.mem_singleton_self _), fun x hx => ?_⟩
        rcases List.mem_append.mp hx with hx | hx
        · exact le_trans (hmax x hx) hle
        · exact (List.mem_singleton.mp hx ▸ le_refl _)
      · rename_i hlt
        obtain rfl := Option.some.inj h
        refine ⟨List.mem_append_left _ hmem, fun x hx => ?_⟩
        rcases List.mem_append.mp hx with hx | hx
        · exact hmax x hx
        · obtain rfl := List.mem_singleton.mp hx
          exact le_of_lt (not_le.mp hlt)

/-- Each newest arrival can be the one held: it arrives once more, last. -/
theorem register_of_newest (h : Newest stamp l a) : register stamp (l ++ [a]) = some a := by
  rw [register_concat]
  refine if_pos ?_
  cases hl : register stamp l with
  | none => exact Nat.zero_le _
  | some x => exact h.2 x (newest_register hl).1

/-- **When the order of arrival does not matter.** Every two lists of the same arrivals, in any
    order and number, leave the same in a register if and only if one arrival only is newest. -/
theorem register_converges_iff (l : List α) :
    (∀ l₁ l₂ : List α, (∀ x, x ∈ l₁ ↔ x ∈ l) → (∀ x, x ∈ l₂ ↔ x ∈ l) →
      register stamp l₁ = register stamp l₂) ↔
      ∀ a b, Newest stamp l a → Newest stamp l b → a = b := by
  constructor
  · intro hall a b ha hb
    have hadd : ∀ x, Newest stamp l x → ∀ y, y ∈ l ++ [x] ↔ y ∈ l := fun x hx y => by
      rw [List.mem_append, List.mem_singleton]
      exact ⟨fun h => h.elim id (fun h => h ▸ hx.1), Or.inl⟩
    have hsame := hall (l ++ [a]) (l ++ [b]) (hadd a ha) (hadd b hb)
    rw [register_of_newest ha, register_of_newest hb] at hsame
    exact Option.some.inj hsame
  · intro hone l₁ l₂ h₁ h₂
    cases hr₁ : register stamp l₁ with
    | none =>
      cases hr₂ : register stamp l₂ with
      | none => rfl
      | some b =>
        have hsome := register_isSome stamp ((h₁ b).mpr ((h₂ b).mp (newest_register hr₂).1))
        rw [hr₁] at hsome
        exact absurd hsome (by simp)
    | some a =>
      have ha := (newest_register hr₁).congr h₁
      have hsome := register_isSome stamp ((h₂ a).mpr ha.1)
      obtain ⟨b, hr₂⟩ := Option.isSome_iff_exists.mp hsome
      rw [hr₂, hone a b ha ((newest_register hr₂).congr h₂)]

/-! ### From one register to another -/

/-- What a register holds once the content of another one arrived. -/
def writeFrom (stamp : α → ℕ) (held other : Option α) : Option α := other.elim held (write stamp held)

variable {other : Option α}

/-- **There and back.** A register that gets back what it sent to another one ends with what the
    other holds, also where both held arrivals of one timestamp. -/
theorem writeFrom_writeFrom (held other : Option α) :
    writeFrom stamp held (writeFrom stamp other held) = writeFrom stamp other held := by
  cases held with
  | none =>
    cases other with
    | none => rfl
    | some b =>
      show write stamp none b = some b
      exact write_none b
  | some a =>
    show writeFrom stamp (some a) (write stamp other a) = write stamp other a
    unfold write
    split
    · exact if_pos (le_refl _)
    · -- the other one holds a newer arrival and answers with it
      rename_i hlt
      cases other with
      | none => exact absurd (Nat.zero_le _) hlt
      | some b => exact if_pos (le_of_lt (not_le.mp hlt))

theorem isSome_writeFrom : (writeFrom stamp held other).isSome ↔ held.isSome ∨ other.isSome := by
  cases other with
  | none => simp [writeFrom]
  | some b =>
    show (write stamp held b).isSome ↔ _
    unfold write
    split
    · simp
    · cases held <;> simp_all

/-- The newer of the two timestamps stays. -/
theorem stamp_writeFrom (h : writeFrom stamp held other = some a) :
    stamp a = max ((held.map stamp).getD 0) ((other.map stamp).getD 0) := by
  cases other with
  | none =>
    obtain rfl : held = some a := h
    exact (max_eq_left (Nat.zero_le _)).symm
  | some b =>
    change write stamp held b = some a at h
    show stamp a = max ((held.map stamp).getD 0) (stamp b)
    unfold write at h
    split at h
    · rename_i hle
      obtain rfl := Option.some.inj h
      exact (max_eq_right hle).symm
    · rename_i hlt
      obtain rfl := h
      exact (max_eq_left (le_of_lt (not_le.mp hlt))).symm

end Lib
