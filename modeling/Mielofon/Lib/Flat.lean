import Mathlib.Order.Basic

namespace Lib.Flat

/-!
# Optional values ordered by information

A value that may be missing carries no information while it is missing and nothing above it
once it is there.  Taking the newer of two optional values, `q.or p`, is the join of this flat
order as long as the two do not state different values.

* `Le p q` — what `p` states, `q` states;
* `Agree p q` — `p` and `q` do not state different values;
* `or_eq_right_iff` — the newer value adds nothing exactly when it is below;
* `le_or_left`, `or_of_agree` — the newer value is kept, and so is the older one unless the
  newer one contradicts it.
-/

variable {α : Type*} {p q r : Option α}

/-- What `p` states, `q` states. -/
def Le (p q : Option α) : Prop := ∀ x, p = some x → q = some x

/-- `p` and `q` do not state different values. -/
def Agree (p q : Option α) : Prop := ∀ x y, p = some x → q = some y → x = y

instance [DecidableEq α] (p q : Option α) : Decidable (Le p q) :=
  match p with
  | none => .isTrue (fun _ h => absurd h (by simp))
  | some x => decidable_of_iff (q = some x)
      ⟨fun h _ hy => Option.some.inj hy ▸ h, fun h => h x rfl⟩

instance [DecidableEq α] (p q : Option α) : Decidable (Agree p q) :=
  match p, q with
  | none, _ => .isTrue (fun _ _ h => absurd h (by simp))
  | some _, none => .isTrue (fun _ _ _ h => absurd h (by simp))
  | some x, some y => decidable_of_iff (x = y)
      ⟨fun h _ _ hx hy => Option.some.inj hx ▸ Option.some.inj hy ▸ h, fun h => h x y rfl rfl⟩

theorem Le.refl (p : Option α) : Le p p := fun _ h => h

theorem Le.trans (h : Le p q) (h' : Le q r) : Le p r := fun x hx => h' x (h x hx)

theorem Le.antisymm (h : Le p q) (h' : Le q p) : p = q := Option.ext (fun x => ⟨h x, h' x⟩)

theorem Agree.symm (h : Agree p q) : Agree q p := fun x y hx hy => (h y x hy hx).symm

/-- Values below one value agree. -/
theorem Le.agree (h : Le p r) (h' : Le q r) : Agree p q := fun x y hx hy =>
  Option.some.inj ((h x hx).symm.trans (h' y hy))

/-- The newer of two values adds nothing exactly when the older one states it already. -/
theorem or_eq_right_iff : q.or p = p ↔ Le q p := by
  cases q with
  | none => exact ⟨fun _ x h => absurd h (by simp), fun _ => rfl⟩
  | some x =>
    rw [Option.some_or]
    exact ⟨fun h y hy => (Option.some.inj hy) ▸ h.symm, fun h => (h x rfl).symm⟩

/-- The newer value is kept. -/
theorem le_or_left : Le q (q.or p) := fun x h => by rw [h, Option.some_or]

/-- The older value is kept unless the newer one contradicts it. -/
theorem or_of_agree {x : α} (hp : p = some x) (h : ∀ y, q = some y → x = y) :
    q.or p = some x := by
  cases q with
  | none => exact hp
  | some y => rw [Option.some_or, h y rfl]

/-- The newer of two values below `r` is below `r`. -/
theorem or_le (h : Le p r) (h' : Le q r) : Le (q.or p) r := by
  cases q with
  | none => exact h
  | some y => exact h'

end Lib.Flat
