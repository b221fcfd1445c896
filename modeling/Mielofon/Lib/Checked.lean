import Mathlib.Algebra.Order.Ring.Nat
import Mathlib.Algebra.BigOperators.Group.List.Basic

namespace Lib

/-!
# Checked arithmetic

Unsigned arithmetic of a fixed width that fails where the exact result does not fit, and division
that fails on a zero divisor.  What a computation comes to and when it does is one statement,
`Computes`, with a rule for each way computations are put together.

* `Fault`, `checkedAdd`, `checkedMul`, `checkedDiv` — the operations;
* `select`, `anyOf`, `gather`, `sumOf` — a filter, a search, a filter with values and a sum whose
  function may fail;
* `Computes` — a computation comes to a value exactly under a condition;
* `Computes.bind`, `computes_select`, `computes_foldlM`, `computes_sumOf` — the rules;
* `select_eq_ok`, `anyOf_eq_ok`, `gather_eq_ok`, `foldlM_eq_ok` — nothing fails where no step does.
-/

variable {α β σ : Type}

inductive Fault where
  | overflow
  | zero_division
deriving DecidableEq, Repr

/-! ### The operations -/

def checkedAdd (w a b : ℕ) : Except Fault ℕ := if a + b < 2 ^ w then .ok (a + b) else .error .overflow

def checkedMul (w a b : ℕ) : Except Fault ℕ := if a * b < 2 ^ w then .ok (a * b) else .error .overflow

/-- The quotient by a divisor, for a divisor that is not zero. -/
def checkedDiv (divisor : ℕ) (quotient : α) : Except Fault α :=
  if divisor = 0 then .error .zero_division else .ok quotient

/-- The elements that satisfy `p`. -/
def select (p : α → Except Fault Bool) : List α → Except Fault (List α)
  | [] => .ok []
  | a :: l => do
    let keep ← p a
    let rest ← select p l
    pure (if keep then a :: rest else rest)

/-- Whether an element satisfies `p`: the first that does ends the search. -/
def anyOf (p : α → Except Fault Bool) : List α → Except Fault Bool
  | [] => .ok false
  | a :: l => do
    let found ← p a
    if found then pure true else anyOf p l

/-- The values of the elements that have one. -/
def gather (f : α → Except Fault (Option β)) : List α → Except Fault (List β)
  | [] => .ok []
  | a :: l => do
    let value ← f a
    let rest ← gather f l
    pure (value.toList ++ rest)

/-- The sum of a function over a list. -/
def sumOf (w : ℕ) (f : α → Except Fault ℕ) (l : List α) : Except Fault ℕ :=
  l.foldlM (fun sum a => do
    let value ← f a
    checkedAdd w sum value) 0

/-! ### What a computation comes to -/

/-- `x` comes to `v` under the condition `c`, and fails otherwise. -/
def Computes (x : Except Fault α) (c : Prop) (v : α) : Prop := ∀ r, x = .ok r ↔ c ∧ r = v

variable {x : Except Fault α} {c c' : Prop} {v : α} {w : β}

theorem Computes.of_eq (h : x = .ok v) : Computes x True v := fun r => by
  rw [h, Except.ok.injEq, true_and, eq_comm]

theorem Computes.eq_ok (h : Computes x c v) (hc : c) : x = .ok v := (h v).mpr ⟨hc, rfl⟩

theorem Computes.congr (h : Computes x c v) (hc : c ↔ c') : Computes x c' v := fun r => by
  rw [h r, hc]

/-- One computation after another: what follows may rely on the condition of what came before. -/
theorem Computes.bind {f : α → Except Fault β} (h : Computes x c v)
    (hf : c → Computes (f v) c' w) : Computes (x >>= f) (c ∧ c') w := by
  intro r
  constructor
  · intro hr
    cases hx : x with
    | error e =>
      rw [hx] at hr
      exact absurd hr (by simp [Bind.bind, Except.bind])
    | ok a =>
      obtain ⟨hc, rfl⟩ := (h a).mp hx
      rw [hx] at hr
      obtain ⟨hc', rfl⟩ := (hf hc r).mp hr
      exact ⟨⟨hc, hc'⟩, rfl⟩
  · rintro ⟨⟨hc, hc'⟩, rfl⟩
    rw [h.eq_ok hc]
    exact (hf hc).eq_ok hc'

/-- A computation that cannot fail before another. -/
theorem Computes.after {f : α → Except Fault β} (h : x = .ok v) (hf : Computes (f v) c w) :
    Computes (x >>= f) c w := by
  rw [h]
  exact hf

/-- A value made of the result. -/
theorem Computes.map {g : α → β} (h : Computes x c v) (hw : g v = w) :
    Computes (x >>= fun a => pure (g a)) c w := by
  have hvalue : (pure (g v) : Except Fault β) = .ok w := congrArg Except.ok hw
  exact (h.bind (fun _ => Computes.of_eq hvalue)).congr (and_iff_left trivial)

theorem Computes.ite {p : Prop} [Decidable p] {y : Except Fault α} {d : Prop} {u : α}
    (h : p → Computes x c v) (h' : ¬ p → Computes y d u) :
    Computes (if p then x else y) (if p then c else d) (if p then v else u) := by
  split
  · rename_i hp
    exact h hp
  · rename_i hp
    exact h' hp

/-! ### The rules of the operations -/

theorem computes_checkedAdd (w a b : ℕ) : Computes (checkedAdd w a b) (a + b < 2 ^ w) (a + b) := by
  intro r
  unfold checkedAdd
  split
  · rename_i h
    rw [Except.ok.injEq, and_iff_right h, eq_comm]
  · rename_i h
    exact ⟨fun hr => absurd hr (by simp), fun hr => absurd hr.1 h⟩

theorem computes_checkedMul (w a b : ℕ) : Computes (checkedMul w a b) (a * b < 2 ^ w) (a * b) := by
  intro r
  unfold checkedMul
  split
  · rename_i h
    rw [Except.ok.injEq, and_iff_right h, eq_comm]
  · rename_i h
    exact ⟨fun hr => absurd hr (by simp), fun hr => absurd hr.1 h⟩

theorem computes_checkedDiv (divisor : ℕ) (v : α) :
    Computes (checkedDiv divisor v) (divisor ≠ 0) v := by
  intro r
  unfold checkedDiv
  split
  · rename_i h
    exact ⟨fun hr => absurd hr (by simp), fun hr => absurd h hr.1⟩
  · rename_i h
    rw [Except.ok.injEq, and_iff_right h, eq_comm]

theorem computes_select {p : α → Except Fault Bool} {ok : α → Prop} {q : α → Bool} {l : List α}
    (h : ∀ a ∈ l, Computes (p a) (ok a) (q a)) :
    Computes (select p l) (∀ a ∈ l, ok a) (l.filter q) := by
  induction l with
  | nil => exact (Computes.of_eq rfl).congr (by simp)
  | cons a l ih =>
    have hrest := ih (fun b hb => h b (List.mem_cons_of_mem _ hb))
    have hkeep : (if q a then a :: l.filter q else l.filter q) = (a :: l).filter q := by
      rw [List.filter_cons]
    have hmap := hrest.map (g := fun rest => if q a then a :: rest else rest) hkeep
    refine ((h a List.mem_cons_self).bind (fun _ => hmap)).congr ?_
    rw [List.forall_mem_cons]

theorem select_eq_ok {p : α → Except Fault Bool} {q : α → Bool} {l : List α}
    (h : ∀ a ∈ l, p a = .ok (q a)) : select p l = .ok (l.filter q) :=
  (computes_select (fun a ha => Computes.of_eq (h a ha))).eq_ok (fun _ _ => trivial)

theorem anyOf_eq_ok {p : α → Except Fault Bool} {q : α → Bool} {l : List α}
    (h : ∀ a ∈ l, p a = .ok (q a)) : anyOf p l = .ok (l.any q) := by
  induction l with
  | nil => rfl
  | cons a l ih =>
    unfold anyOf
    rw [h a List.mem_cons_self, ih (fun b hb => h b (List.mem_cons_of_mem _ hb)), List.any_cons]
    cases q a <;> rfl

theorem gather_eq_ok {f : α → Except Fault (Option β)} {g : α → Option β} {l : List α}
    (h : ∀ a ∈ l, f a = .ok (g a)) : gather f l = .ok (l.filterMap g) := by
  induction l with
  | nil => rfl
  | cons a l ih =>
    unfold gather
    rw [h a List.mem_cons_self, ih (fun b hb => h b (List.mem_cons_of_mem _ hb)),
      List.filterMap_cons]
    cases g a <;> rfl

theorem foldlM_eq_ok {f : σ → α → Except Fault σ} {g : σ → α → σ} {l : List α} (s : σ)
    (h : ∀ s, ∀ a ∈ l, f s a = .ok (g s a)) : l.foldlM f s = .ok (l.foldl g s) := by
  induction l generalizing s with
  | nil => rfl
  | cons a l ih =>
    rw [List.foldlM_cons, h s a List.mem_cons_self, List.foldl_cons]
    exact ih (g s a) (fun s b hb => h s b (List.mem_cons_of_mem _ hb))

/-- **A loop whose state only grows.** Where a step fails exactly on leaving the states that fit,
    and nothing comes back to them, the loop fails exactly when its last state does not fit. -/
theorem computes_foldlM (fits : σ → Prop) {f : σ → α → Except Fault σ} {g : σ → α → σ} {l : List α}
    (hstep : ∀ s, ∀ a ∈ l, Computes (f s a) (fits (g s a)) (g s a))
    (hback : ∀ s, ∀ a ∈ l, fits (g s a) → fits s) {s : σ} (hs : fits s) :
    Computes (l.foldlM f s) (fits (l.foldl g s)) (l.foldl g s) := by
  -- what fits in the end fits from the start on
  have hfirst : ∀ (l' : List α) (s : σ), (∀ a ∈ l', a ∈ l) → fits (l'.foldl g s) → fits s := by
    intro l'
    induction l' with
    | nil => exact fun s _ h => h
    | cons a l' ih =>
      intro s hsub h
      exact hback s a (hsub a List.mem_cons_self)
        (ih (g s a) (fun b hb => hsub b (List.mem_cons_of_mem _ hb)) h)
  induction l generalizing s with
  | nil => exact (Computes.of_eq rfl).congr (iff_of_true trivial hs)
  | cons a l ih =>
    have hsub : ∀ b ∈ l, b ∈ a :: l := fun b hb => List.mem_cons_of_mem _ hb
    rw [List.foldlM_cons, List.foldl_cons]
    have hrest : fits (g s a) → Computes (l.foldlM f (g s a)) (fits (l.foldl g (g s a)))
        (l.foldl g (g s a)) := fun hfit =>
      ih (fun s b hb => hstep s b (hsub b hb)) (fun s b hb => hback s b (hsub b hb)) hfit
        (fun l' s hl' => hfirst l' s (fun b hb => hsub b (hl' b hb)))
    refine ((hstep s a List.mem_cons_self).bind hrest).congr ?_
    exact and_iff_right_of_imp (hfirst l (g s a) hsub)

theorem computes_sumOf {w : ℕ} {f : α → Except Fault ℕ} {g : α → ℕ} {l : List α}
    (h : ∀ a ∈ l, f a = .ok (g a)) :
    Computes (sumOf w f l) ((l.map g).sum < 2 ^ w) (l.map g).sum := by
  have hfold : l.foldl (fun sum a => sum + g a) 0 = (l.map g).sum := by
    rw [List.sum_eq_foldl, List.foldl_map]
  rw [← hfold]
  refine computes_foldlM (· < 2 ^ w) (fun sum a ha => ?_) (fun sum a _ hfit => ?_)
    (Nat.two_pow_pos w)
  · exact Computes.after (h a ha) (computes_checkedAdd w sum (g a))
  · exact lt_of_le_of_lt (Nat.le_add_right _ _) hfit

end Lib
