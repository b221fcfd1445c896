import Mathlib.Logic.Relation

namespace Lib

/-!
# Runs of a transition system whose steps meet a side condition

A system is a partial step function `step : σ → α → Option σ`: `none` says that the action
is not enabled.  A claim about every interleaving quantifies over the runs of that function;
a claim that needs a condition on the schedule quantifies over the runs all of whose steps
meet it.

* `StepIf step ok` — one step, taken from a state in which `ok` holds of the action.
* `Runs step ok s s'` — `s'` is reached from `s` by finitely many such steps.
* `Runs.invariant` — what holds at the start and is kept by every such step holds at the end.
* `Runs.of_exec` — a concrete list of actions, executed with the condition checked on the
  way, is a run.
-/

variable {σ α : Type*} {step : σ → α → Option σ} {ok ok' : σ → α → Prop} {s s' s'' : σ}

/-- One step of the system, by an action that meets `ok` in the state it is taken from. -/
def StepIf (step : σ → α → Option σ) (ok : σ → α → Prop) (s s' : σ) : Prop :=
  ∃ a, ok s a ∧ step s a = some s'

/-- `s'` is reached from `s` by finitely many steps that all meet `ok`. -/
def Runs (step : σ → α → Option σ) (ok : σ → α → Prop) : σ → σ → Prop :=
  Relation.ReflTransGen (StepIf step ok)

/-- The condition every action meets: the runs under it are all the runs. -/
def Always (_ : σ) (_ : α) : Prop := True

instance (s : σ) (a : α) : Decidable (Always s a) := .isTrue trivial

/-! ### Building runs -/

@[refl] theorem Runs.refl (s : σ) : Runs step ok s s := Relation.ReflTransGen.refl

theorem Runs.cons (a : α) (hok : ok s a) (hs : step s a = some s') (h : Runs step ok s' s'') :
    Runs step ok s s'' :=
  Relation.ReflTransGen.head ⟨a, hok, hs⟩ h

theorem Runs.trans (h : Runs step ok s s') (h' : Runs step ok s' s'') : Runs step ok s s'' :=
  Relation.ReflTransGen.trans h h'

/-- A weaker condition admits more runs. -/
theorem Runs.mono (himp : ∀ s a, ok s a → ok' s a) (h : Runs step ok s s') :
    Runs step ok' s s' :=
  Relation.ReflTransGen.mono (fun _ _ ⟨a, hok, hs⟩ => ⟨a, himp _ a hok, hs⟩) _ _ h

/-! ### Reasoning about runs -/

/-- **Invariant rule.** A predicate that holds in the first state and is kept by every step
    that meets the condition holds in every state reached. -/
theorem Runs.invariant {I : σ → Prop} (h : Runs step ok s s') (h0 : I s)
    (hstep : ∀ t a t', I t → ok t a → step t a = some t' → I t') : I s' := by
  induction h with
  | refl => exact h0
  | tail _ hlast ih =>
    obtain ⟨a, hok, hs⟩ := hlast
    exact hstep _ a _ ih hok hs

/-! ### Executing a list of actions -/

/-- Execute a list of actions, refusing one that does not meet the condition. -/
def exec (step : σ → α → Option σ) (ok : σ → α → Prop) [∀ s a, Decidable (ok s a)]
    (s : σ) : List α → Option σ
  | [] => some s
  | a :: as => if ok s a then (step s a).bind (fun t => exec step ok t as) else none

theorem exec_cons_eq_some_iff [∀ s a, Decidable (ok s a)] {a : α} {as : List α} :
    exec step ok s (a :: as) = some s' ↔
      ok s a ∧ ∃ t, step s a = some t ∧ exec step ok t as = some s' := by
  simp only [exec]
  split
  · rename_i hok
    simp only [Option.bind_eq_some_iff, hok, true_and]
  · rename_i hok
    simp [hok]

/-- An execution that goes through is a run. -/
theorem Runs.of_exec [∀ s a, Decidable (ok s a)] (as : List α)
    (h : exec step ok s as = some s') : Runs step ok s s' := by
  induction as generalizing s with
  | nil =>
    simp only [exec, Option.some.injEq] at h
    exact h ▸ Runs.refl s
  | cons a as ih =>
    obtain ⟨hok, t, ht, hrest⟩ := exec_cons_eq_some_iff.mp h
    exact Runs.cons a hok ht (ih hrest)

end Lib
