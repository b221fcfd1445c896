import Mathlib.Computability.Language

namespace Lib

/-!
# Patterns with wildcards

A pattern is a sequence of letters, wildcards for one letter and wildcards for any run of letters.
It denotes the language that its parts denote one after the other.

* `Wild`, `Wild.language`, `denote` — what a pattern means;
* `mem_denote_lit`, `mem_denote_one`, `mem_denote_run` — a word, by the first part of the pattern;
* `denote_append`, `mem_denote_letters` — patterns put together, and patterns without wildcards.
-/

inductive Wild (α : Type*) where
  | lit (a : α)
  | one
  | run
deriving DecidableEq

variable {α : Type*}

def Wild.language : Wild α → Language α
  | .lit a => {[a]}
  | .one => {w | w.length = 1}
  | .run => Set.univ

def denote (p : List (Wild α)) : Language α := (p.map Wild.language).prod

theorem mem_denote_nil {w : List α} : w ∈ denote ([] : List (Wild α)) ↔ w = [] := Iff.rfl

theorem mem_denote_cons {part : Wild α} {p : List (Wild α)} {w : List α} :
    w ∈ denote (part :: p) ↔ ∃ u ∈ part.language, ∃ v ∈ denote p, u ++ v = w := by
  rw [denote, List.map_cons, List.prod_cons]
  exact Language.mem_mul

theorem mem_denote_lit {a : α} {p : List (Wild α)} {w : List α} :
    w ∈ denote (.lit a :: p) ↔ ∃ v ∈ denote p, a :: v = w := by
  rw [mem_denote_cons]
  constructor
  · rintro ⟨u, hu, v, hv, rfl⟩
    obtain rfl : u = [a] := hu
    exact ⟨v, hv, rfl⟩
  · rintro ⟨v, hv, rfl⟩
    exact ⟨[a], rfl, v, hv, rfl⟩

theorem mem_denote_one {p : List (Wild α)} {w : List α} :
    w ∈ denote (.one :: p) ↔ ∃ a, ∃ v ∈ denote p, a :: v = w := by
  rw [mem_denote_cons]
  constructor
  · rintro ⟨u, hu, v, hv, rfl⟩
    obtain ⟨a, rfl⟩ := List.length_eq_one_iff.1 (show u.length = 1 from hu)
    exact ⟨a, v, hv, rfl⟩
  · rintro ⟨a, v, hv, rfl⟩
    exact ⟨[a], List.length_singleton, v, hv, rfl⟩

theorem mem_denote_run {p : List (Wild α)} {w : List α} :
    w ∈ denote (.run :: p) ↔ ∃ k ≤ w.length, w.drop k ∈ denote p := by
  rw [mem_denote_cons]
  constructor
  · rintro ⟨u, -, v, hv, rfl⟩
    refine ⟨u.length, by simp, ?_⟩
    rwa [List.drop_left]
  · rintro ⟨k, -, hk⟩
    exact ⟨w.take k, Set.mem_univ _, w.drop k, hk, List.take_append_drop k w⟩

theorem denote_append (p q : List (Wild α)) : denote (p ++ q) = denote p * denote q := by
  rw [denote, List.map_append, List.prod_append]
  rfl

/-- A pattern without wildcards denotes itself. -/
theorem mem_denote_letters {s w : List α} : w ∈ denote (s.map Wild.lit) ↔ w = s := by
  induction s generalizing w with
  | nil => exact mem_denote_nil
  | cons a s ih =>
    rw [List.map_cons, mem_denote_lit]
    constructor
    · rintro ⟨v, hv, rfl⟩
      rw [ih.1 hv]
    · rintro rfl
      exact ⟨s, ih.2 rfl, rfl⟩

/-- What stands for a run between two texts. -/
theorem append_mem_denote (pre mid suf : List α) :
    pre ++ mid ++ suf ∈ denote (pre.map Wild.lit ++ .run :: suf.map Wild.lit) := by
  rw [denote_append, List.append_assoc]
  refine Language.append_mem_mul (mem_denote_letters.2 rfl) (mem_denote_run.2 ⟨mid.length, ?_, ?_⟩)
  · simp
  · rw [List.drop_left]
    exact mem_denote_letters.2 rfl

end Lib
