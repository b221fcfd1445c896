import Mathlib.Data.List.Basic

namespace Lib

/-!
# File paths and their components

A path is a list of characters.  Its components are what lies between the slashes, without empty
ones and without `.` inside, as on a Unix system; what is joined to a path and does not start at
the root adds its components to those of the path.

* `components`, `join` — the components of a path, and one path joined to another;
* `names` — the components of a path that come from between its slashes;
* `components_join` — the components of a joined path;
* `isAbsolute_trim` — a path without the slashes at its front is relative.
-/

/-- A component of a path. -/
inductive Component where
  | rootDir
  | curDir
  | parentDir
  | normal (name : List Char)
  /-- A drive or a share, which no path has on Unix. -/
  | drive (name : List Char)
deriving DecidableEq, Repr

namespace Path

/-- The component between two slashes, if it counts as one. -/
def nameOf (s : List Char) : Option Component :=
  if s = [] ∨ s = ['.'] then none
  else if s = ['.', '.'] then some .parentDir
  else some (.normal s)

/-- The components from between the slashes. -/
def names (p : List Char) : List Component := (p.splitOn '/').filterMap nameOf

/-- How a path starts: at the root, with a `.` of its own, or with the first name. -/
def start : List Char → List Component
  | [] => []
  | c :: p =>
    if c = '/' then [.rootDir]
    else if c = '.' ∧ p.head?.all (· = '/') then [.curDir]
    else []

def components (p : List Char) : List Component := start p ++ names p

def isAbsolute (p : List Char) : Bool := p.head? = some '/'

/-- An absolute path replaces `base`, any other is put behind it and a slash. -/
def join (base p : List Char) : List Char :=
  if isAbsolute p then p
  else if base.getLast?.any (· ≠ '/') then base ++ '/' :: p
  else base ++ p

theorem names_append_slash (p q : List Char) : names (p ++ '/' :: q) = names p ++ names q := by
  unfold names
  rw [List.splitOn_eq_splitOnP, List.splitOnP_append_cons p q (by decide), List.filterMap_append]
  rfl

@[simp] theorem names_nil : names [] = [] := rfl

/-- A slash at the front adds no name. -/
theorem names_slash_cons (p : List Char) : names ('/' :: p) = names p := by
  have hcut := names_append_slash [] p
  rwa [List.nil_append, names_nil, List.nil_append] at hcut

theorem names_trim (p : List Char) : names (p.dropWhile (· = '/')) = names p := by
  induction p with
  | nil => rfl
  | cons c p ih =>
    by_cases hc : c = '/'
    · subst hc
      rw [List.dropWhile_cons_of_pos (by decide), ih, names_slash_cons]
    · rw [List.dropWhile_cons_of_neg (by simpa using hc)]

/-- What comes from between slashes is a name or leads up. -/
theorem mem_names {c : Component} {p : List Char} (h : c ∈ names p) :
    c = .parentDir ∨ ∃ name, c = .normal name := by
  obtain ⟨s, -, hs⟩ := List.mem_filterMap.mp h
  unfold nameOf at hs
  split at hs
  · exact absurd hs (by simp)
  · split at hs
    · exact Or.inl (Option.some.inj hs).symm
    · exact Or.inr ⟨s, (Option.some.inj hs).symm⟩

/-- A path starts at the root, with a `.`, or with none of these. -/
theorem mem_start {c : Component} {p : List Char} (h : c ∈ start p) :
    (c = .rootDir ∧ isAbsolute p = true) ∨ c = .curDir := by
  cases p with
  | nil => exact absurd h List.not_mem_nil
  | cons d p =>
    rw [start] at h
    split at h
    · rename_i hd
      exact Or.inl ⟨List.mem_singleton.mp h, by simp [isAbsolute, hd]⟩
    · split at h
      · exact Or.inr (List.mem_singleton.mp h)
      · exact absurd h List.not_mem_nil

/-- Only a name leads up. -/
theorem parentDir_mem_components {p : List Char} :
    .parentDir ∈ components p ↔ .parentDir ∈ names p := by
  rw [components, List.mem_append]
  refine ⟨fun h => h.elim (fun hstart => ?_) id, Or.inr⟩
  rcases mem_start hstart with ⟨h, -⟩ | h
  · exact absurd h (by simp)
  · exact absurd h (by simp)

theorem drive_notMem_components (name p : List Char) : .drive name ∉ components p := by
  intro h
  rcases List.mem_append.mp h with h | h
  · rcases mem_start h with ⟨h, -⟩ | h
    · exact absurd h (by simp)
    · exact absurd h (by simp)
  · rcases mem_names h with h | ⟨_, h⟩
    · exact absurd h (by simp)
    · exact absurd h (by simp)

/-- A relative path has no root among its components. -/
theorem rootDir_notMem_components {p : List Char} (hp : isAbsolute p = false) :
    .rootDir ∉ components p := by
  intro h
  rcases List.mem_append.mp h with h | h
  · rcases mem_start h with ⟨-, habs⟩ | h
    · exact absurd habs (by simp [hp])
    · exact absurd h (by simp)
  · rcases mem_names h with h | ⟨_, h⟩
    · exact absurd h (by simp)
    · exact absurd h (by simp)

theorem isAbsolute_trim (p : List Char) : isAbsolute (p.dropWhile (· = '/')) = false := by
  induction p with
  | nil => rfl
  | cons c p ih =>
    by_cases hc : c = '/'
    · rw [List.dropWhile_cons_of_pos (by simpa using hc)]
      exact ih
    · rw [List.dropWhile_cons_of_neg (by simpa using hc)]
      simpa [isAbsolute] using hc

/-- What comes behind a path and a slash does not change how it starts. -/
theorem start_append_slash {p : List Char} (hp : p ≠ []) (q : List Char) :
    start (p ++ '/' :: q) = start p := by
  obtain ⟨c, p, rfl⟩ := List.exists_cons_of_ne_nil hp
  have hhead : (p ++ '/' :: q).head?.all (· = '/') = p.head?.all (· = '/') := by
    cases p <;> rfl
  rw [List.cons_append, start, start, hhead]

/-- A slash between two paths, or the one the first ends with, separates their components. -/
theorem components_append_slash {p : List Char} (hp : p ≠ []) (q : List Char) :
    components (p ++ '/' :: q) = components p ++ names q := by
  rw [components, start_append_slash hp, names_append_slash, components, List.append_assoc]

/-- **The components of a joined path** are those of the base and then those of what was joined to
    it, whose own `.` at the front counts behind an empty base only. -/
theorem components_join {base p : List Char} (hp : isAbsolute p = false) :
    components (join base p) = components base ++ (if base = [] then components p else names p) := by
  unfold join
  rw [hp, if_neg Bool.false_ne_true]
  rcases List.eq_nil_or_concat' base with rfl | ⟨init, last, rfl⟩
  · rfl
  · rw [List.getLast?_concat, Option.any_some, if_neg (List.concat_ne_nil last init)]
    by_cases hlast : last = '/'
    · -- the base brings the slash, behind which it has no name
      subst hlast
      rw [if_neg (by decide), List.append_assoc, List.singleton_append]
      rcases List.eq_nil_or_concat' init with rfl | ⟨init, c, rfl⟩
      · show [Component.rootDir] ++ names ('/' :: p) = [Component.rootDir] ++ [] ++ names p
        rw [names_slash_cons, List.append_nil]
      · have hne : init ++ [c] ≠ [] := List.concat_ne_nil c init
        rw [components_append_slash hne, components_append_slash hne, names_nil, List.append_nil]
    · rw [if_pos (by simp [hlast]), components_append_slash (List.concat_ne_nil last init)]

end Path

end Lib
