import Mielofon.Lib.Path

namespace Mielofon

open Lib Lib.Path

/-!
# The files of the dashboard

The admin listener serves the files under a configured directory (`assets.rs`).  `resolve` finds
the file of a request path; no request leads out of the directory.

* `resolve` — the path of the file, or none for a request with `..` in it;
* `AtOrBelow` — a path is at or below another one;
* `resolve_confined` — which requests are refused, and where the others lead.
-/

/-- The part of a request path that is joined to the root: however the request starts, it is
    relative. -/
def requested (rel : List Char) : List Char :=
  let rel := rel.dropWhile (· = '/')
  if rel = [] ∨ rel = ['.'] then "index.html".toList else rel

/-- Resolve a request path to a path inside `root_dir`.  An empty request maps to `index.html`. -/
def resolve (root_dir rel : String) : Option String :=
  let candidate := join root_dir.toList (requested rel.toList)
  if (components candidate).any (fun c => match c with
    | .parentDir | .drive _ => true
    | .rootDir | .curDir | .normal _ => false) then none
  else some (String.ofList candidate)

/-- `p` is at or below `root`: its components are those of `root` with others behind them, none of
    which leads up or starts at the root again. -/
def AtOrBelow (root p : String) : Prop :=
  ∃ rest, components p.toList = components root.toList ++ rest ∧ .parentDir ∉ rest ∧ .rootDir ∉ rest

/-- A request path is joined as a relative one. -/
theorem isAbsolute_requested (rel : List Char) : isAbsolute (requested rel) = false := by
  unfold requested
  dsimp only
  split
  · decide
  · exact isAbsolute_trim rel

/-- What is joined leads up exactly when the request does. -/
theorem parentDir_mem_requested (rel : List Char) :
    .parentDir ∈ names (requested rel) ↔ .parentDir ∈ components rel := by
  rw [parentDir_mem_components, ← names_trim rel]
  unfold requested
  dsimp only
  split
  · rename_i hindex
    -- the index in place of a request with no names
    rcases hindex with hindex | hindex
    · rw [hindex]; decide
    · rw [hindex]; decide
  · rfl

/-- Nothing but a `..` has a request refused. -/
theorem resolve_eq (root_dir rel : String) :
    resolve root_dir rel =
      if .parentDir ∈ components (join root_dir.toList (requested rel.toList)) then none
      else some (String.ofList (join root_dir.toList (requested rel.toList))) := by
  have hany : ∀ cs : List Component, (∀ name, .drive name ∉ cs) →
      (cs.any (fun c => match c with
        | .parentDir | .drive _ => true
        | .rootDir | .curDir | .normal _ => false) = true ↔ .parentDir ∈ cs) := by
    intro cs hdrive
    rw [List.any_eq_true]
    constructor
    · rintro ⟨c, hc, hrefused⟩
      cases c with
      | parentDir => exact hc
      | drive name => exact absurd hc (hdrive name)
      | rootDir | curDir | normal => exact absurd hrefused Bool.false_ne_true
    · exact fun h => ⟨.parentDir, h, rfl⟩
  simp only [resolve, hany _ (fun name => drive_notMem_components name _)]

/-- **Requests are confined.** Under a root without `..` a request is refused exactly when it has a
    `..` itself; every other one leads to a path at or below the root without `..`, the same one
    whatever slashes the request starts with. -/
theorem resolve_confined (root_dir rel : String)
    (hroot : .parentDir ∉ components root_dir.toList) :
    (resolve root_dir rel = none ↔ .parentDir ∈ components rel.toList) ∧
      (∀ p, resolve root_dir rel = some p →
        AtOrBelow root_dir p ∧ .parentDir ∉ components p.toList) ∧
      ∀ n, resolve root_dir (String.ofList (List.replicate n '/') ++ rel) = resolve root_dir rel := by
  -- what the join puts behind the root
  let tail := if root_dir.toList = [] then components (requested rel.toList)
    else names (requested rel.toList)
  have htail : components (join root_dir.toList (requested rel.toList)) =
      components root_dir.toList ++ tail := components_join (isAbsolute_requested _)
  have hup : .parentDir ∈ tail ↔ .parentDir ∈ components rel.toList := by
    rw [← parentDir_mem_requested]
    show _ ∈ ite _ _ _ ↔ _
    split
    · exact parentDir_mem_components
    · rfl
  have hreroot : .rootDir ∉ tail := by
    show _ ∉ ite _ _ _
    split
    · exact rootDir_notMem_components (isAbsolute_requested _)
    · intro h
      rcases mem_names h with h | ⟨_, h⟩ <;> exact absurd h (by simp)
  have hmem : .parentDir ∈ components (join root_dir.toList (requested rel.toList)) ↔
      .parentDir ∈ components rel.toList := by
    rw [htail, List.mem_append, or_iff_right hroot, hup]
  refine ⟨?_, fun p hp => ?_, fun n => ?_⟩
  · rw [resolve_eq, ← hmem]
    split <;> simp_all
  · rw [resolve_eq] at hp
    split at hp
    · exact absurd hp (by simp)
    · rename_i hnone
      obtain rfl := Option.some.inj hp
      rw [AtOrBelow, String.toList_ofList]
      exact ⟨⟨tail, htail, fun h => hnone (hmem.mpr (hup.mp h)), hreroot⟩, hnone⟩
  · have hrequested : requested (String.ofList (List.replicate n '/') ++ rel).toList =
        requested rel.toList := by
      have htrim : (List.replicate n '/' ++ rel.toList).dropWhile (· = '/') =
          rel.toList.dropWhile (· = '/') :=
        List.dropWhile_append_of_pos (fun c hc => by simpa using List.eq_of_mem_replicate hc)
      rw [String.toList_append, String.toList_ofList]
      unfold requested
      rw [htrim]
    rw [resolve, resolve, hrequested]

/-- An absolute request is a path under the root. -/
theorem resolve_confined_absolute :
    (resolve "/srv" "/etc/passwd" = none ↔ .parentDir ∈ components "/etc/passwd".toList) ∧
      (∀ p, resolve "/srv" "/etc/passwd" = some p →
        AtOrBelow "/srv" p ∧ .parentDir ∉ components p.toList) ∧
      ∀ n, resolve "/srv" (String.ofList (List.replicate n '/') ++ "/etc/passwd") =
        resolve "/srv" "/etc/passwd" :=
  resolve_confined "/srv" "/etc/passwd" (by decide)

end Mielofon
