import Mathlib.Algebra.BigOperators.Group.List.Basic
import Mathlib.Algebra.Order.BigOperators.Group.List
import Mathlib.Algebra.Order.Ring.Nat

namespace Lib

/-!
# Detours

A path along arcs, end to end, that starts and ends in a set of vertices and visits one outside of
it leaves the set on one arc and comes back on a later one.  What it costs is at least what these
two arcs cost.

* `Leads` — the arcs lead from one vertex to another;
* `Leads.exists_leaving` — a path out of a set has an arc out of it;
* `Leads.exists_detour` — the two arcs of a detour.
-/

variable {V A : Type*} {src dst : A → V}

/-- The arcs lead from one vertex to another, end to end. -/
def Leads (src dst : A → V) : V → List A → V → Prop
  | u, [], v => u = v
  | u, a :: p, v => src a = u ∧ Leads src dst (dst a) p v

namespace Leads

variable {u v : V} {p p' : List A} {S : V → Prop}

theorem exists_of_append (h : Leads src dst u (p ++ p') v) :
    ∃ w, Leads src dst u p w ∧ Leads src dst w p' v := by
  induction p generalizing u with
  | nil => exact ⟨u, rfl, h⟩
  | cons a p ih =>
    obtain ⟨w, hp, hp'⟩ := ih h.2
    exact ⟨w, ⟨h.1, hp⟩, hp'⟩

/-- A path out of a set has an arc out of it. -/
theorem exists_leaving (h : Leads src dst u p v) (hu : S u) (hv : ¬ S v) :
    ∃ a ∈ p, S (src a) ∧ ¬ S (dst a) := by
  induction p generalizing u with
  | nil => exact absurd (h ▸ hu) hv
  | cons a p ih =>
    obtain ⟨rfl, hrest⟩ := h
    by_cases ha : S (dst a)
    · obtain ⟨b, hb, hout⟩ := ih hrest ha
      exact ⟨b, List.mem_cons_of_mem a hb, hout⟩
    · exact ⟨a, List.mem_cons_self, hu, ha⟩

/-- **Detours.** A path between two vertices of a set that visits one outside of it has an arc out
    of the set and, after it, one back in. -/
theorem exists_detour {a : A} (h : Leads src dst u p v) (hu : S u) (hv : S v) (ha : a ∈ p)
    (hout : ¬ S (dst a)) :
    ∃ p₁ p₂ e e', p = p₁ ++ p₂ ∧ e ∈ p₁ ∧ e' ∈ p₂ ∧ (S (src e) ∧ ¬ S (dst e)) ∧
      ¬ S (src e') ∧ S (dst e') := by
  obtain ⟨q, q', rfl⟩ := List.append_of_mem ha
  have hp : q ++ a :: q' = (q ++ [a]) ++ q' := by simp
  rw [hp] at h
  obtain ⟨w, hq, hq'⟩ := exists_of_append h
  -- the path is cut where it is outside
  obtain ⟨-, -, -, hw⟩ := exists_of_append hq
  have hwout : ¬ S w := hw ▸ hout
  obtain ⟨e, he, hleave⟩ := exists_leaving hq hu hwout
  obtain ⟨e', he', henter⟩ := exists_leaving (S := fun x => ¬ S x) hq' hwout (not_not.mpr hv)
  exact ⟨q ++ [a], q', e, e', hp, he, he', hleave, henter.1, not_not.mp henter.2⟩

end Leads

/-- Two arcs of a path cost no more than the path. -/
theorem add_le_sum_map {w : A → ℕ} {p₁ p₂ : List A} {e e' : A} (he : e ∈ p₁) (he' : e' ∈ p₂) :
    w e + w e' ≤ ((p₁ ++ p₂).map w).sum := by
  rw [List.map_append, List.sum_append]
  exact Nat.add_le_add (List.single_le_sum (by simp) _ (List.mem_map_of_mem he))
    (List.single_le_sum (by simp) _ (List.mem_map_of_mem he'))

end Lib
