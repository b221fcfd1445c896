import Mathlib.Data.List.Nodup

namespace Lib

/-!
# Tasks that own what they work on

Concurrent tasks share a state, but each works on the part under a key of its own.  What a task
relies on is then left alone by all the others, so that a step has to be checked for one task only.

* `Owned` — the keys are distinct, and each task is in order with what it sees under its key;
* `Owned.set` — a step of one task that changes nothing under another key;
* `Owned.frame` — a step of none.
-/

variable {τ κ ν : Type*} {key : τ → κ} {P : ν → τ → Prop} {view view' : κ → ν} {tasks : List τ}

/-- The tasks have keys of their own, and `P` holds of each and what is under its key. -/
structure Owned (key : τ → κ) (P : ν → τ → Prop) (view : κ → ν) (tasks : List τ) : Prop where
  distinct : (tasks.map key).Nodup
  each : ∀ t ∈ tasks, P (view (key t)) t

theorem map_set_of_key {i : ℕ} {t t' : τ} (ht : tasks[i]? = some t) (hkey : key t' = key t) :
    (tasks.set i t').map key = tasks.map key := by
  obtain ⟨hi, rfl⟩ := List.getElem?_eq_some_iff.1 ht
  rw [List.map_set, hkey, ← List.map_set, List.set_getElem_self]

/-- Of a list with distinct keys, an update leaves the tasks with other keys. -/
theorem mem_set_of_distinct (hdistinct : (tasks.map key).Nodup) {i : ℕ} {t t' u : τ}
    (ht : tasks[i]? = some t) (hu : u ∈ tasks.set i t') :
    u = t' ∨ (u ∈ tasks ∧ key u ≠ key t) := by
  obtain ⟨hi, rfl⟩ := List.getElem?_eq_some_iff.1 ht
  obtain ⟨j, hj, rfl⟩ := List.mem_iff_getElem.1 hu
  rw [List.length_set] at hj
  by_cases hij : i = j
  · left
    subst hij
    rw [List.getElem_set_self]
  · right
    rw [List.getElem_set_ne hij]
    refine ⟨List.getElem_mem hj, fun he => hij ?_⟩
    have hsame :=
      List.inj_on_of_nodup_map hdistinct (List.getElem_mem hi) (List.getElem_mem hj) he.symm
    exact (hdistinct.of_map.getElem_inj_iff).1 hsame

/-- **Step of one task.** -/
theorem Owned.set (h : Owned key P view tasks) {i : ℕ} {t t' : τ} (ht : tasks[i]? = some t)
    (hkey : key t' = key t) (hview : ∀ k, k ≠ key t → view' k = view k)
    (hP : P (view' (key t)) t') : Owned key P view' (tasks.set i t') where
  distinct := by
    rw [map_set_of_key ht hkey]
    exact h.distinct
  each := by
    intro u hu
    obtain rfl | ⟨hmem, hne⟩ := mem_set_of_distinct h.distinct ht hu
    · rw [hkey]
      exact hP
    · rw [hview _ hne]
      exact h.each u hmem

/-- **Step of no task.** -/
theorem Owned.frame (h : Owned key P view tasks) (hview : ∀ k, view' k = view k) :
    Owned key P view' tasks :=
  ⟨h.distinct, fun t ht => (hview _).symm ▸ h.each t ht⟩

end Lib
