import Mathlib.Data.List.AList
import Mathlib.Data.List.Induction
import Mielofon.Lib.Last

namespace Lib

/-!
# Hash maps

A hash map is an association list without repeated keys, `Mathlib`'s `AList` at a constant
value family.  The order of the entries stands for the unspecified iteration order of the
map.  Lookup, insertion and removal are Mathlib's; this file adds what an in-place update,
a retain and an update of every value do to a lookup.

* `Map.get` — lookup;
* `Map.set` — insert or overwrite; a map is unchanged by writing back what it holds
  (`Map.set_of_get`);
* `Map.erase`, `Map.retain`, `Map.mapVal` — removal, filter, update of every value;
* `Map.pairs` — the entries as pairs, in iteration order;
* `Map.get_foldl_set` — a loop that stores leaves the last value of every key;
* `Map.get_foldl_pairs` — storing the pairs of a map gives the map back.
-/

variable {κ ν : Type*} [DecidableEq κ]

/-- A finite map from `κ` to `ν`. -/
abbrev Map (κ ν : Type*) := AList (fun _ : κ => ν)

namespace Map

/-- The value stored under `k`. -/
def get (m : Map κ ν) (k : κ) : Option ν := m.lookup k

/-- Store `v` under `k`: in place when the key is present, as a new entry otherwise. -/
def set (m : Map κ ν) (k : κ) (v : ν) : Map κ ν :=
  if k ∈ m then m.replace k v else m.insert k v

/-- Remove the entry of `k`. -/
def erase (m : Map κ ν) (k : κ) : Map κ ν := AList.erase k m

/-- Keep the entries that satisfy `p`. -/
def retain (p : κ → ν → Bool) (m : Map κ ν) : Map κ ν :=
  ⟨m.entries.filter (fun e => p e.1 e.2),
    m.nodupKeys.sublist List.filter_sublist⟩

omit [DecidableEq κ] in
private theorem keys_mapVal (f : κ → ν → ν) (l : List (Σ _ : κ, ν)) :
    (l.map (fun e => (⟨e.1, f e.1 e.2⟩ : Σ _ : κ, ν))).keys = l.keys := by
  simp [List.keys, List.map_map, Function.comp_def]

/-- Update every value. -/
def mapVal (f : κ → ν → ν) (m : Map κ ν) : Map κ ν :=
  ⟨m.entries.map (fun e => ⟨e.1, f e.1 e.2⟩), by
    rw [List.NodupKeys, keys_mapVal]; exact m.nodupKeys⟩

/-- The entries as pairs, in iteration order. -/
def pairs (m : Map κ ν) : List (κ × ν) := m.entries.map (fun e => (e.1, e.2))

/-! ### Lookups -/

@[simp] theorem get_empty (k : κ) : get (∅ : Map κ ν) k = none := AList.lookup_empty k

theorem get_eq_some_iff {m : Map κ ν} {k : κ} {v : ν} :
    m.get k = some v ↔ (⟨k, v⟩ : Σ _ : κ, ν) ∈ m.entries :=
  AList.mem_lookup_iff

theorem get_eq_none_iff {m : Map κ ν} {k : κ} : m.get k = none ↔ k ∉ m :=
  AList.lookup_eq_none

theorem mem_of_get {m : Map κ ν} {k : κ} {v : ν} (h : m.get k = some v) : k ∈ m := by
  by_contra hk
  rw [get_eq_none_iff.mpr hk] at h
  exact absurd h (by simp)

theorem exists_get_of_mem {m : Map κ ν} {k : κ} (h : k ∈ m) : ∃ v, m.get k = some v := by
  cases hv : m.get k with
  | none => exact absurd h (get_eq_none_iff.mp hv)
  | some v => exact ⟨v, rfl⟩

/-- Two maps that agree on which entries they hold agree on every lookup. -/
theorem get_congr {m m' : Map κ ν} {k : κ}
    (h : ∀ v, (⟨k, v⟩ : Σ _ : κ, ν) ∈ m.entries ↔ (⟨k, v⟩ : Σ _ : κ, ν) ∈ m'.entries) :
    m.get k = m'.get k := by
  ext v
  rw [get_eq_some_iff, get_eq_some_iff]
  exact h v

theorem mem_pairs {m : Map κ ν} {k : κ} {v : ν} : (k, v) ∈ m.pairs ↔ m.get k = some v := by
  rw [get_eq_some_iff, pairs, List.mem_map]
  constructor
  · rintro ⟨⟨k', v'⟩, he, heq⟩
    simp only [Prod.mk.injEq] at heq
    obtain ⟨rfl, rfl⟩ := heq
    exact he
  · intro h
    exact ⟨⟨k, v⟩, h, rfl⟩

omit [DecidableEq κ] in
theorem pairs_keys (m : Map κ ν) : m.pairs.map Prod.fst = m.keys := by
  simp [pairs, AList.keys, List.keys, Function.comp_def]

omit [DecidableEq κ] in
theorem nodup_pairs_keys (m : Map κ ν) : (m.pairs.map Prod.fst).Nodup := by
  rw [pairs_keys]; exact m.keys_nodup

/-! ### Storing -/

/-- Writing back the value a key already holds changes nothing. -/
theorem set_of_get {m : Map κ ν} {k : κ} {v : ν} (h : m.get k = some v) : m.set k v = m := by
  rw [set, if_pos (mem_of_get h)]
  exact AList.ext (List.kreplace_self m.nodupKeys (get_eq_some_iff.mp h))

/-- The entries of an in-place update, by induction on the list. -/
private theorem mem_kreplace {k : κ} {v : ν} {e : Σ _ : κ, ν} :
    ∀ {l : List (Σ _ : κ, ν)}, l.NodupKeys → k ∈ l.keys →
      (e ∈ List.kreplace k v l ↔ e = ⟨k, v⟩ ∨ (e.1 ≠ k ∧ e ∈ l))
  | [], _, hk => absurd hk (by simp)
  | ⟨k', v'⟩ :: l, hnd, hk => by
    rw [List.nodupKeys_cons] at hnd
    by_cases hkk : k = k'
    · subst hkk
      -- the head is replaced, and no later entry has the key
      have hrepl : List.kreplace k v (⟨k, v'⟩ :: l) = ⟨k, v⟩ :: l := by
        exact List.lookmap_cons_some _ _ (dif_pos rfl)
      rw [hrepl, List.mem_cons, List.mem_cons]
      constructor
      · rintro (h | h)
        · exact Or.inl h
        · refine Or.inr ⟨fun he => hnd.1 ?_, Or.inr h⟩
          have hmem : e.1 ∈ l.keys := List.mem_keys_of_mem h
          exact he ▸ hmem
      · rintro (h | ⟨hne, h | h⟩)
        · exact Or.inl h
        · exact absurd (congrArg Sigma.fst h) hne
        · exact Or.inr h
    · have hkeep : List.kreplace k v (⟨k', v'⟩ :: l) = ⟨k', v'⟩ :: List.kreplace k v l := by
        rw [List.kreplace, List.lookmap_cons_none _ _ (by simp [hkk])]
      have hkl : k ∈ l.keys := by
        rcases List.mem_cons.mp hk with h | h
        · exact absurd h hkk
        · exact h
      rw [hkeep, List.mem_cons, List.mem_cons, mem_kreplace hnd.2 hkl]
      constructor
      · rintro (h | h | ⟨hne, h⟩)
        · exact Or.inr ⟨by rw [h]; exact fun h' => hkk h'.symm, Or.inl h⟩
        · exact Or.inl h
        · exact Or.inr ⟨hne, Or.inr h⟩
      · rintro (h | ⟨hne, h | h⟩)
        · exact Or.inr (Or.inl h)
        · exact Or.inl h
        · exact Or.inr (Or.inr ⟨hne, h⟩)

theorem get_set_self (m : Map κ ν) (k : κ) (v : ν) : (m.set k v).get k = some v := by
  by_cases hk : k ∈ m
  · rw [set, if_pos hk, get_eq_some_iff]
    exact (mem_kreplace m.nodupKeys hk).mpr (Or.inl rfl)
  · rw [set, if_neg hk]
    exact AList.lookup_insert m

theorem get_set_ne (m : Map κ ν) {k k' : κ} (v : ν) (h : k' ≠ k) :
    (m.set k v).get k' = m.get k' := by
  by_cases hk : k ∈ m
  · rw [set, if_pos hk]
    refine get_congr (fun w => ?_)
    refine (mem_kreplace m.nodupKeys hk).trans ⟨?_, fun hm => Or.inr ⟨h, hm⟩⟩
    rintro (he | ⟨-, hm⟩)
    · exact absurd (congrArg Sigma.fst he) h
    · exact hm
  · rw [set, if_neg hk]
    exact AList.lookup_insert_ne h

theorem get_set (m : Map κ ν) (k k' : κ) (v : ν) :
    (m.set k v).get k' = if k' = k then some v else m.get k' := by
  split
  · rename_i h; rw [h, get_set_self]
  · rename_i h; exact get_set_ne m v h

@[simp] theorem mem_set {m : Map κ ν} {k k' : κ} {v : ν} :
    k' ∈ m.set k v ↔ k' = k ∨ k' ∈ m := by
  rw [set]
  split
  · rename_i hk
    rw [AList.mem_replace]
    exact ⟨Or.inr, fun h => h.elim (fun h => h ▸ hk) id⟩
  · exact AList.mem_insert m

/-! ### Removing and updating -/

theorem get_erase (m : Map κ ν) (k k' : κ) :
    (m.erase k).get k' = if k' = k then none else m.get k' := by
  split
  · rename_i h
    exact h ▸ AList.lookup_erase k m
  · rename_i h
    exact AList.lookup_erase_ne h

theorem get_retain (p : κ → ν → Bool) (m : Map κ ν) (k : κ) :
    (m.retain p).get k = (m.get k).filter (p k) := by
  ext v
  rw [Option.filter_eq_some_iff, get_eq_some_iff, get_eq_some_iff, retain, List.mem_filter]

/-- A retain that looks at the keys alone. -/
theorem get_retain_key (p : κ → Bool) (m : Map κ ν) (k : κ) :
    (m.retain (fun k _ => p k)).get k = if p k then m.get k else none := by
  rw [get_retain]
  cases m.get k with
  | none => simp
  | some v => rw [Option.filter_some]

theorem get_mapVal (f : κ → ν → ν) (m : Map κ ν) (k : κ) :
    (m.mapVal f).get k = (m.get k).map (f k) := by
  ext v
  rw [Option.map_eq_some_iff, get_eq_some_iff, mapVal, List.mem_map]
  constructor
  · rintro ⟨⟨k', w⟩, he, heq⟩
    simp only [Sigma.mk.injEq, heq_eq_eq] at heq
    obtain ⟨rfl, rfl⟩ := heq
    exact ⟨w, get_eq_some_iff.mpr he, rfl⟩
  · rintro ⟨w, hw, rfl⟩
    exact ⟨⟨k, w⟩, get_eq_some_iff.mp hw, rfl⟩

/-- An update that changes no value held changes nothing. -/
theorem mapVal_eq_self {f : κ → ν → ν} {m : Map κ ν} (h : ∀ k v, m.get k = some v → f k v = v) :
    m.mapVal f = m := by
  refine AList.ext ?_
  have hid : ∀ e ∈ m.entries, (⟨e.1, f e.1 e.2⟩ : Σ _ : κ, ν) = id e := by
    intro e he
    rw [h e.1 e.2 (get_eq_some_iff.mpr he)]
    rfl
  show m.entries.map (fun e => (⟨e.1, f e.1 e.2⟩ : Σ _ : κ, ν)) = m.entries
  rw [List.map_congr_left hid, List.map_id]

/-! ### Storing in a loop -/

/-- A loop that stores: under a key is the last value stored there. -/
theorem get_foldl_set {α : Type*} (key : α → κ) (val : α → ν) (l : List α)
    (m : Map κ ν) (k : κ) : (l.foldl (fun m a => m.set (key a) (val a)) m).get k =
      ((lastSuch (fun a => key a = k) l).map val).or (m.get k) := by
  induction l using List.reverseRecOn with
  | nil => rfl
  | append_singleton l a ih =>
    rw [List.foldl_concat, get_set, lastSuch_concat, ih]
    by_cases hk : key a = k
    · simp [hk]
    · simp [hk, Ne.symm hk]

/-- Storing all of a map's pairs gives a map that looks the same. -/
theorem get_foldl_pairs (m : Map κ ν) (k : κ) :
    (m.pairs.foldl (fun acc e => acc.set e.1 e.2) (∅ : Map κ ν)).get k = m.get k := by
  rw [get_foldl_set, get_empty, Option.or_none]
  cases hlast : lastSuch (fun e : κ × ν => e.1 = k) m.pairs with
  | none =>
    -- no pair has the key
    symm
    rw [Option.map_none, Option.eq_none_iff_forall_ne_some]
    intro v hv
    exact lastSuch_eq_none_iff.mp hlast (k, v) (mem_pairs.mpr hv) (decide_eq_true rfl)
  | some e =>
    obtain ⟨hmem, hk⟩ := mem_of_lastSuch hlast
    obtain rfl := of_decide_eq_true hk
    exact (mem_pairs.mp hmem).symm

end Map

end Lib
