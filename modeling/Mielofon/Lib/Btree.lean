import Mathlib.Data.List.Sort
import Mathlib.Data.String.Basic
import Mielofon.Lib.Map
import Mielofon.Lib.Record

namespace Lib

/-!
# Ordered maps as sorted lists

An ordered map iterates over its entries in the order of the keys.  What pairs inserted one after the
other leave of it is a sorted list without repeated keys, with the last value of each.

* `btree` — the entries after a list of pairs has been inserted;
* `pairwise_btree` — they are in strictly ascending order of the keys;
* `btree_eq_self` — a list in that order is its own map;
* `Codec.btree` — an ordered map as an object.
-/

variable {κ ν : Type*} [LinearOrder κ]

/-- The entries of an ordered map after a list of pairs was inserted. -/
def btree (l : List (κ × ν)) : List (κ × ν) :=
  (l.foldl (fun m e => m.set e.1 e.2) (∅ : Map κ ν)).pairs.insertionSort (fun a b => a.1 ≤ b.1)

theorem pairwise_btree (l : List (κ × ν)) : (btree l).Pairwise (fun a b => a.1 < b.1) := by
  set m := l.foldl (fun m e => m.set e.1 e.2) (∅ : Map κ ν) with hm
  have hle : (btree l).Pairwise (fun a b => a.1 ≤ b.1) := List.pairwise_insertionSort _ _
  have hnodup : ((btree l).map Prod.fst).Nodup := by
    have hperm : (btree l).Perm m.pairs := List.perm_insertionSort _ _
    exact ((hperm.map Prod.fst).nodup_iff).mpr m.nodup_pairs_keys
  have hne : (btree l).Pairwise (fun a b => a.1 ≠ b.1) := List.pairwise_map.mp hnodup
  exact hle.imp₂ (fun _ _ h h' => lt_of_le_of_ne h h') hne

/-- In a list of distinct keys the last pair of a key is any pair of it. -/
theorem lastSuch_of_nodup {l : List (κ × ν)} (hnodup : (l.map Prod.fst).Nodup) {e : κ × ν}
    (he : e ∈ l) : lastSuch (fun p => p.1 = e.1) l = some e := by
  cases hlast : lastSuch (fun p : κ × ν => p.1 = e.1) l with
  | none => exact absurd (decide_eq_true rfl) (lastSuch_eq_none_iff.mp hlast e he)
  | some p =>
    obtain ⟨hp, hkey⟩ := mem_of_lastSuch hlast
    rw [List.inj_on_of_nodup_map hnodup hp he (of_decide_eq_true hkey)]

theorem btree_eq_self {l : List (κ × ν)} (h : l.Pairwise (fun a b => a.1 < b.1)) :
    btree l = l := by
  have hnodup : (l.map Prod.fst).Nodup := List.pairwise_map.mpr (h.imp fun hlt => hlt.ne)
  have hmem : ∀ e, e ∈ btree l ↔ e ∈ l := by
    intro e
    rw [btree, List.mem_insertionSort, Map.mem_pairs, Map.get_foldl_set, Map.get_empty,
      Option.or_none, Option.map_eq_some_iff]
    constructor
    · rintro ⟨p, hlast, hval⟩
      obtain ⟨hp, hkey⟩ := mem_of_lastSuch hlast
      rwa [← Prod.ext (of_decide_eq_true hkey) hval]
    · exact fun he => ⟨e, lastSuch_of_nodup hnodup he, rfl⟩
  have hsorted := pairwise_btree l
  have hperm : (btree l).Perm l := by
    refine (List.perm_ext_iff_of_nodup ?_ hnodup.of_map).mpr hmem
    exact hsorted.imp fun hlt heq => absurd (congrArg Prod.fst heq) hlt.ne
  exact hperm.eq_of_pairwise (fun a b _ _ hab hba => absurd hab hba.asymm) hsorted h

/-- An ordered map with names as keys is an object; a name that is repeated keeps its last value. -/
def Codec.btree {T α : Type*} (c : Codec T α) : Codec T (List (String × α)) where
  write l := .obj (l.map (fun e => (e.1, c.write e.2)))
  read
    | .obj fields =>
      (fields.mapM fun (e : String × Doc T) => (c.read e.2).map (Prod.mk e.1)).map Lib.btree
    | _ => none
  arrive l := (l.mapM fun (e : String × α) => (c.arrive e.2).map (Prod.mk e.1)).map Lib.btree
  read_write l := by
    simp only [List.mapM_map, Function.comp_def, c.read_write]

end Lib
