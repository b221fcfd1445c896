import Mathlib
import Mielofon.Kv
import Mielofon.Lib.LastWriter

namespace Mielofon

open Lib

/-!
# Convergence of the record store

Members learn the same records and directory entries along different paths: in other batches,
in another order, some of them more than once.  Under each key the store is a last-writer-wins
register, in which of two entries with one timestamp the later arrival wins.

* `Delivery`, `LwwStore.deliver` — one batch of records or of directory entries;
* `get_merge`, `node_mergeNodes` — a key holds what a register of its entries would;
* `converges_iff` — two members that merged the same entries agree, in every case, exactly when
  every key has one newest entry only;
* `tie_diverges` — two records of one second.
-/

variable {F : Type*}

/-- The entries of a list for one key. -/
def entriesOf {κ α : Type*} [DecidableEq κ] (k : κ) (l : List (κ × α)) : List α :=
  (l.filter (fun p => p.1 = k)).map Prod.snd

theorem mem_entriesOf {κ α : Type*} [DecidableEq κ] {k : κ} {l : List (κ × α)} {a : α} :
    a ∈ entriesOf k l ↔ (k, a) ∈ l := by
  simp only [entriesOf, List.mem_map, List.mem_filter, decide_eq_true_eq]
  constructor
  · rintro ⟨⟨k', a'⟩, ⟨hmem, rfl⟩, rfl⟩
    exact hmem
  · exact fun h => ⟨(k, a), ⟨h, rfl⟩, rfl⟩

theorem mem_entriesOf_congr {κ α : Type*} [DecidableEq κ] {l l' : List (κ × α)} (k : κ)
    (h : ∀ p, p ∈ l ↔ p ∈ l') (a : α) : a ∈ entriesOf k l ↔ a ∈ entriesOf k l' := by
  rw [mem_entriesOf, mem_entriesOf, h]

theorem entriesOf_append {κ α : Type*} [DecidableEq κ] (k : κ) (l l' : List (κ × α)) :
    entriesOf k (l ++ l') = entriesOf k l ++ entriesOf k l' := by
  simp only [entriesOf, List.filter_append, List.map_append]

theorem entriesOf_concat {κ α : Type*} [DecidableEq κ] (k : κ) (l : List (κ × α)) (p : κ × α) :
    entriesOf k (l ++ [p]) = if p.1 = k then entriesOf k l ++ [p.2] else entriesOf k l := by
  rw [entriesOf_append]
  by_cases hp : p.1 = k
  · simp [entriesOf, hp]
  · simp [entriesOf, hp]

namespace LwwStore

/-! ### Merging record by record -/

theorem get_mergeOne_eq (s : LwwStore F) (kv : LinkKey × QualityRecord F) (k : LinkKey) :
    (s.mergeOne kv).get k = if kv.1 = k then write QualityRecord.ts (s.get k) kv.2 else s.get k := by
  rw [get_mergeOne]
  unfold write
  by_cases hk : kv.1 = k
  · subst hk
    simp only [true_and, if_true]
  · rw [if_neg hk, if_neg (fun h => hk h.1.symm)]

/-- A merge writes the records of a key in their order. -/
theorem get_merge (s : LwwStore F) (l : List (LinkKey × QualityRecord F)) (k : LinkKey) :
    (s.merge l).get k = (entriesOf k l).foldl (write QualityRecord.ts) (s.get k) := by
  induction l using List.reverseRecOn with
  | nil => rfl
  | append_singleton l kv ih =>
    have hlast : s.merge (l ++ [kv]) = (s.merge l).mergeOne kv := by
      unfold merge
      rw [List.foldl_append]
      rfl
    rw [hlast, get_mergeOne_eq, ih, entriesOf_concat]
    split
    · rw [List.foldl_append]
      rfl
    · rfl

/-- A directory entry that is not taken is older than the one held, or is that one. -/
theorem nodeNewer_eq (held : Option NodeEntry) (e : NodeEntry) :
    (if nodeNewer held e then some e else held) = write NodeEntry.ts held e := by
  cases held with
  | none => rfl
  | some prev =>
    unfold nodeNewer write
    simp only [Option.map_some, Option.getD_some]
    by_cases hlt : prev.ts < e.ts
    · rw [if_pos (by simp [hlt]), if_pos hlt.le]
    · by_cases heq : e.ts = prev.ts
      · by_cases hsame : e.name = prev.name ∧ e.links = prev.links
        · have hent : e = prev := by
            cases e
            cases prev
            simp only at heq hsame
            rw [heq, hsame.1, hsame.2]
          rw [hent, if_pos (le_refl _)]
          split <;> rfl
        · rw [if_pos heq.ge, if_pos]
          rw [not_and_or] at hsame
          simpa [heq] using hsame
      · rw [if_neg (by simp [hlt, heq]), if_neg (by omega)]

theorem node_mergeNode (s : LwwStore F × Bool) (ne : String × NodeEntry) (rid : String) :
    (mergeNode s ne).1.node rid =
      if ne.1 = rid then write NodeEntry.ts (s.1.node rid) ne.2 else s.1.node rid := by
  unfold mergeNode
  by_cases hrid : ne.1 = rid
  · subst hrid
    rw [if_pos rfl, ← nodeNewer_eq]
    show LwwStore.node (Prod.fst (if nodeNewer (s.1.node ne.1) ne.2 then _ else s)) ne.1 = _
    split
    · exact Map.get_set_self _ _ _
    · rfl
  · rw [if_neg hrid]
    split
    · exact Map.get_set_ne _ _ (Ne.symm hrid)
    · rfl

/-- A merge writes the directory entries of a router id in their order. -/
theorem node_mergeNodes (s : LwwStore F) (l : List (String × NodeEntry)) (rid : String) :
    (s.mergeNodes l).1.node rid =
      (entriesOf rid l).foldl (write NodeEntry.ts) (s.node rid) := by
  induction l using List.reverseRecOn with
  | nil => rfl
  | append_singleton l ne ih =>
    have hlast : s.mergeNodes (l ++ [ne]) = mergeNode (s.mergeNodes l) ne := by
      unfold mergeNodes
      rw [List.foldl_append]
      rfl
    rw [hlast, node_mergeNode, ih, entriesOf_concat]
    split
    · rw [List.foldl_append]
      rfl
    · rfl

theorem merge_nodes (s : LwwStore F) (l : List (LinkKey × QualityRecord F)) :
    (s.merge l).nodes = s.nodes := by
  induction l generalizing s with
  | nil => rfl
  | cons kv l ih =>
    rw [merge_cons, ih]
    unfold mergeOne
    split <;> rfl

end LwwStore

/-! ### Deliveries -/

/-- One batch a member merges. -/
inductive Delivery (F : Type*) where
  | records (l : List (LinkKey × QualityRecord F))
  | nodes (l : List (String × NodeEntry))

namespace Delivery

/-- The records of a batch. -/
def recordList : Delivery F → List (LinkKey × QualityRecord F)
  | records l => l
  | nodes _ => []

/-- The directory entries of a batch. -/
def nodeList : Delivery F → List (String × NodeEntry)
  | records _ => []
  | nodes l => l

end Delivery

namespace LwwStore

/-- Merge one batch. -/
def deliver (s : LwwStore F) : Delivery F → LwwStore F
  | .records l => s.merge l
  | .nodes l => (s.mergeNodes l).1

/-- The same record under every link and the same directory entry under every router id. -/
def SameMaps (s s' : LwwStore F) : Prop :=
  (∀ k, s.get k = s'.get k) ∧ ∀ rid, s.node rid = s'.node rid

/-- After any batches a key holds what a register of its entries would. -/
theorem get_deliveries (ds : List (Delivery F)) (k : LinkKey) :
    (ds.foldl deliver LwwStore.new).get k =
      register QualityRecord.ts (entriesOf k (ds.flatMap Delivery.recordList)) := by
  induction ds using List.reverseRecOn with
  | nil => rfl
  | append_singleton ds d ih =>
    rw [List.foldl_append, List.flatMap_append, entriesOf_append, register, List.foldl_append]
    show (deliver (ds.foldl deliver LwwStore.new) d).get k = _
    cases d with
    | records l =>
      show (LwwStore.merge _ l).get k = _
      rw [get_merge, ih]
      simp [register, Delivery.recordList]
    | nodes l =>
      show (LwwStore.mergeNodes _ l).1.get k = _
      rw [mergeNodes_get, ih]
      simp [register, Delivery.recordList, entriesOf]

theorem node_deliveries (ds : List (Delivery F)) (rid : String) :
    (ds.foldl deliver LwwStore.new).node rid =
      register NodeEntry.ts (entriesOf rid (ds.flatMap Delivery.nodeList)) := by
  induction ds using List.reverseRecOn with
  | nil => rfl
  | append_singleton ds d ih =>
    rw [List.foldl_append, List.flatMap_append, entriesOf_append, register, List.foldl_append]
    show (deliver (ds.foldl deliver LwwStore.new) d).node rid = _
    cases d with
    | records l =>
      have hnodes : (LwwStore.merge (ds.foldl deliver LwwStore.new) l).node rid =
          (ds.foldl deliver LwwStore.new).node rid :=
        congrArg (fun m => Map.get m rid) (merge_nodes _ l)
      show (LwwStore.merge _ l).node rid = _
      rw [hnodes, ih]
      simp [register, Delivery.nodeList, entriesOf]
    | nodes l =>
      show (LwwStore.mergeNodes _ l).1.node rid = _
      rw [node_mergeNodes, ih]
      simp [register, Delivery.nodeList]

end LwwStore

/-- The batches contain the given records and directory entries and no others. -/
def Delivers (ds : List (Delivery F)) (records : List (LinkKey × QualityRecord F))
    (nodes : List (String × NodeEntry)) : Prop :=
  (∀ p, p ∈ ds.flatMap Delivery.recordList ↔ p ∈ records) ∧
    ∀ p, p ∈ ds.flatMap Delivery.nodeList ↔ p ∈ nodes

/-- Under every key, one entry only has the newest timestamp. -/
def OneNewest {κ α : Type*} [DecidableEq κ] (stamp : α → ℕ) (l : List (κ × α)) : Prop :=
  ∀ k a b, Newest stamp (entriesOf k l) a → Newest stamp (entriesOf k l) b → a = b

/-- Batches of one list each deliver these lists. -/
private theorem delivers_pair (records : List (LinkKey × QualityRecord F))
    (nodes : List (String × NodeEntry)) :
    Delivers [.records records, .nodes nodes] records nodes := by
  simp [Delivers, Delivery.recordList, Delivery.nodeList]

/-- A list of the entries of a key, taken as the arrivals of that key, with the others. -/
private theorem exists_arrivals {κ α : Type*} [DecidableEq κ] {k : κ} {l : List (κ × α)}
    {l₁ : List α} (h : ∀ x, x ∈ l₁ ↔ x ∈ entriesOf k l) :
    ∃ l' : List (κ × α), (∀ p, p ∈ l' ↔ p ∈ l) ∧ entriesOf k l' = l₁ := by
  refine ⟨l.filter (fun p => p.1 ≠ k) ++ l₁.map (fun a => (k, a)), fun p => ?_, ?_⟩
  · rw [List.mem_append, List.mem_filter, List.mem_map]
    constructor
    · rintro (⟨hp, -⟩ | ⟨a, ha, rfl⟩)
      · exact hp
      · exact mem_entriesOf.mp ((h a).mp ha)
    · intro hp
      by_cases hk : p.1 = k
      · exact Or.inr ⟨p.2, (h p.2).mpr (mem_entriesOf.mpr (hk ▸ hp)), hk ▸ rfl⟩
      · exact Or.inl ⟨hp, by simpa using hk⟩
  · rw [entriesOf_append]
    have hnone : entriesOf k (l.filter (fun p => p.1 ≠ k)) = [] := by
      simp [entriesOf, List.filter_filter]
    have hall : entriesOf k (l₁.map (fun a => (k, a))) = l₁ := by
      simp [entriesOf, List.filter_map, Function.comp_def]
    rw [hnone, hall, List.nil_append]

/-- **When members converge.** Any two members that have merged the same records and directory
    entries, in any order, batches and number of repetitions, hold the same maps, if and only
    if every link and every router id has one newest entry only. -/
theorem converges_iff (records : List (LinkKey × QualityRecord F))
    (nodes : List (String × NodeEntry)) :
    (∀ ds ds' : List (Delivery F), Delivers ds records nodes → Delivers ds' records nodes →
      (ds.foldl LwwStore.deliver LwwStore.new).SameMaps
        (ds'.foldl LwwStore.deliver LwwStore.new)) ↔
      OneNewest QualityRecord.ts records ∧ OneNewest NodeEntry.ts nodes := by
  constructor
  · intro hall
    refine ⟨fun k => (register_converges_iff _).mp fun l₁ l₂ h₁ h₂ => ?_,
      fun rid => (register_converges_iff _).mp fun l₁ l₂ h₁ h₂ => ?_⟩
    · -- a register on its own is a delivery that holds the rest as it was listed
      obtain ⟨r₁, hr₁, he₁⟩ := exists_arrivals h₁
      obtain ⟨r₂, hr₂, he₂⟩ := exists_arrivals h₂
      have hd := delivers_pair (F := F) r₁ nodes
      have hd' := delivers_pair (F := F) r₂ nodes
      have hsame := (hall _ _ ⟨fun p => (hd.1 p).trans (hr₁ p), hd.2⟩
        ⟨fun p => (hd'.1 p).trans (hr₂ p), hd'.2⟩).1 k
      rw [LwwStore.get_deliveries, LwwStore.get_deliveries] at hsame
      simpa [Delivery.recordList, he₁, he₂] using hsame
    · obtain ⟨n₁, hn₁, he₁⟩ := exists_arrivals h₁
      obtain ⟨n₂, hn₂, he₂⟩ := exists_arrivals h₂
      have hd := delivers_pair (F := F) records n₁
      have hd' := delivers_pair (F := F) records n₂
      have hsame := (hall _ _ ⟨hd.1, fun p => (hd.2 p).trans (hn₁ p)⟩
        ⟨hd'.1, fun p => (hd'.2 p).trans (hn₂ p)⟩).2 rid
      rw [LwwStore.node_deliveries, LwwStore.node_deliveries] at hsame
      simpa [Delivery.nodeList, he₁, he₂] using hsame
  · rintro ⟨hrec, hnode⟩ ds ds' hd hd'
    refine ⟨fun k => ?_, fun rid => ?_⟩
    · rw [LwwStore.get_deliveries, LwwStore.get_deliveries]
      exact (register_converges_iff (entriesOf k records)).mpr (hrec k) _ _ (mem_entriesOf_congr k hd.1)
        (mem_entriesOf_congr k hd'.1)
    · rw [LwwStore.node_deliveries, LwwStore.node_deliveries]
      exact (register_converges_iff (entriesOf rid nodes)).mpr (hnode rid) _ _
        (mem_entriesOf_congr rid hd.2) (mem_entriesOf_congr rid hd'.2)

/-! ### Two records of one second -/

/-- A derived record of a link at second 60 with a class. -/
private def derivedAs (q : Quality) : LinkKey × QualityRecord ℕ :=
  (⟨"hub-a", "hub-b", "awg0"⟩,
    ⟨60, none, none, none, none, none, none, none, 0, .quiet, some q, none, none, none, none, none⟩)

/-- **A tie diverges.** Two members merge the same two records of one second in different
    orders and keep different ones. -/
theorem tie_diverges : ∃ ds ds' : List (Delivery ℕ),
    Delivers ds [derivedAs .good, derivedAs .bad] [] ∧
      Delivers ds' [derivedAs .good, derivedAs .bad] [] ∧
      ¬ (ds.foldl LwwStore.deliver LwwStore.new).SameMaps
        (ds'.foldl LwwStore.deliver LwwStore.new) := by
  refine ⟨[.records [derivedAs .good, derivedAs .bad]], [.records [derivedAs .bad, derivedAs .good]],
    ?_, ?_, fun hsame => ?_⟩
  · simp [Delivers, Delivery.recordList, Delivery.nodeList]
  · simp [Delivers, Delivery.recordList, Delivery.nodeList, or_comm]
  · exact absurd (hsame.1 ⟨"hub-a", "hub-b", "awg0"⟩) (by decide)

end Mielofon
