import Mielofon.Lib.Map
import Mielofon.Proto

namespace Mielofon

open Lib

/-!
# The last-write-wins store

`LwwStore` holds the derived record of every link and the node directory (`kv.rs`).  Both
maps are replicated by gossip and merged by timestamp.

* `LwwStore.put`, `LwwStore.merge` — the two ways a record enters the store; an equal or
  newer timestamp wins;
* `LwwStore.setNode`, `LwwStore.mergeNodes` — the same for the directory;
* `LwwStore.prune` — drops the records older than a grace;
* `get_merge_of_nodup` — what a merge of one record for each key leaves under a key;
* `get_prune` — what a prune leaves under a key.
-/

/-- Quality class assigned by the controller from thresholds. -/
inductive Quality where
  | good
  | acceptable
  | poor
  | bad
deriving DecidableEq, Repr

/-- The shape of a link's passive loss over the classifier's loss window. -/
inductive Regime where
  | clean
  | sparse
  | bursty
  | size_selective
  | under_test
deriving DecidableEq, Repr

/-- A per-link quality/policy record, last-write-wins by `ts`. -/
structure QualityRecord (F : Type*) where
  ts : ℕ
  rtt_ms : Option F
  loss_pct : Option F
  jitter_ms : Option F
  tcp_mbps : Option F
  udp_mbps : Option F
  udp_jitter_ms : Option F
  udp_loss_pct : Option F
  util_mbps : F
  state : ProbeState
  quality : Option Quality
  ospf_cost : Option ℕ
  mark_loss_pct : Option F
  mark_rate_mbps : Option F
  implied_tcp_mbps : Option F
  regime : Option Regime
deriving DecidableEq, Repr

/-- A node known by router id: the name it registered under, last-write-wins by `ts`. -/
structure NodeEntry where
  name : String
  ts : ℕ
  links : List LinkKey
deriving DecidableEq, Repr

/-- The records by link and the node directory by router id. -/
structure LwwStore (F : Type*) where
  inner : Map LinkKey (QualityRecord F)
  nodes : Map String NodeEntry

variable {F : Type*}

namespace LwwStore

/-- The empty store. -/
def new : LwwStore F := ⟨∅, ∅⟩

/-- Insert or overwrite by timestamp: an equal or newer `ts` wins.  The flag is false when an
    older record was rejected. -/
def put (s : LwwStore F) (key : LinkKey) (rec : QualityRecord F) : LwwStore F × Bool :=
  if (s.inner.get key).any (fun prev => rec.ts < prev.ts) then (s, false)
  else ({ s with inner := s.inner.set key rec }, true)

/-- The record of a link. -/
def get (s : LwwStore F) (key : LinkKey) : Option (QualityRecord F) := s.inner.get key

/-- Every record with its key. -/
def all (s : LwwStore F) : List (LinkKey × QualityRecord F) := s.inner.pairs

/-- One record of a peer's view: kept when it is at least as new as the one held. -/
def mergeOne (s : LwwStore F) (kv : LinkKey × QualityRecord F) : LwwStore F :=
  if ((s.inner.get kv.1).map QualityRecord.ts).getD 0 ≤ kv.2.ts then
    { s with inner := s.inner.set kv.1 kv.2 }
  else s

/-- Merge a peer's records. -/
def merge (s : LwwStore F) (records : List (LinkKey × QualityRecord F)) : LwwStore F :=
  records.foldl mergeOne s

/-- Record that `rid` registered as `name` with `links` at `ts`.  The flag tells whether the
    directory changed. -/
def setNode (s : LwwStore F) (rid name : String) (links : List LinkKey) (ts : ℕ) :
    LwwStore F × Bool :=
  let entry : NodeEntry := ⟨name, ts, links⟩
  match s.nodes.get rid with
  | some prev =>
    if prev.ts > ts then (s, false)
    else if prev.ts = ts ∧ prev.name = entry.name ∧ prev.links = entry.links then (s, false)
    else ({ s with nodes := s.nodes.set rid entry }, true)
  | none => ({ s with nodes := s.nodes.set rid entry }, true)

/-- The directory entry of `rid`. -/
def node (s : LwwStore F) (rid : String) : Option NodeEntry := s.nodes.get rid

/-- The name registered for `rid`, if any member has seen it. -/
def nodeName (s : LwwStore F) (rid : String) : Option String := (s.node rid).map NodeEntry.name

/-- Every directory entry with its router id. -/
def allNodes (s : LwwStore F) : List (String × NodeEntry) := s.nodes.pairs

/-- Whether a peer's directory entry replaces the one held. -/
def nodeNewer (held : Option NodeEntry) (e : NodeEntry) : Bool :=
  match held with
  | some prev => e.ts > prev.ts || (e.ts == prev.ts && (e.name != prev.name || e.links != prev.links))
  | none => true

/-- One entry of a peer's directory. -/
def mergeNode (s : LwwStore F × Bool) (ne : String × NodeEntry) : LwwStore F × Bool :=
  if nodeNewer (s.1.nodes.get ne.1) ne.2 then
    ({ s.1 with nodes := s.1.nodes.set ne.1 ne.2 }, true)
  else s

/-- Merge a peer's directory.  The flag tells whether anything changed. -/
def mergeNodes (s : LwwStore F) (nodes : List (String × NodeEntry)) : LwwStore F × Bool :=
  nodes.foldl mergeNode (s, false)

/-- Drop the records older than `max_age_secs`. -/
def prune (s : LwwStore F) (now_secs max_age_secs : ℕ) : LwwStore F :=
  { s with inner := s.inner.retain (fun _ v => now_secs - v.ts ≤ max_age_secs) }

/-! ### What the operations leave under a key -/

theorem get_put_of_ne (s : LwwStore F) {key k : LinkKey} (rec : QualityRecord F) (h : k ≠ key) :
    (s.put key rec).1.get k = s.get k := by
  unfold put
  split
  · rfl
  · exact Map.get_set_ne s.inner rec h

/-- A merged record of `k` replaces the one held unless it is older. -/
theorem get_mergeOne (s : LwwStore F) (kv : LinkKey × QualityRecord F) (k : LinkKey) :
    (s.mergeOne kv).get k =
      if k = kv.1 ∧ ((s.get kv.1).map QualityRecord.ts).getD 0 ≤ kv.2.ts then some kv.2
      else s.get k := by
  unfold mergeOne LwwStore.get
  by_cases hts : ((s.inner.get kv.1).map QualityRecord.ts).getD 0 ≤ kv.2.ts
  · simp only [hts, if_true, Map.get_set, and_true]
  · simp only [hts, and_false, if_false]

@[simp] theorem merge_nil (s : LwwStore F) : s.merge [] = s := rfl

@[simp] theorem merge_cons (s : LwwStore F) (kv : LinkKey × QualityRecord F)
    (l : List (LinkKey × QualityRecord F)) : s.merge (kv :: l) = (s.mergeOne kv).merge l := rfl

/-- A record held after a merge was held before it or came with it. -/
theorem get_merge_cases {s : LwwStore F} {l : List (LinkKey × QualityRecord F)} {k : LinkKey}
    {r : QualityRecord F} (h : (s.merge l).get k = some r) : s.get k = some r ∨ (k, r) ∈ l := by
  induction l generalizing s with
  | nil => exact Or.inl h
  | cons kv l ih =>
    rcases ih h with hs | hl
    · rw [get_mergeOne] at hs
      split at hs
      · rename_i hk
        obtain ⟨rfl, -⟩ := hk
        obtain rfl := Option.some.inj hs
        exact Or.inr List.mem_cons_self
      · exact Or.inl hs
    · exact Or.inr (List.mem_cons_of_mem _ hl)

/-- Records of other keys leave a key alone. -/
theorem get_merge_of_notMem {s : LwwStore F} {l : List (LinkKey × QualityRecord F)} {k : LinkKey}
    (h : k ∉ l.map Prod.fst) : (s.merge l).get k = s.get k := by
  induction l generalizing s with
  | nil => rfl
  | cons kv l ih =>
    simp only [List.map_cons, List.mem_cons, not_or] at h
    rw [merge_cons, ih h.2, get_mergeOne, if_neg (fun hk => h.1 hk.1)]

/-- A view with one record for each key leaves, under the key of each of its records, that
    record or the newer one held before. -/
theorem get_merge_of_nodup {s : LwwStore F} {l : List (LinkKey × QualityRecord F)} {k : LinkKey}
    {r : QualityRecord F} (hnd : (l.map Prod.fst).Nodup) (hr : (k, r) ∈ l) :
    (s.merge l).get k =
      if ((s.get k).map QualityRecord.ts).getD 0 ≤ r.ts then some r else s.get k := by
  induction l generalizing s with
  | nil => exact absurd hr List.not_mem_nil
  | cons kv l ih =>
    simp only [List.map_cons, List.nodup_cons] at hnd
    rcases List.mem_cons.mp hr with rfl | hmem
    · -- the record itself: nothing later in the view has its key
      rw [merge_cons, get_merge_of_notMem hnd.1, get_mergeOne]
      simp only [true_and]
    · have hne : k ≠ kv.1 := fun hk =>
        hnd.1 (hk ▸ List.mem_map_of_mem (f := Prod.fst) hmem)
      have hs : (s.mergeOne kv).get k = s.get k := by
        rw [get_mergeOne, if_neg (fun hk => hne hk.1)]
      rw [merge_cons, ih hnd.2 hmem, hs]

/-- The directory operations leave the records alone. -/
@[simp] theorem mergeNodes_inner (s : LwwStore F) (nodes : List (String × NodeEntry)) :
    (s.mergeNodes nodes).1.inner = s.inner := by
  suffices h : ∀ (p : LwwStore F × Bool), (nodes.foldl mergeNode p).1.inner = p.1.inner from
    h (s, false)
  intro p
  induction nodes generalizing p with
  | nil => rfl
  | cons ne nodes ih =>
    rw [List.foldl_cons, ih, mergeNode]
    split <;> rfl

@[simp] theorem mergeNodes_get (s : LwwStore F) (nodes : List (String × NodeEntry))
    (k : LinkKey) : (s.mergeNodes nodes).1.get k = s.get k := by
  simp only [LwwStore.get, mergeNodes_inner]

@[simp] theorem setNode_get (s : LwwStore F) (rid name : String) (links : List LinkKey) (ts : ℕ)
    (k : LinkKey) : (s.setNode rid name links ts).1.get k = s.get k := by
  unfold setNode LwwStore.get
  cases s.nodes.get rid with
  | none => rfl
  | some prev => dsimp only; split <;> [rfl; split <;> rfl]

theorem get_prune (s : LwwStore F) (now grace : ℕ) (k : LinkKey) :
    (s.prune now grace).get k = (s.get k).filter (fun r => now - r.ts ≤ grace) :=
  Map.get_retain _ s.inner k

/-- A record older than the grace is gone after a prune. -/
theorem get_prune_of_expired {s : LwwStore F} {now grace : ℕ} {k : LinkKey} {r : QualityRecord F}
    (hr : s.get k = some r) (hold : grace < now - r.ts) : (s.prune now grace).get k = none := by
  rw [get_prune, hr, Option.filter_some, if_neg (by rw [decide_eq_true_eq]; omega)]

theorem get_prune_cases {s : LwwStore F} {now grace : ℕ} {k : LinkKey} {r : QualityRecord F}
    (h : (s.prune now grace).get k = some r) : s.get k = some r := by
  rw [get_prune, Option.filter_eq_some_iff] at h
  exact h.1

end LwwStore

end Mielofon
