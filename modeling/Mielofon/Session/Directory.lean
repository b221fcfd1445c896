import Mielofon.Kv
import Mielofon.Lib.Folds
import Mielofon.Worker

namespace Mielofon

open Lib

/-!
# The node directory and the registry

`sync_directory` (`session.rs`) runs after every registration and after gossip has changed the
directory: it names the far ends of all links through the directory, and then republishes the
directory entry of every agent whose name or link set differs from it.

* `WorkerRegistry.entries`, `republish`, `syncDirectory` — the two halves, and the whole;
* `node_republish`, `node_syncDirectory` — what either leaves under a router id;
* `Synced` — entries, names and a second run, as they should be after one run;
* `Misnamed` — a neighbour the directory has under another name than its agent's;
* `settled_iff` — one run settles everything exactly if nobody is misnamed.
-/

variable {F : Type*}

/-- Every agent with a router id: router id, name, links. -/
def WorkerRegistry.entries (r : WorkerRegistry) : List (String × String × List LinkKey) :=
  r.inner.pairs.filterMap (fun e => e.2.router_id.map (fun rid => (rid, e.1, e.2.links)))

/-- Republish an agent's entry if it is missing or differs in name or links. -/
def republish (now : ℕ) (kv : LwwStore F) (x : String × String × List LinkKey) : LwwStore F :=
  if (kv.node x.1).all (fun e => e.name ≠ x.2.1 ∨ e.links ≠ x.2.2) then
    (kv.setNode x.1 x.2.1 x.2.2 now).1
  else kv

/-- Name every agent's peers through the directory, then republish the entries of the agents. -/
def syncDirectory (now : ℕ) (s : WorkerRegistry × LwwStore F) : WorkerRegistry × LwwStore F :=
  let workers := (s.1.resolvePeers s.2.nodeName).1
  (workers, workers.entries.foldl (republish now) s.2)

/-! ### What the two halves leave -/

theorem WorkerRegistry.mem_entries {r : WorkerRegistry} {rid name : String} {links : List LinkKey} :
    (rid, name, links) ∈ r.entries ↔
      ∃ w, r.worker name = some w ∧ w.router_id = some rid ∧ w.links = links := by
  simp only [entries, List.mem_filterMap, Option.map_eq_some_iff, Prod.mk.injEq, Prod.exists]
  constructor
  · rintro ⟨a, w, hmem, rid', hrid, rfl, rfl, rfl⟩
    exact ⟨w, Map.mem_pairs.mp hmem, hrid, rfl⟩
  · rintro ⟨w, hw, hrid, rfl⟩
    exact ⟨name, w, Map.mem_pairs.mpr hw, rid, hrid, rfl, rfl, rfl⟩

/-- Other router ids keep their entries. -/
theorem node_republish_of_ne (now : ℕ) (kv : LwwStore F) {x : String × String × List LinkKey}
    {rid : String} (h : x.1 ≠ rid) : (republish now kv x).node rid = kv.node rid := by
  unfold republish LwwStore.setNode LwwStore.node
  dsimp only
  split
  · split
    · split
      · rfl
      · split
        · rfl
        · exact Map.get_set_ne _ _ (Ne.symm h)
    · exact Map.get_set_ne _ _ (Ne.symm h)
  · rfl

/-- The entry of an agent has its name and links afterwards, unless it is dated later. -/
theorem node_republish {now : ℕ} {kv : LwwStore F} {x : String × String × List LinkKey}
    (hdated : ∀ e, kv.node x.1 = some e → e.ts ≤ now) :
    ∃ e, (republish now kv x).node x.1 = some e ∧ e.name = x.2.1 ∧ e.links = x.2.2 := by
  unfold republish
  cases hnode : kv.node x.1 with
  | none =>
    -- there was no entry
    have hget : kv.nodes.get x.1 = none := hnode
    refine ⟨⟨x.2.1, now, x.2.2⟩, ?_, rfl, rfl⟩
    rw [Option.all_none, if_pos rfl, LwwStore.setNode, hget]
    exact Map.get_set_self _ _ _
  | some e =>
    have hget : kv.nodes.get x.1 = some e := hnode
    have hts := hdated e hnode
    split
    · rename_i hdiffers
      rw [Option.all_some, decide_eq_true_eq] at hdiffers
      refine ⟨⟨x.2.1, now, x.2.2⟩, ?_, rfl, rfl⟩
      rw [LwwStore.setNode, hget]
      dsimp only
      -- neither guard of `set_node` stops it: the entry is not newer, and it differs
      rw [if_neg (by omega), if_neg (by rintro ⟨-, hname, hlinks⟩; simp_all)]
      exact Map.get_set_self _ _ _
    · rename_i hsame
      rw [Option.all_some, decide_eq_true_eq, not_or, not_not, not_not] at hsame
      exact ⟨e, hnode, hsame⟩

/-- An entry that has the agent's name and links is left alone. -/
theorem republish_eq_self (now : ℕ) {kv : LwwStore F} {x : String × String × List LinkKey}
    {e : NodeEntry} (h : kv.node x.1 = some e) (hname : e.name = x.2.1) (hlinks : e.links = x.2.2) :
    republish now kv x = kv := by
  rw [republish, h, if_neg]
  simp [hname, hlinks]

/-! ### What a run leaves -/

/-- A renamed registry has the agents it had, with their router ids and neighbours. -/
theorem worker_of_resolved {r : WorkerRegistry} {lookup : String → Option String} {a : String}
    {w : Worker} (h : (r.resolvePeers lookup).1.worker a = some w) :
    ∃ v, r.worker a = some v ∧ w.router_id = v.router_id ∧ w.peer_rids = v.peer_rids ∧
      w.links = v.links.map (WorkerRegistry.named v lookup) := by
  rw [WorkerRegistry.worker_resolvePeers, Option.map_eq_some_iff] at h
  obtain ⟨v, hv, rfl⟩ := h
  exact ⟨v, hv, rfl, rfl, rfl⟩

/-- The agents after a run: every link is named. -/
theorem worker_syncDirectory (now : ℕ) (r : WorkerRegistry) (kv : LwwStore F) (a : String) :
    (syncDirectory now (r, kv)).1.worker a = (r.worker a).map (fun w =>
      { w with links := w.links.map (WorkerRegistry.named w kv.nodeName) }) :=
  WorkerRegistry.worker_resolvePeers r kv.nodeName a

/-- Router ids are unique among the agents. -/
def WorkerRegistry.UniqueIds (r : WorkerRegistry) : Prop :=
  ∀ a b w v rid, r.worker a = some w → r.worker b = some v → w.router_id = some rid →
    v.router_id = some rid → a = b

theorem WorkerRegistry.UniqueIds.resolved {r : WorkerRegistry} (h : r.UniqueIds)
    (lookup : String → Option String) : (r.resolvePeers lookup).1.UniqueIds := by
  intro a b w v rid hw hv hwr hvr
  obtain ⟨w₀, hw₀, hwr₀, -⟩ := worker_of_resolved hw
  obtain ⟨v₀, hv₀, hvr₀, -⟩ := worker_of_resolved hv
  exact h a b w₀ v₀ rid hw₀ hv₀ (hwr₀ ▸ hwr) (hvr₀ ▸ hvr)

/-- Unique router ids are entries without a repetition. -/
theorem WorkerRegistry.uniqueIds_iff {r : WorkerRegistry} :
    r.UniqueIds ↔ (r.entries.map Prod.fst).Nodup := by
  constructor
  · intro h
    have hpairs : r.inner.pairs.Pairwise (fun e e' => e.1 ≠ e'.1) :=
      List.pairwise_map.mp r.inner.nodup_pairs_keys
    rw [List.Nodup, List.pairwise_map, entries, List.pairwise_filterMap]
    refine hpairs.imp_of_mem ?_
    rintro ⟨a, w⟩ ⟨b, v⟩ ha hb hne ⟨rid, x⟩ hx ⟨rid', y⟩ hy heq
    simp only [Option.map_eq_some_iff, Prod.mk.injEq] at hx hy heq
    obtain ⟨rid, hw, rfl, -⟩ := hx
    obtain ⟨rid', hv, rfl, -⟩ := hy
    exact hne (h a b w v rid (Map.mem_pairs.mp ha) (Map.mem_pairs.mp hb) hw (heq ▸ hv))
  · intro h a b w v rid hw hv hwr hvr
    have ha := mem_entries.mpr ⟨w, hw, hwr, rfl⟩
    have hb := mem_entries.mpr ⟨v, hv, hvr, rfl⟩
    exact congrArg (fun x => x.2.1) (List.inj_on_of_nodup_map h ha hb rfl)

section Sync

variable {now : ℕ} {r : WorkerRegistry} {kv : LwwStore F}

/-- **The entry of an agent** after a run has its name and its current links. -/
theorem node_of_agent (hdated : ∀ rid e, kv.node rid = some e → e.ts ≤ now) (hunique : r.UniqueIds)
    {a rid : String} {w : Worker} (hw : (syncDirectory now (r, kv)).1.worker a = some w)
    (hrid : w.router_id = some rid) :
    ∃ e, (syncDirectory now (r, kv)).2.node rid = some e ∧ e.name = a ∧ e.links = w.links := by
  have hmem : (rid, a, w.links) ∈ (r.resolvePeers kv.nodeName).1.entries :=
    WorkerRegistry.mem_entries.mpr ⟨w, hw, hrid, rfl⟩
  obtain ⟨kv', hkeep, hnode⟩ := foldl_at (f := republish now) Prod.fst (fun kv => kv.node rid)
    (fun kv x hne => node_republish_of_ne now kv hne)
    (WorkerRegistry.uniqueIds_iff.mp (hunique.resolved _)) hmem rfl kv
  -- the other agents' steps leave the entry as it was, so it is not dated later
  have hkeep : kv'.node rid = kv.node rid := hkeep
  have hdated' : ∀ e, kv'.node (rid, a, w.links).1 = some e → e.ts ≤ now := fun e he =>
    hdated rid e (hkeep ▸ he)
  obtain ⟨e, he, hname, hlinks⟩ := node_republish hdated'
  exact ⟨e, hnode.trans he, hname, hlinks⟩

/-- The entry of a node that is no agent here is left alone. -/
theorem node_of_foreign {rid : String}
    (h : ∀ a w, r.worker a = some w → w.router_id ≠ some rid) :
    (syncDirectory now (r, kv)).2.node rid = kv.node rid := by
  refine foldl_frame Prod.fst (fun kv : LwwStore F => kv.node rid)
    (fun kv x hne => node_republish_of_ne now kv hne) ?_ kv
  rintro ⟨rid', a, links⟩ hmem rfl
  obtain ⟨w, hw, hrid, -⟩ := WorkerRegistry.mem_entries.mp hmem
  obtain ⟨v, hv, hvr, -⟩ := worker_of_resolved hw
  exact h a v hv (hvr ▸ hrid)

/-! ### One run settles -/

/-- What one run is for: entries and far ends agree with the agents, and there is nothing left for
    a second run to do. -/
structure Synced (now : ℕ) (r : WorkerRegistry) (kv : LwwStore F) : Prop where
  published : ∀ a w rid, (syncDirectory now (r, kv)).1.worker a = some w → w.router_id = some rid →
    ∃ e, (syncDirectory now (r, kv)).2.node rid = some e ∧ e.name = a ∧ e.links = w.links
  named : ∀ a w l rid e, (syncDirectory now (r, kv)).1.worker a = some w → l ∈ w.links →
    w.peer_rids.get l.interface = some rid → (syncDirectory now (r, kv)).2.node rid = some e →
      l.to = e.name
  again : syncDirectory now (syncDirectory now (r, kv)) = syncDirectory now (r, kv)

/-- A link of agent `a` has the agent `b` as its neighbour, and the directory has that node under
    another name. -/
def Misnamed (r : WorkerRegistry) (kv : LwwStore F) (a b : String) : Prop :=
  ∃ w v l rid e, r.worker a = some w ∧ l ∈ w.links ∧ w.peer_rids.get l.interface = some rid ∧
    r.worker b = some v ∧ v.router_id = some rid ∧ kv.node rid = some e ∧ e.name ≠ b

/-- Where far ends and entries agree, a run changes nothing. -/
theorem syncDirectory_eq_self
    (hnamed : ∀ a w l rid e, r.worker a = some w → l ∈ w.links →
      w.peer_rids.get l.interface = some rid → kv.node rid = some e → l.to = e.name)
    (hpublished : ∀ a w rid, r.worker a = some w → w.router_id = some rid →
      ∃ e, kv.node rid = some e ∧ e.name = a ∧ e.links = w.links) :
    syncDirectory now (r, kv) = (r, kv) := by
  have hvals : r.inner.mapVal (fun _ w =>
      { w with links := w.links.map (WorkerRegistry.named w kv.nodeName) }) = r.inner := by
    refine Map.mapVal_eq_self (fun a w hw => ?_)
    -- every link of the agent has its far end already
    have hlinks : ∀ l ∈ w.links, WorkerRegistry.named w kv.nodeName l = id l := by
      intro l hl
      unfold WorkerRegistry.named
      split
      · rename_i name hname
        obtain ⟨rid, hrid, hlookup⟩ := Option.bind_eq_some_iff.mp hname
        obtain ⟨e, he, rfl⟩ := Option.map_eq_some_iff.mp hlookup
        rw [← hnamed a w l rid e hw hl hrid he, id]
      · rfl
    rw [List.map_congr_left hlinks, List.map_id]
  have hentries : ∀ x ∈ r.entries, republish now kv x = kv := by
    rintro ⟨rid, a, links⟩ hmem
    obtain ⟨w, hw, hrid, rfl⟩ := WorkerRegistry.mem_entries.mp hmem
    obtain ⟨e, he, hname, hlinks⟩ := hpublished a w rid hw hrid
    exact republish_eq_self now he hname hlinks
  rw [syncDirectory]
  dsimp only
  rw [WorkerRegistry.resolvePeers]
  dsimp only
  rw [hvals, foldl_eq_self hentries]

/-- **One run settles the directory** exactly if it has nobody under another name than their own
    whom a registered link leads to. -/
theorem settled_iff (hdated : ∀ rid e, kv.node rid = some e → e.ts ≤ now) (hunique : r.UniqueIds)
    (hentry : ∀ a w rid, r.worker a = some w → w.router_id = some rid → (kv.node rid).isSome) :
    Synced now r kv ↔ ∀ a b, ¬ Misnamed r kv a b := by
  have hpublished := fun a w rid (hw : (syncDirectory now (r, kv)).1.worker a = some w)
      (hrid : w.router_id = some rid) => node_of_agent hdated hunique hw hrid
  constructor
  · rintro ⟨-, hnamed, -⟩ a b ⟨w, v, l, rid, e, hw, hl, hrid, hv, hvrid, he, hne⟩
    -- the link takes the old name, and the entry is corrected only after that
    have hw' : (syncDirectory now (r, kv)).1.worker a = some
        { w with links := w.links.map (WorkerRegistry.named w kv.nodeName) } := by
      rw [worker_syncDirectory, hw]
      rfl
    have hv' : (syncDirectory now (r, kv)).1.worker b = some
        { v with links := v.links.map (WorkerRegistry.named v kv.nodeName) } := by
      rw [worker_syncDirectory, hv]
      rfl
    obtain ⟨e', he', hname', -⟩ := hpublished b _ rid hv' hvrid
    have hto : WorkerRegistry.named w kv.nodeName l = { l with «to» := e.name } := by
      rw [WorkerRegistry.named, hrid, Option.bind_some, LwwStore.nodeName, he, Option.map_some]
    have hfar := hnamed a _ _ rid e' hw' (List.mem_map_of_mem hl) (by rw [hto]; exact hrid) he'
    rw [hto] at hfar
    exact hne (hfar.trans hname')
  · intro hgood
    -- a link leads to an agent under its own name, or to a node whose entry the run leaves alone
    have hnamed : ∀ a w l rid e, (syncDirectory now (r, kv)).1.worker a = some w → l ∈ w.links →
        w.peer_rids.get l.interface = some rid →
          (syncDirectory now (r, kv)).2.node rid = some e → l.to = e.name := by
      intro a w l rid e hw hl hrid he
      obtain ⟨v, hv, -, hpeers, hlinks⟩ := worker_of_resolved hw
      rw [hlinks, List.mem_map] at hl
      obtain ⟨l₀, hl₀, rfl⟩ := hl
      have hinterface : (WorkerRegistry.named v kv.nodeName l₀).interface = l₀.interface := by
        unfold WorkerRegistry.named
        split <;> rfl
      rw [hinterface, hpeers] at hrid
      rw [WorkerRegistry.named, hrid, Option.bind_some, LwwStore.nodeName]
      by_cases hagent : ∃ b v', r.worker b = some v' ∧ v'.router_id = some rid
      · obtain ⟨b, v', hv', hvrid⟩ := hagent
        obtain ⟨e₀, he₀⟩ := Option.isSome_iff_exists.mp (hentry b v' rid hv' hvrid)
        have hv'' : (syncDirectory now (r, kv)).1.worker b = some
            { v' with links := v'.links.map (WorkerRegistry.named v' kv.nodeName) } := by
          rw [worker_syncDirectory, hv']
          rfl
        obtain ⟨e', he', hname', -⟩ := hpublished b _ rid hv'' hvrid
        obtain rfl := Option.some.inj (he'.symm.trans he)
        rw [he₀, Option.map_some, hname']
        by_contra hne
        exact hgood a b ⟨v, v', l₀, rid, e₀, hv, hl₀, hrid, hv', hvrid, he₀, hne⟩
      · have hkeep : (syncDirectory now (r, kv)).2.node rid = kv.node rid :=
          node_of_foreign fun b v' hv' hvrid => hagent ⟨b, v', hv', hvrid⟩
        rw [← hkeep, he, Option.map_some]
    exact ⟨hpublished, hnamed, syncDirectory_eq_self hnamed hpublished⟩

end Sync

/-! ### Two agents -/

/-- The link of `hub-a` to its neighbour. -/
private def hubLink (name : String) : LinkKey := ⟨"hub-a", name, "awg0"⟩

/-- `node-0` registers, and `hub-a` with a link on which it sees the router id of `node-0`. -/
private def twoAgents : WorkerRegistry :=
  ((WorkerRegistry.new.register "node-0" [] (some "192.0.2.2") ∅ none).1.register "hub-a"
    [hubLink "node-0"] (some "192.0.2.1") ((∅ : Map String String).set "awg0" "192.0.2.2") none).1

/-- The directory has `node-0` under `name`. -/
private def directoryOf (name : String) : LwwStore ℕ :=
  ((LwwStore.new.setNode "192.0.2.1" "hub-a" [hubLink "node-0"] 5).1.setNode "192.0.2.2" name [] 5).1

/-- One run settles both agents when the directory has them under their own names. -/
theorem settled_twoAgents : Synced 10 twoAgents (directoryOf "node-0") := by
  refine (settled_iff (fun rid e he => ?_) ?_ (fun a w rid hw hrid => ?_)).mpr ?_
  · have hall : ∀ p ∈ (directoryOf "node-0").allNodes, p.2.ts ≤ 10 := by decide
    exact hall (rid, e) (Map.mem_pairs.mpr he)
  · exact WorkerRegistry.uniqueIds_iff.mpr (by decide)
  · have hall : ∀ x ∈ twoAgents.entries, ((directoryOf "node-0").node x.1).isSome := by decide
    exact hall (rid, a, w.links) (WorkerRegistry.mem_entries.mpr ⟨w, hw, hrid, rfl⟩)
  · rintro a b ⟨w, v, l, rid, e, -, -, -, hv, hvrid, he, hne⟩
    -- every agent's entry has its name
    have hall : ∀ x ∈ twoAgents.entries, (directoryOf "node-0").nodeName x.1 = some x.2.1 := by
      decide
    have hname := hall (rid, b, v.links) (WorkerRegistry.mem_entries.mpr ⟨v, hv, hvrid, rfl⟩)
    rw [LwwStore.nodeName, he, Option.map_some] at hname
    exact hne (Option.some.inj hname)

/-- **A name the directory is about to lose.** Gossip has brought `node-0` under an older name:
    the link is named by it, the entry is corrected after that, and a second run renames the link. -/
theorem stale_name_outlives_sync :
    (∀ p ∈ (directoryOf "old-0").allNodes, p.2.ts ≤ 10) ∧ (twoAgents.entries.map Prod.fst).Nodup ∧
      (∀ x ∈ twoAgents.entries, ((directoryOf "old-0").node x.1).isSome) ∧
      (syncDirectory 10 (twoAgents, directoryOf "old-0")).2.nodeName "192.0.2.2" = some "node-0" ∧
      ((syncDirectory 10 (twoAgents, directoryOf "old-0")).1.worker "hub-a").map Worker.links =
        some [hubLink "old-0"] ∧
      ¬ Synced 10 twoAgents (directoryOf "old-0") := by
  refine ⟨by decide, by decide, by decide, by decide, by decide, fun h => ?_⟩
  have hto := h.named "hub-a" _ (hubLink "old-0") "192.0.2.2" _ rfl List.mem_cons_self rfl rfl
  exact absurd hto (by decide)

end Mielofon
