import Mielofon.Classifier.Hysteresis
import Mielofon.Gossip.Cluster
import Mielofon.Lib.Detour

namespace Mielofon

open Lib

/-!
# The costs of a mesh

Every member classifies the links of its own agents and gossips the derived records
(`classifier.rs`, `gossip.rs`).  A record that was derived anywhere states the cost of its class, at
whichever member it is and however it got there.  A hub adds an offset to what it advertises towards
what is not one, so that spokes carry no transit between hubs.

* `CostMesh`, `CostMeshEvent`, `CostMesh.step` — all members, each deriving and gossiping;
* `Costed` — a record's cost is that of its class;
* `costed_of_runs` — so it is of every record in every run;
* `Protects` — the offset is large enough for the costs of the classes;
* `no_spoke_transit` — a path between two hubs past a spoke costs more than any direct link.
-/

variable {F M : Type*}

/-- All members of a cluster, and the exchanges under way. -/
structure CostMesh (M F : Type*) where
  nodes : M → PolicyState F
  flight : List (Msg M F)

/-- What happens in a mesh: something at one member, or a step of the gossip. -/
inductive CostMeshEvent (M F : Type*) where
  | atNode (m : M) (e : PolicyEvent F)
  | gossip (a : Action M F)

/-- A record states the cost of its class, or neither. -/
def Costed (cfg : Config F) (k : LinkKey) (r : QualityRecord F) : Prop :=
  r.ospf_cost = r.quality.map (policyCost cfg k)

namespace CostMesh

/-- The record stores of a mesh. -/
def cluster (s : CostMesh M F) : Cluster M F := ⟨fun m => (s.nodes m).kv, s.flight⟩

/-- Members that have classified nothing yet. -/
def init (tsdb : M → Tsdb F) : CostMesh M F := ⟨fun m => .start (tsdb m) .new, []⟩

section Step

variable [DecidableEq M] [LinearOrder F] [Arith F] (cfg : Config F) (grace : ℕ)

/-- One event.  Records are put by classification alone. -/
def step (s : CostMesh M F) : CostMeshEvent M F → Option (CostMesh M F)
  | .atNode m e =>
    some { s with nodes := Function.update s.nodes m ((s.nodes m).handle cfg e) }
  | .gossip (.put ..) => none
  | .gossip a => (Mielofon.step grace s.cluster a).map fun c =>
    ⟨fun m => { s.nodes m with kv := c.kv m }, c.flight⟩

end Step

end CostMesh

/-! ### What a pass writes -/

/-- The classifier holds the cost of the class it holds. -/
def ClassifierState.Costed (cfg : Config F) (c : ClassifierState) : Prop :=
  ∀ k p, c.last.get k = some p → p.ospf_cost = policyCost cfg k p.quality

/-- All records of a store are costed. -/
def LwwStore.Costed (cfg : Config F) (kv : LwwStore F) : Prop :=
  ∀ k r, kv.get k = some r → Mielofon.Costed cfg k r

theorem LwwStore.Costed.put {cfg : Config F} {kv : LwwStore F} (h : kv.Costed cfg) {link : LinkKey}
    {rec : QualityRecord F} (hrec : Mielofon.Costed cfg link rec) :
    ((kv.put link rec).1).Costed cfg := by
  intro k r hr
  by_cases hk : k = link
  · subst hk
    unfold LwwStore.put at hr
    split at hr
    · exact h k r hr
    · rw [LwwStore.get, Map.get_set_self] at hr
      exact Option.some.inj hr ▸ hrec
  · rw [LwwStore.get_put_of_ne _ _ hk] at hr
    exact h k r hr

section Pass

variable [LinearOrder F] {cfg : Config F}

/-- **Step lemma.** The turn of one link keeps both. -/
theorem costed_classifyLink (pairs : LinkKey → Option LinkKey) (views : Map LinkKey (WindowView F))
    {s : ClassifierState × LwwStore F} (hlast : s.1.Costed cfg) (hkv : s.2.Costed cfg)
    (now : ℕ) (link : LinkKey) :
    (classifyLink cfg now pairs views s link).1.Costed cfg ∧
      (classifyLink cfg now pairs views s link).2.Costed cfg := by
  unfold classifyLink
  split
  · exact ⟨hlast, hkv⟩
  split
  · -- the held decision is written again
    refine ⟨hlast, hkv.put ?_⟩
    cases hget : s.1.last.get link with
    | none => rfl
    | some p => exact congrArg some (hlast link p hget)
  · refine ⟨fun k p hp => ?_, hkv.put rfl⟩
    by_cases hk : k = link
    · subst hk
      rw [Map.get_set_self] at hp
      obtain rfl := Option.some.inj hp
      rfl
    · rw [Map.get_set_ne _ _ hk] at hp
      exact hlast k p hp

variable [Arith F]

/-- A pass over any links keeps both. -/
theorem costed_classifyOnce {s : PolicyState F} (hlast : s.classifier.Costed cfg)
    (hkv : s.kv.Costed cfg) (now : ℕ) (owned : List LinkKey) :
    (classifyOnce cfg now owned s).classifier.Costed cfg ∧
      (classifyOnce cfg now owned s).kv.Costed cfg := by
  have hfold : ∀ (links : List LinkKey) (x : ClassifierState × LwwStore F), x.1.Costed cfg →
      x.2.Costed cfg →
      let res := links.foldl (classifyLink cfg now (pairsOf cfg s.tsdb.links)
        (foldPairs cfg now owned s).views) x
      res.1.Costed cfg ∧ res.2.Costed cfg := by
    intro links
    induction links with
    | nil => exact fun x h h' => ⟨h, h'⟩
    | cons link links ih =>
      intro x h h'
      have hstep := costed_classifyLink (pairsOf cfg s.tsdb.links) (foldPairs cfg now owned s).views
        h h' now link
      exact ih _ hstep.1 hstep.2
  exact hfold _ ({ s.classifier with totals := (foldPairs cfg now owned s).totals }, s.kv) hlast hkv

theorem costed_handle {s : PolicyState F} (hlast : s.classifier.Costed cfg) (hkv : s.kv.Costed cfg)
    (e : PolicyEvent F) :
    (s.handle cfg e).classifier.Costed cfg ∧ (s.handle cfg e).kv.Costed cfg := by
  cases e with
  | ingest link x persist => exact ⟨hlast, hkv⟩
  | prune now => exact ⟨hlast, hkv⟩
  | pass now owned => exact costed_classifyOnce hlast hkv now owned

end Pass

/-! ### Runs -/

section Runs

variable [DecidableEq M] [LinearOrder F] [Arith F] {cfg : Config F} {grace : ℕ}

/-- Every classifier, and every copy of a record, is costed. -/
structure CostMesh.Costed (cfg : Config F) (s : CostMesh M F) : Prop where
  last : ∀ m, (s.nodes m).classifier.Costed cfg
  copies : ∀ k r, s.cluster.Copy k r → Mielofon.Costed cfg k r

omit [DecidableEq M] [LinearOrder F] [Arith F] in
theorem CostMesh.costed_init (tsdb : M → Tsdb F) : (CostMesh.init tsdb).Costed cfg where
  last m k p h := absurd h (by simp [CostMesh.init, PolicyState.start, ClassifierState.new])
  copies k r h := by
    rcases h with ⟨m, h⟩ | ⟨msg, hmsg, -⟩
    · exact absurd h (by
        simp [CostMesh.init, CostMesh.cluster, PolicyState.start, LwwStore.new, LwwStore.get])
    · exact absurd hmsg List.not_mem_nil

/-- **Step lemma.** -/
theorem CostMesh.Costed.step {s s' : CostMesh M F} {e : CostMeshEvent M F} (h : s.Costed cfg)
    (hs : s.step cfg grace e = some s') : s'.Costed cfg := by
  cases e with
  | atNode m e =>
    obtain rfl := Option.some.inj hs
    have hnode := costed_handle (h.last m) (fun k r hr => h.copies k r (.inl ⟨m, hr⟩)) e
    refine ⟨fun p => ?_, fun k r hr => ?_⟩
    · by_cases hp : p = m
      · subst hp
        simpa only [Function.update_self] using hnode.1
      · simpa only [Function.update_of_ne hp] using h.last p
    · rcases hr with ⟨p, hr⟩ | hr
      · by_cases hp : p = m
        · subst hp
          simp only [CostMesh.cluster, Function.update_self] at hr
          exact hnode.2 k r hr
        · simp only [CostMesh.cluster, Function.update_of_ne hp] at hr
          exact h.copies k r (.inl ⟨p, hr⟩)
      · exact h.copies k r (.inr hr)
  | gossip a =>
    have hgossip : (∀ k, NoPut k s.cluster a) ∧ ∃ c, Mielofon.step grace s.cluster a = some c ∧
        (⟨fun m => { s.nodes m with kv := c.kv m }, c.flight⟩ : CostMesh M F) = s' := by
      cases a with
      | put m key rec => exact absurd hs (by simp [CostMesh.step])
      | _ => exact ⟨fun _ => trivial, Option.map_eq_some_iff.mp hs⟩
    obtain ⟨hno, c, hc, rfl⟩ := hgossip
    exact ⟨h.last, fun k r hr => h.copies k r (copy_of_step (hno k) hc hr)⟩

/-- **Run lemma.** In every run every record states the cost of its class. -/
theorem costed_of_runs {tsdb : M → Tsdb F} {s : CostMesh M F}
    (hrun : Runs (CostMesh.step cfg grace) Always (CostMesh.init tsdb) s) : s.Costed cfg :=
  hrun.invariant (CostMesh.costed_init tsdb) fun _ _ _ h _ hs => h.step hs

end Runs

/-! ### No transit past a spoke -/

/-- Some member publishes the cost of a link. -/
def CostMesh.Publishes (s : CostMesh M F) (l : LinkKey) (cost : ℕ) : Prop :=
  ∃ m r, (s.nodes m).kv.get l = some r ∧ r.ospf_cost = some cost

theorem CostMesh.publishes_of_bind {s : CostMesh M F} {l : LinkKey} {cost : ℕ} (m : M)
    (h : ((s.nodes m).kv.get l).bind QualityRecord.ospf_cost = some cost) : s.Publishes l cost :=
  have ⟨r, hr, hcost⟩ := Option.bind_eq_some_iff.mp h
  ⟨m, r, hr, hcost⟩

/-- The offset outweighs the costs of the classes: the cheapest way to a spoke and on to a hub costs
    more than the dearest direct link. -/
def Protects (cfg : Config F) : Prop :=
  ∀ q q' q'', costForQuality cfg.quality q <
    min (costForQuality cfg.quality q' + cfg.classifier.hub_spoke_cost_offset) RawSample.u32Max +
      costForQuality cfg.quality q''

theorem policyCost_to_hub (cfg : Config F) {l : LinkKey} (h : cfg.isHub l.to = true) (q : Quality) :
    policyCost cfg l q = costForQuality cfg.quality q := by
  simp [policyCost, h]

theorem policyCost_from_spoke (cfg : Config F) {l : LinkKey} (h : cfg.isHub l.from = false)
    (q : Quality) : policyCost cfg l q = costForQuality cfg.quality q := by
  simp [policyCost, h]

theorem policyCost_to_spoke (cfg : Config F) {l : LinkKey} (hfrom : cfg.isHub l.from = true)
    (hto : cfg.isHub l.to = false) (q : Quality) : policyCost cfg l q =
      min (costForQuality cfg.quality q + cfg.classifier.hub_spoke_cost_offset) RawSample.u32Max := by
  simp [policyCost, hfrom, hto]

/-- A published cost is that of some class. -/
theorem CostMesh.Costed.policy {cfg : Config F} {s : CostMesh M F} (h : s.Costed cfg) {l : LinkKey}
    {cost : ℕ} (hl : s.Publishes l cost) : ∃ q, cost = policyCost cfg l q := by
  obtain ⟨m, r, hr, hcost⟩ := hl
  have hcosted : r.ospf_cost = r.quality.map (policyCost cfg l) := h.copies l r (.inl ⟨m, hr⟩)
  rw [hcost] at hcosted
  obtain ⟨q, -, hq⟩ := Option.map_eq_some_iff.mp hcosted.symm
  exact ⟨q, hq.symm⟩

variable [DecidableEq M] [LinearOrder F] [Arith F]

/-- **No transit past a spoke.** In every run of a mesh, at the costs its members publish, a path
    between two hubs that visits a spoke costs more than any direct link between them. -/
theorem no_spoke_transit (cfg : Config F) (grace : ℕ) (tsdb : M → Tsdb F) (s : CostMesh M F)
    (hprotects : Protects cfg) (hrun : Runs (CostMesh.step cfg grace) Always (CostMesh.init tsdb) s)
    (direct : LinkKey) (cost : ℕ) (hdirect : s.Publishes direct cost)
    (hfrom : cfg.isHub direct.from = true) (hto : cfg.isHub direct.to = true)
    (path : List LinkKey) (costs : LinkKey → ℕ) (hcosts : ∀ l ∈ path, s.Publishes l (costs l))
    (hpath : Leads LinkKey.from LinkKey.to direct.from path direct.to)
    (hspoke : ∃ l ∈ path, cfg.isHub l.to = false) :
    cost < (path.map costs).sum := by
  have hcosted := costed_of_runs hrun
  obtain ⟨l, hl, hout⟩ := hspoke
  obtain ⟨p₁, p₂, e, e', rfl, he, he', ⟨hefrom, heto⟩, hefrom', heto'⟩ :=
    hpath.exists_detour (S := fun name => cfg.isHub name = true) hfrom hto hl (by simp [hout])
  obtain ⟨q, hq⟩ := hcosted.policy hdirect
  obtain ⟨q', hq'⟩ := hcosted.policy (hcosts e (List.mem_append_left _ he))
  obtain ⟨q'', hq''⟩ := hcosted.policy (hcosts e' (List.mem_append_right _ he'))
  calc cost = costForQuality cfg.quality q := by rw [hq, policyCost_to_hub cfg hto]
    _ < min (costForQuality cfg.quality q' + cfg.classifier.hub_spoke_cost_offset) RawSample.u32Max +
        costForQuality cfg.quality q'' := hprotects q q' q''
    _ = costs e + costs e' := by
      rw [hq', hq'', policyCost_to_spoke cfg hefrom (by simpa using heto),
        policyCost_from_spoke cfg (by simpa using hefrom')]
    _ ≤ ((p₁ ++ p₂).map costs).sum := add_le_sum_map he he'

/-! ### A mesh -/

section Example

attribute [local instance] natArith

/-- Two hubs, and an offset of 1000. -/
def twoHubs : Config ℕ :=
  { twoVotes with
    hubs := ["hub-a", "hub-b"]
    classifier := { twoVotes.classifier with hub_spoke_cost_offset := 1000 } }

def hubToHub : LinkKey := ⟨"hub-a", "hub-b", "awg_int_hub_b"⟩

def hubToSpoke : LinkKey := ⟨"hub-a", "node-0", "awg_sp_node_0"⟩

def spokeToHub : LinkKey := ⟨"node-0", "hub-b", "awg_hub_b"⟩

/-- One member, whose agents have one good sample of each link. -/
def measuredMesh : CostMesh Unit ℕ :=
  ⟨fun _ => (PolicyState.start (Tsdb.new ⟨"", 7200, 86400⟩) .new).run twoHubs
    [.ingest hubToHub (rttSample 100 80) true, .ingest hubToSpoke (rttSample 100 20) true,
      .ingest spokeToHub (rttSample 100 20) true, .pass 101 [hubToHub, hubToSpoke, spokeToHub]], []⟩

theorem runs_measuredMesh : Runs (CostMesh.step twoHubs 600) Always
    (CostMesh.init fun _ : Unit => Tsdb.new ⟨"", 7200, 86400⟩) measuredMesh :=
  .cons (.atNode () (.ingest hubToHub (rttSample 100 80) true)) trivial rfl
    (.cons (.atNode () (.ingest hubToSpoke (rttSample 100 20) true)) trivial rfl
      (.cons (.atNode () (.ingest spokeToHub (rttSample 100 20) true)) trivial rfl
        (.cons (.atNode () (.pass 101 [hubToHub, hubToSpoke, spokeToHub])) trivial rfl (.refl _))))

/-- The way past the spoke costs 1020, the direct link 100. -/
theorem no_spoke_transit_twoHubs :
    100 < ([hubToSpoke, spokeToHub].map fun l => if l = hubToSpoke then 1010 else 10).sum :=
  no_spoke_transit twoHubs 600 (fun _ : Unit => Tsdb.new ⟨"", 7200, 86400⟩) measuredMesh
    (by intro q q' q''; cases q <;> cases q' <;> cases q'' <;> decide) runs_measuredMesh hubToHub 100
    (CostMesh.publishes_of_bind () (by decide)) (by decide) (by decide) [hubToSpoke, spokeToHub] _
    (by
      intro l hl
      rcases List.mem_pair.mp hl with rfl | rfl
      · exact CostMesh.publishes_of_bind () (by decide)
      · exact CostMesh.publishes_of_bind () (by decide))
    ⟨rfl, rfl, rfl⟩ ⟨hubToSpoke, by decide, by decide⟩

end Example

end Mielofon
