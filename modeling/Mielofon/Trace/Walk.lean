import Mathlib
import Mielofon.Kv
import Mielofon.Lib.Bfs
import Mielofon.Worker

namespace Mielofon

open Lib

/-!
# The route trace

A trace asks one agent after another for its routes to a prefix and follows the next hops to the
peers of their egress interfaces (`trace.rs`).

* `RouteRep`, `NextHopRep`, `allNextHops` — what an agent answers, and its next hops without
  repetition;
* `TraceEdge`, `edgeMetrics` — a row of the trace, and what the records say of it;
* `Walk`, `walkStep`, `walk` — the queue loop;
* `Neighbour` — where the next hops of a node lead;
* `allNextHops_spec` — one next hop of every kind, address and interface;
* `walk_simulates` — the walk is a breadth-first search over the neighbours;
* `walk_spec` — which nodes are asked, and the rows of each.
-/

variable {F : Type*}

/-- An equal-cost next hop: into the mesh, or attached here. -/
inductive NextHopRep where
  | via (addr iface : Option String)
  | dev (iface : Option String)
deriving DecidableEq, Repr

/-- A route, as an agent answers it. -/
structure RouteRep where
  next_hops : List NextHopRep
deriving DecidableEq, Repr

/-- A row of the trace. -/
structure TraceEdge (F : Type*) where
  depth : ℕ
  node : String
  iface : Option String
  «to» : Option String
  term : Bool
  broken : Bool
  reason : Option String
  rtt_ms : Option F
  loss_pct : Option F
  quality : Option String
  ospf_cost : Option ℕ
deriving DecidableEq, Repr

namespace TraceEdge

def plain (depth : ℕ) (node : String) : TraceEdge F :=
  ⟨depth, node, none, none, false, false, none, none, none, none, none⟩

def brokenRow (depth : ℕ) (node reason : String) : TraceEdge F :=
  { plain depth node with broken := true, reason := some reason }

end TraceEdge

/-! ### Next hops -/

/-- What next hops are told apart by. -/
def hopKey : NextHopRep → String
  | .dev iface => "dev/" ++ iface.getD ""
  | .via addr iface => "via/" ++ addr.getD "" ++ "/" ++ iface.getD ""

/-- Keep a next hop, unless one with its key was kept. -/
def keepHop (acc : Finset String × List NextHopRep) (nh : NextHopRep) :
    Finset String × List NextHopRep :=
  if hopKey nh ∈ acc.1 then acc else (insert (hopKey nh) acc.1, acc.2 ++ [nh])

/-- All next hops across every returned route, without repetition. -/
def allNextHops (routes : List RouteRep) : List NextHopRep :=
  (routes.foldl (fun acc r => r.next_hops.foldl keepHop acc) (∅, [])).2

/-! ### Rows -/

namespace WorkerRegistry

/-- Links of one registered agent. -/
def linksOf (r : WorkerRegistry) (agent : String) : List LinkKey :=
  ((r.worker agent).map Worker.links).getD []

end WorkerRegistry

/-- The registered peer reachable from `node` over egress `iface`. -/
def peerForEgress (workers : WorkerRegistry) (node iface : String) : Option String :=
  ((workers.linksOf node).find? (fun l => l.interface = iface)).map LinkKey.to

def Quality.label : Quality → String
  | .good => "good"
  | .acceptable => "acceptable"
  | .poor => "poor"
  | .bad => "bad"

/-- The row of a next hop into the mesh, with what the records have of its link. -/
def viaRow (kv : LwwStore F) (depth : ℕ) (node : String) (iface peer : Option String) : TraceEdge F :=
  let e : TraceEdge F := { TraceEdge.plain depth node with iface, «to» := peer }
  match peer, iface with
  | some p, some i =>
    match kv.get ⟨node, p, i⟩ with
    | some rec => { e with
        broken := rec.state = .conflict || rec.quality = some .bad || rec.quality = none
        reason := if rec.quality = none then some "no quality data" else none
        rtt_ms := rec.rtt_ms
        loss_pct := rec.loss_pct
        quality := rec.quality.map Quality.label
        ospf_cost := rec.ospf_cost }
    | none => { e with broken := true, reason := some "no probe data for edge" }
  | _, _ => { e with broken := true, reason := some "peer not resolvable for egress interface" }

/-- The row that says the destination is reached. -/
def devRow (depth : ℕ) (node : String) : TraceEdge F :=
  { TraceEdge.plain depth node with iface := some "dummy_awg", «to» := some node, term := true }

/-! ### The walk -/

def hopCap : ℕ := 24

/-- The walk under way, and as history the agents asked. -/
structure Walk (F : Type*) where
  edges : List (TraceEdge F)
  visited : Finset String
  frontier : List (String × ℕ)
  complete : Bool
  cap_hit : Bool
  asked : List String

/-- What a walk reads: the registry, the records, and what each agent answers or why it does not. -/
structure Mesh (F : Type*) where
  workers : WorkerRegistry
  kv : LwwStore F
  request : String → Except String (List RouteRep)

namespace Mesh

variable (m : Mesh F)

/-- Dispatch one `trace` command to `agent`. -/
def dispatchHop (agent : String) : Except String (List RouteRep) :=
  if agent ∈ m.workers.inner then m.request agent
  else .error ("agent '" ++ agent ++ "' is not registered")

/-- The egress interface of a next hop, when it is named. -/
def egress (iface : Option String) : Option String := iface.filter (fun i => i ≠ "")

/-- The peer a next hop of `node` leads to. -/
def hopPeer (node : String) : NextHopRep → Option String
  | .dev _ => none
  | .via _ iface => (egress iface).bind (peerForEgress m.workers node)

/-- The row of a next hop. -/
def hopRow (depth : ℕ) (node : String) : NextHopRep → TraceEdge F
  | .dev _ => devRow depth node
  | .via addr iface => viaRow m.kv depth node (egress iface) (m.hopPeer node (.via addr iface))

/-- Emit the row of a next hop, and expand to its peer unless it was visited. -/
def visitHop (depth : ℕ) (node : String) (w : Walk F) (nh : NextHopRep) : Walk F :=
  let w := { w with
    edges := w.edges ++ [m.hopRow depth node nh]
    complete := match nh with
      | .dev _ => true
      | .via .. => w.complete }
  match m.hopPeer node nh with
  | some p =>
    if p ∈ w.visited then w
    else { w with visited := insert p w.visited, frontier := w.frontier ++ [(p, depth + 1)] }
  | none => w

/-- One round of the queue loop. -/
def walkStep (w : Walk F) : Option (Walk F) :=
  match w.frontier with
  | [] => none
  | (node, depth) :: rest =>
    let w := { w with frontier := rest }
    if hopCap ≤ depth then
      some { w with
        cap_hit := true
        edges := w.edges ++
          [.brokenRow depth node ("hop cap (" ++ toString hopCap ++ ") reached")] }
    else
      let w := { w with asked := w.asked ++ [node] }
      match m.dispatchHop node with
      | .error reason => some { w with edges := w.edges ++ [.brokenRow depth node reason] }
      | .ok routes =>
        let hops := allNextHops routes
        let w := hops.foldl (m.visitHop depth node) w
        if hops.isEmpty then
          some { w with edges := w.edges ++ [.brokenRow depth node
            (if routes.isEmpty then "unresolvable" else "no usable next hop")] }
        else some w

/-- The walk, within `fuel` rounds. -/
def walk (fuel : ℕ) («from» : String) : Option (Walk F) :=
  loop m.walkStep fuel ⟨[], {«from»}, [(«from», 0)], false, false, []⟩

end Mesh

/-! ### Next hops without repetition -/

/-- The kind, address and interface of a next hop; what it does not name counts as empty. -/
inductive HopIdent where
  | via (addr iface : String)
  | dev (iface : String)
deriving DecidableEq, Repr

def NextHopRep.ident : NextHopRep → HopIdent
  | .via addr iface => .via (addr.getD "") (iface.getD "")
  | .dev iface => .dev (iface.getD "")

/-- No slash in the address, nor in the name of the interface. -/
def NextHopRep.Plain : NextHopRep → Prop
  | .via addr iface => '/' ∉ (addr.getD "").toList ∧ '/' ∉ (iface.getD "").toList
  | .dev iface => '/' ∉ (iface.getD "").toList

/-- A list splits in one way at its first slash. -/
theorem slash_split {a b i j : List Char} (ha : '/' ∉ a) (hb : '/' ∉ b)
    (h : a ++ '/' :: i = b ++ '/' :: j) : a = b ∧ i = j := by
  induction a generalizing b with
  | nil =>
    cases b with
    | nil => exact ⟨rfl, (List.cons.inj h).2⟩
    | cons c b => exact absurd ((List.cons.inj h).1 ▸ List.mem_cons_self) hb
  | cons c a ih =>
    cases b with
    | nil => exact absurd ((List.cons.inj h).1 ▸ List.mem_cons_self) ha
    | cons d b =>
      obtain ⟨rfl, htail⟩ := List.cons.inj h
      obtain ⟨rfl, rfl⟩ := ih (fun hm => ha (List.mem_cons_of_mem _ hm))
        (fun hm => hb (List.mem_cons_of_mem _ hm)) htail
      exact ⟨rfl, rfl⟩

/-- The key of a plain next hop stands for its kind, address and interface. -/
theorem hopKey_eq_iff {nh nh' : NextHopRep} (h : nh.Plain) (h' : nh'.Plain) :
    hopKey nh = hopKey nh' ↔ nh.ident = nh'.ident := by
  cases nh with
  | via addr iface =>
    cases nh' with
    | via addr' iface' =>
      simp only [hopKey, NextHopRep.ident, HopIdent.via.injEq, String.append_assoc]
      constructor
      · intro heq
        have hlist := congrArg String.toList heq
        -- the address ends at the first slash, as neither has one of its own
        simp only [String.toList_append, List.append_cancel_left_eq] at hlist
        obtain ⟨haddr, hiface⟩ := slash_split h.1 h'.1 hlist
        exact ⟨String.toList_inj.mp haddr, String.toList_inj.mp hiface⟩
      · rintro ⟨haddr, hiface⟩
        rw [haddr, hiface]
    | dev iface' =>
      simp only [hopKey, NextHopRep.ident, reduceCtorEq, iff_false]
      intro heq
      have hlist := congrArg String.toList heq
      -- the kinds differ in their first letter
      simp [String.toList_append] at hlist
  | dev iface =>
    cases nh' with
    | via addr' iface' =>
      simp only [hopKey, NextHopRep.ident, reduceCtorEq, iff_false]
      intro heq
      have hlist := congrArg String.toList heq
      simp [String.toList_append] at hlist
    | dev iface' =>
      simp only [hopKey, NextHopRep.ident, HopIdent.dev.injEq]
      constructor
      · intro heq
        have hlist := congrArg String.toList heq
        simp only [String.toList_append, List.append_cancel_left_eq] at hlist
        exact String.toList_inj.mp hlist
      · exact fun heq => heq ▸ rfl

/-- What was kept of `hops` so far: one of every key. -/
structure KeptOf (hops : List NextHopRep) (acc : Finset String × List NextHopRep) : Prop where
  keys : ∀ k, k ∈ acc.1 ↔ k ∈ acc.2.map hopKey
  nodup : (acc.2.map hopKey).Nodup
  sound : ∀ nh ∈ acc.2, nh ∈ hops
  complete : ∀ nh ∈ hops, hopKey nh ∈ acc.1

theorem KeptOf.keepHop {hops : List NextHopRep} {acc : Finset String × List NextHopRep}
    (h : KeptOf hops acc) (nh : NextHopRep) : KeptOf (hops ++ [nh]) (keepHop acc nh) := by
  unfold Mielofon.keepHop
  split
  · rename_i hkept
    refine ⟨h.keys, h.nodup, fun x hx => List.mem_append_left _ (h.sound x hx), fun x hx => ?_⟩
    rcases List.mem_append.mp hx with hx | hx
    · exact h.complete x hx
    · obtain rfl := List.mem_singleton.mp hx
      exact hkept
  · rename_i hnew
    refine ⟨fun k => ?_, ?_, fun x hx => ?_, fun x hx => ?_⟩
    · simp only [Finset.mem_insert, h.keys, List.map_append, List.mem_append, List.map_cons,
        List.map_nil, List.mem_singleton]
      exact or_comm
    · rw [List.map_append]
      refine List.nodup_append.mpr ⟨h.nodup, List.nodup_singleton _, fun a ha b hb heq => ?_⟩
      obtain rfl := List.mem_singleton.mp hb
      exact hnew ((h.keys _).mpr (heq ▸ ha))
    · rcases List.mem_append.mp hx with hx | hx
      · exact List.mem_append_left _ (h.sound x hx)
      · exact List.mem_append_right _ hx
    · rcases List.mem_append.mp hx with hx | hx
      · exact Finset.mem_insert_of_mem (h.complete x hx)
      · obtain rfl := List.mem_singleton.mp hx
        exact Finset.mem_insert_self _ _

theorem KeptOf.foldl (l : List NextHopRep) : ∀ {hops acc}, KeptOf hops acc →
    KeptOf (hops ++ l) (l.foldl Mielofon.keepHop acc) := by
  induction l with
  | nil => exact fun h => by rwa [List.append_nil]
  | cons nh l ih =>
    intro hops acc h
    have hrest := ih (h.keepHop nh)
    rwa [List.append_assoc, List.singleton_append] at hrest

/-- What `allNextHops` keeps of the next hops across the routes. -/
theorem allNextHops_kept (routes : List RouteRep) : ∃ keys,
    KeptOf (routes.flatMap RouteRep.next_hops) (keys, allNextHops routes) := by
  have hstart : KeptOf [] (∅, []) := ⟨by simp, List.nodup_nil, by simp, by simp⟩
  have hfold := hstart.foldl (routes.flatMap RouteRep.next_hops)
  rw [List.nil_append, List.foldl_flatMap] at hfold
  exact ⟨_, hfold⟩

/-- Next hops of an answer, one of every kind, address and interface. -/
structure OneOfEach (routes : List RouteRep) (hops : List NextHopRep) : Prop where
  nodup : (hops.map NextHopRep.ident).Nodup
  sound : ∀ nh ∈ hops, ∃ r ∈ routes, nh ∈ r.next_hops
  complete : ∀ r ∈ routes, ∀ nh ∈ r.next_hops, nh.ident ∈ hops.map NextHopRep.ident

/-- Every next hop of the answer is plain. -/
def PlainHops (routes : List RouteRep) : Prop :=
  ∀ r ∈ routes, ∀ nh ∈ r.next_hops, nh.Plain

theorem allNextHops_spec {routes : List RouteRep} (h : PlainHops routes) :
    OneOfEach routes (allNextHops routes) := by
  obtain ⟨keys, hkept⟩ := allNextHops_kept routes
  have hsound : ∀ nh ∈ allNextHops routes, ∃ r ∈ routes, nh ∈ r.next_hops := fun nh hnh =>
    List.mem_flatMap.mp (hkept.sound nh hnh)
  have hplain : ∀ nh ∈ allNextHops routes, nh.Plain := fun nh hnh => by
    obtain ⟨r, hr, hmem⟩ := hsound nh hnh
    exact h r hr nh hmem
  refine ⟨?_, hsound, fun r hr nh hnh => ?_⟩
  · refine List.pairwise_map.mpr ((List.pairwise_map.mp hkept.nodup).imp_of_mem ?_)
    exact fun ha hb hne heq => hne ((hopKey_eq_iff (hplain _ ha) (hplain _ hb)).mpr heq)
  · have hkey := (hkept.keys _).mp (hkept.complete nh (List.mem_flatMap.mpr ⟨r, hr, hnh⟩))
    obtain ⟨nh', hmem, heq⟩ := List.mem_map.mp hkey
    exact List.mem_map.mpr ⟨nh', hmem, (hopKey_eq_iff (hplain nh' hmem) (h r hr nh hnh)).mp heq⟩

/-- An answer without a next hop leaves nothing to keep, and only such an answer. -/
theorem OneOfEach.isEmpty_iff {routes : List RouteRep} {hops : List NextHopRep}
    (h : OneOfEach routes hops) : hops.isEmpty ↔ ∀ r ∈ routes, r.next_hops = [] := by
  rw [List.isEmpty_iff]
  constructor
  · rintro rfl r hr
    exact List.eq_nil_iff_forall_not_mem.mpr fun nh hnh =>
      absurd (h.complete r hr nh hnh) List.not_mem_nil
  · intro hnone
    refine List.eq_nil_iff_forall_not_mem.mpr fun nh hnh => ?_
    obtain ⟨r, hr, hmem⟩ := h.sound nh hnh
    rw [hnone r hr] at hmem
    exact absurd hmem List.not_mem_nil

/-! ### The walk is a breadth-first search -/

namespace Mesh

/-- `v` is the peer behind a next hop of what `u` answers: its first registered link on the egress
    interface ends there. -/
def Neighbour (m : Mesh F) (u v : String) : Prop :=
  ∃ routes, m.dispatchHop u = .ok routes ∧ ∃ r ∈ routes, ∃ addr i,
    NextHopRep.via addr (some i) ∈ r.next_hops ∧ i ≠ "" ∧ peerForEgress m.workers u i = some v

/-- What an agent answers, it answers with plain next hops. -/
def Plain (m : Mesh F) : Prop := ∀ u routes, m.request u = .ok routes → PlainHops routes

variable {m : Mesh F} {u v node : String} {depth : ℕ}

/-- The next hops of a node. -/
def hops (m : Mesh F) (node : String) : List NextHopRep :=
  match m.dispatchHop node with
  | .ok routes => allNextHops routes
  | .error _ => []

/-- The peers behind them. -/
def neighbours (m : Mesh F) (node : String) : List String :=
  (m.hops node).filterMap (m.hopPeer node)

@[simp] theorem egress_none : egress none = none := rfl

@[simp] theorem egress_some (i : String) : egress (some i) = if i = "" then none else some i := by
  by_cases hi : i = "" <;> simp [egress, Option.filter, hi]

theorem Plain.dispatchHop (h : m.Plain) {routes : List RouteRep}
    (hok : m.dispatchHop node = .ok routes) : PlainHops routes := by
  unfold Mesh.dispatchHop at hok
  split at hok
  · exact h node routes hok
  · exact absurd hok (by simp)

/-- Next hops of one kind, address and interface lead to the same peer. -/
theorem hopPeer_congr {nh nh' : NextHopRep} (h : nh.ident = nh'.ident) :
    m.hopPeer node nh = m.hopPeer node nh' := by
  cases nh with
  | dev iface => cases nh' with
    | dev iface' => rfl
    | via addr' iface' => exact absurd h (by simp [NextHopRep.ident])
  | via addr iface => cases nh' with
    | dev iface' => exact absurd h (by simp [NextHopRep.ident])
    | via addr' iface' =>
      simp only [NextHopRep.ident, HopIdent.via.injEq] at h
      have hegress : egress iface = egress iface' := by
        cases iface <;> cases iface' <;> simp_all
      simp only [hopPeer, hegress]

theorem hopPeer_eq_some {nh : NextHopRep} : m.hopPeer node nh = some v ↔
    ∃ addr i, nh = .via addr (some i) ∧ i ≠ "" ∧ peerForEgress m.workers node i = some v := by
  cases nh with
  | dev iface => simp [hopPeer]
  | via addr iface =>
    cases iface with
    | none => simp [hopPeer]
    | some i => by_cases hi : i = "" <;> simp [hopPeer, hi]

theorem mem_neighbours (h : m.Plain) (u v : String) : v ∈ m.neighbours u ↔ m.Neighbour u v := by
  unfold neighbours hops Neighbour
  cases hok : m.dispatchHop u with
  | error reason => simp
  | ok routes =>
    have hspec := allNextHops_spec (h.dispatchHop hok)
    simp only [Except.ok.injEq, exists_eq_left']
    rw [List.mem_filterMap]
    constructor
    · rintro ⟨nh, hnh, hpeer⟩
      obtain ⟨addr, i, rfl, hi, hv⟩ := hopPeer_eq_some.mp hpeer
      obtain ⟨r, hr, hmem⟩ := hspec.sound _ hnh
      exact ⟨r, hr, addr, i, hmem, hi, hv⟩
    · rintro ⟨r, hr, addr, i, hmem, hi, hv⟩
      -- the next hop that was kept for this one leads to the same peer
      obtain ⟨nh', hnh', hident⟩ := List.mem_map.mp (hspec.complete r hr _ hmem)
      exact ⟨nh', hnh', (hopPeer_congr hident).trans (hopPeer_eq_some.mpr ⟨addr, i, rfl, hi, hv⟩)⟩

/-- The rows of a node. -/
def nodeRows (m : Mesh F) (depth : ℕ) (node : String) : List (TraceEdge F) :=
  if hopCap ≤ depth then
    [.brokenRow depth node ("hop cap (" ++ toString hopCap ++ ") reached")]
  else
    match m.dispatchHop node with
    | .error reason => [.brokenRow depth node reason]
    | .ok routes =>
      if (allNextHops routes).isEmpty then
        [.brokenRow depth node (if routes.isEmpty then "unresolvable" else "no usable next hop")]
      else (allNextHops routes).map (m.hopRow depth node)

/-- The walk is where the search is. -/
structure Follows (m : Mesh F) (w : Walk F) (t : Search String) : Prop where
  frontier : w.frontier = t.queue
  visited : w.visited = t.seen
  edges : w.edges = t.done.flatMap (fun p => m.nodeRows p.2 p.1)
  asked : w.asked = (t.done.filter (fun p => p.2 < hopCap)).map Prod.fst
  cap_hit : w.cap_hit = t.done.any (fun p => hopCap ≤ p.2)

/-- The next hops are rows in their order, and their peers are queued as the search queues them. -/
theorem foldl_visitHop (m : Mesh F) (depth : ℕ) (node : String) (hops : List NextHopRep) :
    ∀ (w : Walk F) (t : Search String), w.frontier = t.queue → w.visited = t.seen →
    let w' := hops.foldl (m.visitHop depth node) w
    let t' := (hops.filterMap (m.hopPeer node)).foldl (Search.add (depth + 1)) t
    w'.frontier = t'.queue ∧ w'.visited = t'.seen ∧
      w'.edges = w.edges ++ hops.map (m.hopRow depth node) ∧ w'.asked = w.asked ∧
      w'.cap_hit = w.cap_hit := by
  induction hops with
  | nil =>
    intro w t hq hv
    exact ⟨hq, hv, (List.append_nil _).symm, rfl, rfl⟩
  | cons nh hops ih =>
    intro w t hq hv
    rw [List.foldl_cons, List.filterMap_cons]
    -- one next hop: a row, and its peer
    have hstep : let w₁ := m.visitHop depth node w nh
        let t₁ := ((m.hopPeer node nh).map (Search.add (depth + 1) t)).getD t
        w₁.frontier = t₁.queue ∧ w₁.visited = t₁.seen ∧
          w₁.edges = w.edges ++ [m.hopRow depth node nh] ∧ w₁.asked = w.asked ∧
          w₁.cap_hit = w.cap_hit := by
      unfold visitHop Search.add
      cases hpeer : m.hopPeer node nh with
      | none => exact ⟨hq, hv, rfl, rfl, rfl⟩
      | some p =>
        by_cases hp : p ∈ w.visited
        · have hp' : p ∈ t.seen := hv ▸ hp
          simp only [hp, hp', if_true, Option.map_some, Option.getD_some]
          exact ⟨hq, hv, trivial, trivial, trivial⟩
        · have hp' : p ∉ t.seen := hv ▸ hp
          simp only [hp', if_false, Option.map_some, Option.getD_some, hq, hv, and_self]
    obtain ⟨hq₁, hv₁, he₁, ha₁, hc₁⟩ := hstep
    obtain ⟨hq₂, hv₂, he₂, ha₂, hc₂⟩ := ih _ _ hq₁ hv₁
    rw [he₁, List.append_assoc] at he₂
    cases hpeer : m.hopPeer node nh with
    | none =>
      rw [hpeer] at hq₂ hv₂
      exact ⟨hq₂, hv₂, he₂, ha₂.trans ha₁, hc₂.trans hc₁⟩
    | some p =>
      rw [hpeer] at hq₂ hv₂
      exact ⟨hq₂, hv₂, he₂, ha₂.trans ha₁, hc₂.trans hc₁⟩

variable {w : Walk F} {t t' : Search String}

/-- With a node taken off and its rows given, the walk is where the search is before it queues. -/
theorem Follows.took (h : m.Follows w t) (u : String) (d : ℕ) (rest : List (String × ℕ)) :
    m.Follows
      { w with
        frontier := rest
        edges := w.edges ++ m.nodeRows d u
        asked := if hopCap ≤ d then w.asked else w.asked ++ [u]
        cap_hit := if hopCap ≤ d then true else w.cap_hit }
      { t with done := t.done ++ [(u, d)], queue := rest } where
  frontier := rfl
  visited := h.visited
  edges := by rw [List.flatMap_append, List.flatMap_singleton, h.edges]
  asked := by
    rw [List.filter_append, List.map_append, h.asked]
    by_cases hcap : hopCap ≤ d
    · simp [hcap]
    · simp [hcap, not_le.mp hcap]
  cap_hit := by
    rw [List.any_append, h.cap_hit]
    by_cases hcap : hopCap ≤ d <;> simp [hcap]

/-- A round of the walk is a step of the search. -/
theorem Follows.step (h : m.Follows w t) (hs : t.step m.neighbours hopCap = some t') :
    ∃ w', m.walkStep w = some w' ∧ m.Follows w' t' := by
  unfold Search.step at hs
  unfold walkStep
  rw [h.frontier]
  cases hq : t.queue with
  | nil =>
    rw [hq] at hs
    exact absurd hs (by simp)
  | cons p rest =>
    obtain ⟨u, d⟩ := p
    rw [hq] at hs
    dsimp only at hs ⊢
    obtain rfl := Option.some.inj hs
    have htook := h.took u d rest
    by_cases hcap : hopCap ≤ d
    · -- the cap row, and nothing is queued
      simp only [nodeRows, if_pos hcap] at htook
      rw [if_pos hcap, if_pos hcap]
      exact ⟨_, rfl, htook⟩
    · simp only [nodeRows, if_neg hcap] at htook
      rw [if_neg hcap, if_neg hcap]
      cases hok : m.dispatchHop u with
      -- no answer: a node without neighbours
      | error reason =>
        have hnone : m.neighbours u = [] := by simp [neighbours, hops, hok]
        simp only [hok] at htook
        rw [hnone]
        exact ⟨_, rfl, htook⟩
      | ok routes =>
        have hsome : m.neighbours u = (allNextHops routes).filterMap (m.hopPeer u) := by
          simp [neighbours, hops, hok]
        -- the loop over the next hops, against the search that queues their peers
        obtain ⟨hfrontier, hvisited, hedges, hasked, hcap_hit⟩ :=
          m.foldl_visitHop d u (allNextHops routes)
            { w with frontier := rest, asked := w.asked ++ [u] }
            { t with done := t.done ++ [(u, d)], queue := rest } rfl h.visited
        have hdone := Search.done_addAll (d + 1)
          { t with done := t.done ++ [(u, d)], queue := rest } (m.neighbours u)
        rw [hsome] at hdone ⊢
        simp only [hok] at htook
        dsimp only at hedges hasked hcap_hit ⊢
        by_cases hempty : (allNextHops routes).isEmpty
        · -- no next hop, no row but the broken one
          rw [if_pos hempty] at htook ⊢
          have hnil : (allNextHops routes).map (m.hopRow d u) = [] := by
            rw [List.isEmpty_iff.mp hempty, List.map_nil]
          rw [hnil, List.append_nil] at hedges
          refine ⟨_, rfl, hfrontier, hvisited, ?_, ?_, ?_⟩
          · rw [hdone, ← htook.edges, hedges]
          · rw [hdone, ← htook.asked, hasked]
          · rw [hdone, ← htook.cap_hit, hcap_hit]
        · -- otherwise the rows are those of the next hops
          rw [if_neg hempty] at htook ⊢
          refine ⟨_, rfl, hfrontier, hvisited, ?_, ?_, ?_⟩
          · rw [hdone, ← htook.edges, hedges]
          · rw [hdone, ← htook.asked, hasked]
          · rw [hdone, ← htook.cap_hit, hcap_hit]

/-- **The walk is a breadth-first search** over the neighbours, and gives each node it takes off the
    queue its rows. -/
theorem walk_simulates (m : Mesh F) (fuel : ℕ) («from» : String)
    (hloop : loop (Search.step m.neighbours hopCap) fuel (Search.start «from») = some t) :
    ∃ w, m.walk fuel «from» = some w ∧ m.Follows w t := by
  refine loop_sim m.Follows (fun w t h hend => ?_) (fun w t t' h hs => h.step hs) fuel
    ⟨[], {«from»}, [(«from», 0)], false, false, []⟩ _ t ⟨rfl, rfl, rfl, rfl, rfl⟩ hloop
  -- an empty queue ends both
  unfold Search.step at hend
  split at hend
  · rename_i hq
    unfold walkStep
    rw [h.frontier, hq]
  · exact absurd hend (by simp)

/-! ### What the walk gives -/

/-- The rows a node calls for: at the cap the cap row, else one broken row for a failing node, and
    for an answer a row for each next hop, or one broken row if it has none. -/
def RowsOf (m : Mesh F) (depth : ℕ) (node : String) (rows : List (TraceEdge F)) : Prop :=
  if hopCap ≤ depth then
    rows = [.brokenRow depth node ("hop cap (" ++ toString hopCap ++ ") reached")]
  else
    match m.dispatchHop node with
    | .error reason => rows = [.brokenRow depth node reason]
    | .ok routes =>
      ((∀ r ∈ routes, r.next_hops = []) ∧ ∃ reason, rows = [.brokenRow depth node reason]) ∨
      ((∃ r ∈ routes, r.next_hops ≠ []) ∧
        ∃ hops, OneOfEach routes hops ∧ rows = hops.map (m.hopRow depth node))

/-- The outcome of a breadth-first walk. -/
structure BreadthFirst (m : Mesh F) («from» : String) (w : Walk F) : Prop where
  asked_once : w.asked.Nodup
  asked_iff : ∀ v, v ∈ w.asked ↔ ∃ d < hopCap, IsDist m.Neighbour «from» v d
  /-- Row by row of the nodes within the cap, each of them once. -/
  rows : ∃ (order : List (String × ℕ)) (rows : String × ℕ → List (TraceEdge F)),
    (order.map Prod.fst).Nodup ∧
    (∀ v d, (v, d) ∈ order ↔ IsDist m.Neighbour «from» v d ∧ d ≤ hopCap) ∧
    w.edges = order.flatMap rows ∧ ∀ p ∈ order, m.RowsOf p.2 p.1 (rows p)
  depth : ∀ e ∈ w.edges, IsDist m.Neighbour «from» e.node e.depth
  cap_hit : w.cap_hit = true ↔ ∃ v, IsDist m.Neighbour «from» v hopCap

theorem nodeRows_spec (h : m.Plain) (depth : ℕ) (node : String) :
    m.RowsOf depth node (m.nodeRows depth node) := by
  unfold RowsOf nodeRows
  by_cases hcap : hopCap ≤ depth
  · rw [if_pos hcap, if_pos hcap]
  · rw [if_neg hcap, if_neg hcap]
    cases hok : m.dispatchHop node with
    | error reason => rfl
    | ok routes =>
      dsimp only
      have hspec := allNextHops_spec (h.dispatchHop hok)
      by_cases hempty : (allNextHops routes).isEmpty
      · rw [if_pos hempty]
        exact Or.inl ⟨hspec.isEmpty_iff.mp hempty, _, rfl⟩
      · rw [if_neg hempty]
        have hsome : ∃ r ∈ routes, r.next_hops ≠ [] := by
          by_contra hnone
          push Not at hnone
          exact hempty (hspec.isEmpty_iff.mpr hnone)
        exact Or.inr ⟨hsome, _, hspec, rfl⟩

/-- Every row of a node says its name and depth. -/
theorem mem_nodeRows {e : TraceEdge F} (h : e ∈ m.nodeRows depth node) :
    e.node = node ∧ e.depth = depth := by
  unfold nodeRows at h
  split at h
  · obtain rfl := List.mem_singleton.mp h
    exact ⟨rfl, rfl⟩
  · split at h
    · obtain rfl := List.mem_singleton.mp h
      exact ⟨rfl, rfl⟩
    · split at h
      · obtain rfl := List.mem_singleton.mp h
        exact ⟨rfl, rfl⟩
      · obtain ⟨nh, -, rfl⟩ := List.mem_map.mp h
        cases nh with
        | dev iface => exact ⟨rfl, rfl⟩
        | via addr iface =>
          unfold hopRow viaRow
          dsimp only
          split
          · split <;> exact ⟨rfl, rfl⟩
          · exact ⟨rfl, rfl⟩

/-- **The route trace is a breadth-first walk.**  Where no next hop has a slash in its address or
    interface, the walk ends; it asks each node nearer than the cap once, gives each node its rows at
    its distance, and says whether it was cut at the cap. -/
theorem walk_spec (m : Mesh F) (hplain : m.Plain) («from» : String) :
    ∃ n, ∀ fuel, n < fuel → ∃ w, m.walk fuel «from» = some w ∧ m.BreadthFirst «from» w := by
  obtain ⟨n, hsearch⟩ := search_spec (mem_neighbours hplain) «from» hopCap
  refine ⟨n, fun fuel hfuel => ?_⟩
  obtain ⟨t, hloop, -, hnodup, -, hmem⟩ := hsearch fuel hfuel
  obtain ⟨w, hwalk, hfollows⟩ := m.walk_simulates fuel «from» hloop
  refine ⟨w, hwalk, ?_, fun v => ?_, ?_, fun e he => ?_, ?_⟩
  · -- the nodes asked are those finished short of the cap, and a search finishes a node once
    rw [hfollows.asked]
    exact hnodup.sublist ((List.filter_sublist).map _)
  · rw [hfollows.asked]
    constructor
    · intro hv
      obtain ⟨⟨v, d⟩, hp, rfl⟩ := List.mem_map.mp hv
      obtain ⟨hdone, hlt⟩ := List.mem_filter.mp hp
      exact ⟨d, by simpa using hlt, ((hmem v d).mp hdone).1⟩
    · rintro ⟨d, hlt, hdist⟩
      have hdone := (hmem v d).mpr ⟨hdist, hlt.le⟩
      exact List.mem_map.mpr ⟨(v, d), List.mem_filter.mpr ⟨hdone, by simpa using hlt⟩, rfl⟩
  · exact ⟨t.done, fun p => m.nodeRows p.2 p.1, hnodup, hmem, hfollows.edges,
      fun p _ => nodeRows_spec hplain p.2 p.1⟩
  · rw [hfollows.edges] at he
    obtain ⟨⟨v, d⟩, hdone, hrow⟩ := List.mem_flatMap.mp he
    obtain ⟨hnode, hdepth⟩ := mem_nodeRows hrow
    rw [hnode, hdepth]
    exact ((hmem v d).mp hdone).1
  · -- the cap was hit if a node was finished at it
    rw [hfollows.cap_hit, List.any_eq_true]
    constructor
    · rintro ⟨⟨v, d⟩, hdone, hle⟩
      obtain ⟨hdist, hcap⟩ := (hmem v d).mp hdone
      obtain rfl : d = hopCap := le_antisymm hcap (by simpa using hle)
      exact ⟨v, hdist⟩
    · rintro ⟨v, hdist⟩
      exact ⟨(v, hopCap), (hmem v hopCap).mpr ⟨hdist, le_rfl⟩, by simp⟩

/-- `hub-a` with a link to `node-0`, where the destination is.  `hub-a` answers one interface
    twice: without an address, and with an empty one. -/
private def twoRoutes : List RouteRep :=
  [⟨[.via none (some "awg0"), .via (some "") (some "awg0")]⟩]

private def twoHops : Mesh ℕ where
  workers := ((WorkerRegistry.new.register "node-0" [] none ∅ none).1.register "hub-a"
    [⟨"hub-a", "node-0", "awg0"⟩] none ∅ none).1
  kv := LwwStore.new
  request a := if a = "hub-a" then .ok twoRoutes else .ok [⟨[.dev (some "lo")]⟩]

private theorem plain_twoHops : twoHops.Plain := by
  intro u routes h
  dsimp only [twoHops] at h
  split at h
  · obtain rfl := Except.ok.inj h
    intro r hr nh hnh
    obtain rfl := List.mem_singleton.mp hr
    rcases List.mem_pair.mp hnh with rfl | rfl
    · exact ⟨by decide, by decide⟩
    · exact ⟨by decide, by decide⟩
  · obtain rfl := Except.ok.inj h
    intro r hr nh hnh
    obtain rfl := List.mem_singleton.mp hr
    obtain rfl := List.mem_singleton.mp hnh
    exact (by decide : '/' ∉ ("lo" : String).toList)

theorem walk_twoHops : ∃ n, ∀ fuel, n < fuel → ∃ w, twoHops.walk fuel "hub-a" = some w ∧
    twoHops.BreadthFirst "hub-a" w :=
  walk_spec twoHops plain_twoHops "hub-a"

/-- **No address is an empty address.**  Two next hops that differ in nothing else are one row. -/
theorem unnamed_address_is_empty :
    twoHops.dispatchHop "hub-a" = .ok twoRoutes ∧
      (NextHopRep.via none (some "awg0")) ≠ .via (some "") (some "awg0") ∧
      ∃ w, twoHops.walk 3 "hub-a" = some w ∧
        (w.edges.filter (fun e => e.node = "hub-a")).length = 1 := by
  refine ⟨by decide, by decide, _, rfl, by decide⟩

end Mesh

end Mielofon
