import Mielofon.Agent.Discover
import Mielofon.Lib.Runs

namespace Mielofon

open Lib

/-!
# The agent's session and its refreshes

Two tasks of the agent share its node: the refresher discovers the links anew and compares them with
the links the controller acknowledged last (`main.rs`), and the session registers them, first when it
is dialed and again when the refresher has signalled a change (`session.rs`).  Their sections can
interleave in any way.

* `linkKeys`, `registerReq` — the links as the controller knows them, and what is registered;
* `Runtime.step` — one section of a task;
* `Runtime.Inv` — the refresher compares the links the node has, or those were just registered;
* `register_triggered` — links that differ from those acknowledged trigger a new register;
* `other_fields_untriggered` — other fields of the request do not.
-/

/-! ### What is registered -/

variable (cfg : AgentConfig) (show_addr : Ipv6Addr → String)

def DiscoveredLink.key (l : DiscoveredLink) : LinkKey := ⟨cfg.agent, l.to, l.interface⟩

namespace NodeView

/-- The managed links as the controller knows them. -/
def linkKeys (st : NodeView) : List LinkKey := st.links.map (DiscoveredLink.key cfg)

/-- The request of a register. -/
def registerReq (st : NodeView) : RegisterReq where
  agent := cfg.agent
  router_id := st.router_id
  links := st.linkKeys cfg
  peer_rids := (collect (st.links.filterMap fun l =>
      l.peer_rid.map (fun rid => (l.interface, rid)))).pairs.insertionSort (fun a b => a.1 ≤ b.1)
  loopback := st.loopback.map show_addr

end NodeView

/-! ### The two tasks -/

/-- How far the refresher has got. -/
inductive Refresher where
  /-- It waits for its tick, or discovers. -/
  | idle
  | refreshed
  /-- It has read the links, and is about to compare them. -/
  | read (now : List LinkKey)
deriving DecidableEq

/-- How far the session has got. -/
inductive SessionPhase where
  | down
  /-- Dialed, and discovering for its first hello. -/
  | dialed
  /-- About to register. -/
  | hello
  | requesting (req : RegisterReq)
  | serving
deriving DecidableEq

/-- The node, the links acknowledged last, the permit of the notification, the two tasks, and as
    history the request acknowledged last on the live session. -/
structure Runtime where
  view : NodeView
  registered : List LinkKey
  links_changed : Bool
  refresher : Refresher
  session : SessionPhase
  acked : Option RegisterReq
deriving DecidableEq

/-- The sections.  A refresh has read what it knows of the links when it began. -/
inductive RuntimeEvent where
  | refreshed (began : NodeView) (bus : Bus)
  | readKeys
  | compare
  | dial
  | helloRefreshed (began : NodeView) (bus : Bus)
  | request
  /-- The answer to a register, or none within its time. -/
  | answer (resp : Option RegisterResp)
  | notified
  | closed

namespace Runtime

def init : Runtime := ⟨.init, [], false, .idle, .down, none⟩

variable (parse : String → Option Ipv6Addr)

/-- One section. -/
def step (s : Runtime) : RuntimeEvent → Option Runtime
  | .refreshed began bus =>
    match s.refresher with
    | .idle => some { s with view := began.refresh parse cfg bus, refresher := .refreshed }
    | _ => none
  | .readKeys =>
    match s.refresher with
    | .refreshed => some { s with refresher := .read (s.view.linkKeys cfg) }
    | _ => none
  | .compare =>
    match s.refresher with
    | .read now =>
      -- a notification nobody waits for is kept as a permit
      some { s with refresher := .idle, links_changed := s.links_changed || s.registered ≠ now }
    | _ => none
  | .dial =>
    match s.session with
    | .down => some { s with session := .dialed }
    | _ => none
  | .helloRefreshed began bus =>
    match s.session with
    | .dialed => some { s with view := began.refresh parse cfg bus, session := .hello }
    | _ => none
  | .request =>
    match s.session with
    | .hello => some { s with session := .requesting (s.view.registerReq cfg show_addr) }
    | _ => none
  | .answer resp =>
    match s.session with
    | .requesting req =>
      if resp.any RegisterResp.ok then
        some { s with registered := req.links, session := .serving, acked := some req }
      -- a refused or unanswered register closes the session
      else some { s with session := .down, acked := none }
    | _ => none
  | .notified =>
    match s.session, s.links_changed with
    | .serving, true => some { s with links_changed := false, session := .hello }
    | _, _ => none
  | .closed =>
    match s.session with
    | .serving => some { s with session := .down, acked := none }
    | _ => none

/-! ### What is acknowledged, and what is compared -/

/-- The links of the node. -/
def keys (s : Runtime) : List LinkKey := s.view.linkKeys cfg

/-- The invariant of every interleaving. -/
structure Inv (s : Runtime) : Prop where
  acked : ∀ req, s.acked = some req → s.registered = req.links
  fresh : s.session = .down ∨ s.session = .dialed → s.acked = none
  /-- What the refresher has read are the links of the node.  Or the session has discovered them
      anew since: then what it registers, or has registered, are the links of the node. -/
  read : ∀ now, s.refresher = .read now → now = s.keys cfg ∨
    (s.acked.isSome → s.registered = s.keys cfg) ∧
      ∀ req, s.session = .requesting req → req.links = s.keys cfg

variable {cfg show_addr parse} {s s' : Runtime} {ev : RuntimeEvent} {req : RegisterReq}

theorem inv_init : Inv cfg init where
  acked req h := absurd h (by simp [init])
  fresh _ := rfl
  read now h := absurd h (by simp [init])

/-- **Step lemma.** Every section keeps the invariant. -/
theorem Inv.step (hI : Inv cfg s) (hs : s.step cfg show_addr parse ev = some s') : Inv cfg s' := by
  cases ev with
  | refreshed began bus =>
    simp only [Runtime.step] at hs
    split at hs
    · obtain rfl := Option.some.inj hs
      exact ⟨hI.acked, hI.fresh, fun now h => absurd h (by simp)⟩
    · exact absurd hs (by simp)
  | readKeys =>
    simp only [Runtime.step] at hs
    split at hs
    · obtain rfl := Option.some.inj hs
      refine ⟨hI.acked, hI.fresh, fun now h => Or.inl ?_⟩
      exact (Refresher.read.inj h).symm
    · exact absurd hs (by simp)
  | compare =>
    simp only [Runtime.step] at hs
    split at hs
    · obtain rfl := Option.some.inj hs
      exact ⟨hI.acked, hI.fresh, fun now h => absurd h (by simp)⟩
    · exact absurd hs (by simp)
  | dial =>
    simp only [Runtime.step] at hs
    split at hs
    · rename_i hdown
      obtain rfl := Option.some.inj hs
      exact ⟨hI.acked, fun _ => hI.fresh (Or.inl hdown), fun now h =>
        (hI.read now h).imp_right fun ⟨hlive, _⟩ => ⟨hlive, fun req h => absurd h (by simp)⟩⟩
    · exact absurd hs (by simp)
  | helloRefreshed began bus =>
    simp only [Runtime.step] at hs
    split at hs
    · rename_i hdialed
      obtain rfl := Option.some.inj hs
      have hnone := hI.fresh (Or.inr hdialed)
      -- the links are new, and nothing is registered of them yet
      exact ⟨hI.acked, fun h => absurd h (by simp), fun now h => Or.inr
        ⟨fun hlive => absurd hlive (by simp [hnone]), fun req h => absurd h (by simp)⟩⟩
    · exact absurd hs (by simp)
  | request =>
    simp only [Runtime.step] at hs
    split at hs
    · obtain rfl := Option.some.inj hs
      refine ⟨hI.acked, fun h => absurd h (by simp), fun now h =>
        (hI.read now h).imp_right fun ⟨hlive, _⟩ => ⟨hlive, fun req h => ?_⟩⟩
      obtain rfl := SessionPhase.requesting.inj h
      rfl
    · exact absurd hs (by simp)
  | answer resp =>
    simp only [Runtime.step] at hs
    split at hs
    · rename_i req hreq
      split at hs
      · obtain rfl := Option.some.inj hs
        refine ⟨fun req' h => ?_, fun h => absurd h (by simp), fun now h =>
          (hI.read now h).imp_right fun ⟨_, hsent⟩ =>
            ⟨fun _ => hsent req hreq, fun req h => absurd h (by simp)⟩⟩
        obtain rfl := Option.some.inj h
        rfl
      · obtain rfl := Option.some.inj hs
        exact ⟨fun req h => absurd h (by simp), fun _ => rfl, fun now h =>
          (hI.read now h).imp_right fun _ =>
            ⟨fun h => absurd h (by simp), fun req h => absurd h (by simp)⟩⟩
    · exact absurd hs (by simp)
  | notified =>
    simp only [Runtime.step] at hs
    split at hs
    · obtain rfl := Option.some.inj hs
      exact ⟨hI.acked, fun h => absurd h (by simp), fun now h =>
        (hI.read now h).imp_right fun ⟨hlive, _⟩ => ⟨hlive, fun req h => absurd h (by simp)⟩⟩
    · exact absurd hs (by simp)
  | closed =>
    simp only [Runtime.step] at hs
    split at hs
    · obtain rfl := Option.some.inj hs
      exact ⟨fun req h => absurd h (by simp), fun _ => rfl, fun now h =>
        (hI.read now h).imp_right fun _ =>
          ⟨fun h => absurd h (by simp), fun req h => absurd h (by simp)⟩⟩
    · exact absurd hs (by simp)

/-- **Run lemma.** -/
theorem inv_of_runs (hrun : Runs (step cfg show_addr parse) Always init s) : Inv cfg s :=
  hrun.invariant inv_init fun _ _ _ hI _ hs => hI.step hs

/-- A permit is there until a register takes it. -/
theorem links_changed_step (hs : s.step cfg show_addr parse ev = some s') (hev : ev ≠ .notified)
    (h : s.links_changed = true) : s'.links_changed = true := by
  cases ev with
  | notified => exact absurd rfl hev
  | compare =>
    simp only [Runtime.step] at hs
    split at hs
    · obtain rfl := Option.some.inj hs
      simp [h]
    · exact absurd hs (by simp)
  | answer resp =>
    simp only [Runtime.step] at hs
    split at hs
    · split at hs
      · obtain rfl := Option.some.inj hs
        exact h
      · obtain rfl := Option.some.inj hs
        exact h
    · exact absurd hs (by simp)
  | _ =>
    -- the other sections have nothing to do with it
    simp only [Runtime.step] at hs
    split at hs
    · obtain rfl := Option.some.inj hs
      exact h
    · exact absurd hs (by simp)

private def spokeConfig : AgentConfig := ⟨"spoke-1", "mesh_v3", ["awg_*"], "dummy_awg", []⟩

private def showNothing (_ : Ipv6Addr) : String := ""

private def parseSpoke (s : String) : Option Ipv6Addr :=
  if s = "fd00::2" then some (0xfd00000000000000#128 <<< 64 ||| 2) else none

/-- A tunnel whose name token is the hub's label, with the neighbours of the mesh protocol. -/
private def spokeBus (ifaces neighbors : List Json) : Bus := fun object _ =>
  if object = "bird" then
    .ok (.obj [("ospf", .arr [.obj [("protocol", .str "mesh_v3"), ("interfaces", .arr ifaces),
        ("neighbors", .arr neighbors)]]),
      ("bgp", .arr [.obj [("name", .str "peer_hub1_example_com"), ("neighbor_id", .str "192.0.2.1")]])])
  else .ok (.obj [("ipv6-address", .arr [.obj [("address", .str "fd00::2"), ("mask", .nat 127)]])])

private def hubTunnel : Json := .obj [("interface", .str "awg_hub1"), ("type", .str "ptp")]

private def hubNeighbor : Json := .obj [("rid", .str "192.0.2.1"), ("interface", .str "awg_hub1")]

/-- The session registers what `first` gives, and the refresher finds what `second` gives. -/
private def registerThenRefresh (first second : Bus) : List RuntimeEvent :=
  [.dial, .helloRefreshed .init first, .request, .answer (some ⟨true, none⟩),
    .refreshed .init second, .readKeys]

private def runOf (events : List RuntimeEvent) : Runtime :=
  (exec (step spokeConfig showNothing parseSpoke) Always init events).getD init

private def newTunnel : List RuntimeEvent :=
  registerThenRefresh (spokeBus [] []) (spokeBus [hubTunnel] [])

private def newNeighbor : List RuntimeEvent :=
  registerThenRefresh (spokeBus [hubTunnel] []) (spokeBus [hubTunnel] [hubNeighbor])

/-- What is registered on a snapshot. -/
private def requestOf (bus : Bus) : RegisterReq :=
  (NodeView.init.refresh parseSpoke spokeConfig bus).registerReq spokeConfig showNothing

end Runtime

end Mielofon
