import Mathlib.Data.Finset.Basic
import Mielofon.Lib.Map
import Mielofon.Proto

namespace Mielofon

open Lib

/-!
# The agent registry

`WorkerRegistry` (`worker.rs`): which agents are connected, which links they own, the session
their commands are dispatched on, and what was sent to them.  Every operation takes the one
lock of the registry, so each is a pure function of it.

* `Worker`, `WorkerRegistry` — the state of one agent, and of all;
* `register`, `attach`, `detach` — the life of a registration;
* `resolvePeers`, `canonicalPeer` — the names of far ends;
* `beginCmd`, `endCmd` — the slot a command occupies while outstanding;
* `applyDue`, `setAppliedSent`, `noteApplyFailed` — what the agent was told to apply;
* `worker_register`, `worker_attach`, `worker_detach`, … — what each operation leaves for each
  agent.
-/

/-- How long (seconds) a failed cost apply is left alone before it is re-sent. -/
def applyRetrySecs : ℕ := 30

/-- What is tracked as in flight per link. -/
inductive Kind where
  | always
  | throughput
  | apply
deriving DecidableEq, Repr

/-- The (link, kind) a command occupies while outstanding; traces are not per link. -/
def trackKey : WorkCmd → Option (LinkKey × Kind)
  | .probe _ .always _ link _ => some (link, .always)
  | .probe _ .throughput _ link _ => some (link, .throughput)
  | .applyCost _ link _ _ => some (link, .apply)
  | .trace .. => none

/-- Per-agent state.  Sessions are numbered in the order they were accepted. -/
structure Worker where
  links : List LinkKey
  /-- The node's own router id, the key of its directory entry. -/
  router_id : Option String
  /-- interface → router id of the neighbour, for naming `to` exactly. -/
  peer_rids : Map String String
  loopback : Option String
  /-- The live session and its generation. -/
  session : Option (ℕ × ℕ)
  /-- link id → cost the controller has sent (even if not yet acked). -/
  applied_sent : Map String ℕ
  /-- link id → second before which a failed apply is not re-sent. -/
  apply_retry_at : Map String ℕ
  /-- link id → second of the last issue per tier. -/
  last_issue : Map (String × Tier) ℕ
  /-- Commands outstanding on the session. -/
  in_flight : Finset (String × Kind)

namespace Worker

/-- The state of an agent nothing is known of. -/
def default : Worker := ⟨[], none, ∅, none, none, ∅, ∅, ∅, ∅⟩

/-- Whether a probe of the tier is due on the link. -/
def isDue (w : Worker) (link : String) (tier : Tier) (now interval : ℕ) : Bool :=
  match w.last_issue.get (link, tier) with
  | some t => interval ≤ now - t
  | none => true

end Worker

/-- Matching key for node names: dots and hyphens folded into underscores. -/
def nameKey (name : String) : String :=
  String.ofList (name.toList.map (fun c => if c = '-' ∨ c = '.' then '_' else c.toLower))

/-- Registry of agents.  `generation` counts the sessions attached so far. -/
structure WorkerRegistry where
  inner : Map String Worker
  generation : ℕ

namespace WorkerRegistry

/-- The registry without agents. -/
def new : WorkerRegistry := ⟨∅, 0⟩

/-- The state of an agent. -/
def worker (r : WorkerRegistry) (agent : String) : Option Worker := r.inner.get agent

/-- The state of an agent, created when there is none (`entry(..).or_default()`). -/
def entry (r : WorkerRegistry) (agent : String) : Worker := (r.worker agent).getD .default

/-- Update the state of an agent, if it is known. -/
def modify (r : WorkerRegistry) (agent : String) (f : Worker → Worker) : WorkerRegistry :=
  match r.worker agent with
  | some w => { r with inner := r.inner.set agent (f w) }
  | none => r

/-! ### Registration -/

/-- The far end of a reported link, under the name the peer registers under. -/
def settle (agent : String) (names : List String) (l : LinkKey) : LinkKey :=
  match names.find? (fun k => nameKey k = nameKey l.to) with
  | some known => { l with «to» := known }
  | none => if nameKey l.to = nameKey agent then { l with «to» := agent } else l

/-- The far end of another agent's link, once `agent` is known. -/
def settleOther (agent : String) (l : LinkKey) : LinkKey :=
  if l.to ≠ agent ∧ nameKey l.to = nameKey agent then { l with «to» := agent } else l

/-- The state of an agent after it registered: its costs are forgotten, and what was tracked
    for links it no longer reports. -/
def refreshed (w : Worker) (links : List LinkKey) (router_id : Option String)
    (peer_rids : Map String String) (loopback : Option String) : Worker :=
  let keep := links.map LinkKey.id
  { w with
    router_id := router_id
    peer_rids := peer_rids
    loopback := loopback
    applied_sent := ∅
    apply_retry_at := ∅
    last_issue := w.last_issue.retain (fun k _ => k.1 ∈ keep)
    in_flight := w.in_flight.filter (fun k => k.1 ∈ keep)
    links := links }

/-- Register (or refresh) an agent with its current link set.  True when a link is new to the
    registry.  The session, if any, is kept. -/
def register (r : WorkerRegistry) (agent : String) (links : List LinkKey)
    (router_id : Option String) (peer_rids : Map String String) (loopback : Option String) :
    WorkerRegistry × Bool :=
  let links := links.map (settle agent r.inner.keys)
  let others := r.inner.mapVal (fun name w =>
    if name = agent then w else { w with links := w.links.map (settleOther agent) })
  let w := (others.get agent).getD .default
  let fresh := links.any (fun l => l ∉ w.links)
  ({ r with inner := others.set agent (refreshed w links router_id peer_rids loopback) }, fresh)

/-- The far end of a link by its neighbour's router id. -/
def named (w : Worker) (lookup : String → Option String) (l : LinkKey) : LinkKey :=
  match (w.peer_rids.get l.interface).bind lookup with
  | some name => { l with «to» := name }
  | none => l

/-- Name every link's far end by router id through `lookup`, the node directory.  Returns the
    agents whose link set changed, with their router id. -/
def resolvePeers (r : WorkerRegistry) (lookup : String → Option String) :
    WorkerRegistry × List (String × Option String × List LinkKey) :=
  ({ r with inner := r.inner.mapVal (fun _ w => { w with links := w.links.map (named w lookup) }) },
    (r.inner.pairs.filter (fun e => e.2.links.map (named e.2 lookup) ≠ e.2.links)).map
      (fun e => (e.1, e.2.router_id, e.2.links.map (named e.2 lookup))))

/-- The registered spelling of a peer name an agent reported.  Unknown names pass through. -/
def canonicalPeer (r : WorkerRegistry) (name : String) : String :=
  if name ∈ r.inner then name
  else (r.inner.keys.find? (fun k => nameKey k = nameKey name)).getD name

/-! ### Sessions -/

/-- Attach the session commands for `agent` are dispatched on.  `own` is the generation this
    connection already holds, if it registered before: then nothing changes.  Otherwise the
    session replaces the previous one, which is returned.  Returns the generation to detach
    with. -/
def attach (r : WorkerRegistry) (agent : String) (session : ℕ) (own : Option ℕ) :
    WorkerRegistry × ℕ × Option ℕ :=
  let w := r.entry agent
  if own.isSome ∧ own = w.session.map Prod.fst then
    ({ r with inner := r.inner.set agent w }, own.getD 0, none)
  else
    let generation := r.generation + 1
    ({ inner := r.inner.set agent { w with session := some (generation, session), in_flight := ∅ }
       generation := generation },
      generation, w.session.map Prod.snd)

/-- The session of `agent` went away: forget the agent, unless a newer session has replaced it
    meanwhile.  True when evicted. -/
def detach (r : WorkerRegistry) (agent : String) (generation : ℕ) : WorkerRegistry × Bool :=
  match r.worker agent with
  | some w =>
    if w.session.map Prod.fst = some generation then
      ({ r with inner := r.inner.erase agent }, true)
    else (r, false)
  | none => (r, false)

/-- The live session of an agent, if it has one. -/
def session (r : WorkerRegistry) (agent : String) : Option ℕ :=
  (r.worker agent).bind (fun w => w.session.map Prod.snd)

/-! ### Commands in flight -/

/-- Claim the (link, kind) slot for a command about to be dispatched (`begin`).  False when the
    agent is unknown or a command of that kind is already outstanding on the link. -/
def beginCmd (r : WorkerRegistry) (agent : String) (link : LinkKey) (kind : Kind) :
    WorkerRegistry × Bool :=
  match r.worker agent with
  | some w =>
    if (link.id, kind) ∈ w.in_flight then (r, false)
    else (r.modify agent (fun w => { w with in_flight := insert (link.id, kind) w.in_flight }), true)
  | none => (r, false)

/-- Release the slot once the command answered or failed (`end`). -/
def endCmd (r : WorkerRegistry) (agent : String) (link : LinkKey) (kind : Kind) : WorkerRegistry :=
  r.modify agent (fun w => { w with in_flight := w.in_flight.erase (link.id, kind) })

/-- Whether a link's probe of `tier` is due for this agent. -/
def probeDue (r : WorkerRegistry) (agent : String) (link : LinkKey) (tier : Tier)
    (now interval : ℕ) : Bool :=
  ((r.worker agent).map (fun w => w.isDue link.id tier now interval)).getD false

/-- Record that a probe of a tier was issued right now. -/
def markIssued (r : WorkerRegistry) (agent : String) (link : LinkKey) (tier : Tier) (now : ℕ) :
    WorkerRegistry :=
  r.modify agent (fun w => { w with last_issue := w.last_issue.set (link.id, tier) now })

/-! ### Costs sent -/

/-- The last cost the agent was asked to apply for a link, if any. -/
def appliedSent (r : WorkerRegistry) (agent : String) (link : LinkKey) : Option ℕ :=
  (r.worker agent).bind (fun w => w.applied_sent.get link.id)

/-- Whether `cost` should be (re-)sent: it differs from the last cost sent and no failed apply
    is still in its retry back-off. -/
def applyDue (r : WorkerRegistry) (agent : String) (link : LinkKey) (cost now : ℕ) : Bool :=
  match r.worker agent with
  | none => false
  | some w =>
    w.applied_sent.get link.id ≠ some cost ∧ ∀ t ∈ w.apply_retry_at.get link.id, t ≤ now

/-- Remember the cost sent to an agent for a link. -/
def setAppliedSent (r : WorkerRegistry) (agent : String) (link : LinkKey) (cost : ℕ) :
    WorkerRegistry :=
  r.modify agent (fun w => { w with
    apply_retry_at := w.apply_retry_at.erase link.id
    applied_sent := w.applied_sent.set link.id cost })

/-- The agent could not apply the cost: forget it was sent, so that it is re-issued after
    `applyRetrySecs`. -/
def noteApplyFailed (r : WorkerRegistry) (agent : String) (link : LinkKey) (now : ℕ) :
    WorkerRegistry :=
  r.modify agent (fun w => { w with
    applied_sent := w.applied_sent.erase link.id
    apply_retry_at := w.apply_retry_at.set link.id (now + applyRetrySecs) })

/-! ### What each operation leaves for each agent -/

variable {r : WorkerRegistry} {agent a : String}

theorem worker_modify (r : WorkerRegistry) (agent : String) (f : Worker → Worker) (a : String) :
    (r.modify agent f).worker a = if a = agent then (r.worker a).map f else r.worker a := by
  unfold modify
  cases h : r.worker agent with
  | none =>
    show r.worker a = _
    split
    · rename_i ha
      rw [ha, h]; rfl
    · rfl
  | some w =>
    show (r.inner.set agent (f w)).get a = _
    rw [Map.get_set]
    split
    · rename_i ha
      rw [ha, h]; rfl
    · rfl

theorem session_modify {f : Worker → Worker} (hf : ∀ w, (f w).session = w.session)
    (r : WorkerRegistry) (agent a : String) : (r.modify agent f).session a = r.session a := by
  unfold session
  rw [worker_modify]
  split
  · rw [Option.bind_map]
    exact congrArg (Option.bind _) (funext (fun w => congrArg (Option.map Prod.snd) (hf w)))
  · rfl

@[simp] theorem generation_modify (r : WorkerRegistry) (agent : String) (f : Worker → Worker) :
    (r.modify agent f).generation = r.generation := by
  unfold modify
  split <;> rfl

/-- **A registration** gives its agent what it reports and keeps the session; other agents may
    only see far ends renamed. -/
theorem worker_register (r : WorkerRegistry) (agent : String) (links : List LinkKey)
    (router_id : Option String) (peer_rids : Map String String) (loopback : Option String)
    (a : String) :
    (r.register agent links router_id peer_rids loopback).1.worker a =
      if a = agent then
        some (refreshed (r.entry agent) (links.map (settle agent r.inner.keys)) router_id peer_rids
          loopback)
      else (r.worker a).map (fun w => { w with links := w.links.map (settleOther agent) }) := by
  have hsame : (r.inner.mapVal (fun name w =>
      if name = agent then w else { w with links := w.links.map (settleOther agent) })).get agent =
      r.worker agent := by
    rw [Map.get_mapVal]
    cases h : r.inner.get agent with
    | none => rw [worker, h]; rfl
    | some w => rw [worker, h, Option.map_some, if_pos rfl]
  unfold register
  show Map.get (Map.set _ agent _) a = _
  rw [Map.get_set, hsame]
  split
  · rfl
  · rename_i ha
    rw [Map.get_mapVal, worker]
    exact congrArg (Option.map · _) (funext (fun w => if_neg ha))

/-- A registration keeps every session. -/
theorem session_register (r : WorkerRegistry) (agent : String) (links : List LinkKey)
    (router_id : Option String) (peer_rids : Map String String) (loopback : Option String)
    (a : String) :
    (r.register agent links router_id peer_rids loopback).1.session a = r.session a := by
  unfold session
  rw [worker_register]
  split
  · rename_i ha
    subst ha
    cases hw : r.worker a with
    | none => simp [refreshed, entry, hw, Worker.default]
    | some w => simp [refreshed, entry, hw]
  · rw [Option.bind_map]
    rfl

theorem worker_resolvePeers (r : WorkerRegistry) (lookup : String → Option String) (a : String) :
    (r.resolvePeers lookup).1.worker a =
      (r.worker a).map (fun w => { w with links := w.links.map (named w lookup) }) :=
  Map.get_mapVal _ _ _

/-- **Attaching** with the generation that is live changes nothing but that the agent has an
    entry; otherwise the session is replaced under a new generation and its slots are free. -/
theorem worker_attach (r : WorkerRegistry) (agent : String) (session : ℕ) (own : Option ℕ)
    (a : String) :
    (r.attach agent session own).1.worker a =
      if a = agent then
        if own.isSome ∧ own = (r.entry agent).session.map Prod.fst then some (r.entry agent)
        else some { r.entry agent with session := some (r.generation + 1, session), in_flight := ∅ }
      else r.worker a := by
  unfold attach
  dsimp only
  split
  · show Map.get (Map.set _ agent _) a = _
    rw [Map.get_set]; rfl
  · show Map.get (Map.set _ agent _) a = _
    rw [Map.get_set]; rfl

/-- The generation handed out, and the counter after it. -/
theorem attach_generation (r : WorkerRegistry) (agent : String) (session : ℕ) (own : Option ℕ) :
    ((r.attach agent session own).2.1, (r.attach agent session own).1.generation) =
      if own.isSome ∧ own = (r.entry agent).session.map Prod.fst then (own.getD 0, r.generation)
      else (r.generation + 1, r.generation + 1) := by
  unfold attach
  dsimp only
  split <;> rfl

/-- **Detaching** evicts the agent exactly when the generation is the live one. -/
theorem worker_detach (r : WorkerRegistry) (agent : String) (generation : ℕ) (a : String) :
    (r.detach agent generation).1.worker a =
      if a = agent ∧ (r.worker agent).bind (fun w => w.session.map Prod.fst) = some generation
      then none else r.worker a := by
  unfold detach
  cases h : r.worker agent with
  | none => simp
  | some w =>
    rw [Option.bind_some]
    dsimp only
    split
    · rename_i hgen
      show Map.get (Map.erase _ agent) a = _
      rw [Map.get_erase]
      simp only [hgen, and_true]
      rfl
    · rename_i hgen
      rw [if_neg (fun hc => hgen hc.2)]

@[simp] theorem generation_detach (r : WorkerRegistry) (agent : String) (generation : ℕ) :
    (r.detach agent generation).1.generation = r.generation := by
  unfold detach
  split
  · split <;> rfl
  · rfl

theorem detach_of_superseded {generation : ℕ}
    (h : (r.worker agent).bind (fun w => w.session.map Prod.fst) ≠ some generation) :
    r.detach agent generation = (r, false) := by
  unfold detach
  cases hw : r.worker agent with
  | none => rfl
  | some w =>
    rw [hw, Option.bind_some] at h
    exact if_neg h

/-- A cost that is remembered is not due. -/
theorem applyDue_of_appliedSent {link : LinkKey} {cost : ℕ}
    (h : r.appliedSent agent link = some cost) (now : ℕ) :
    r.applyDue agent link cost now = false := by
  obtain ⟨w, hw, hsent⟩ := Option.bind_eq_some_iff.mp h
  unfold applyDue
  rw [hw]
  dsimp only
  rw [decide_eq_false_iff_not]
  exact fun hdue => hdue.1 hsent

/-- **Claiming a slot** succeeds exactly when it was free. -/
theorem beginCmd_eq_true_iff {link : LinkKey} {kind : Kind} :
    (r.beginCmd agent link kind).2 = true ↔
      ∃ w, r.worker agent = some w ∧ (link.id, kind) ∉ w.in_flight := by
  unfold beginCmd
  cases h : r.worker agent with
  | none => simp
  | some w =>
    dsimp only
    split
    · rename_i hin
      simp [hin]
    · rename_i hin
      simp [hin]

/-- A claimed slot is marked in flight, and nothing else. -/
theorem beginCmd_eq_modify {link : LinkKey} {kind : Kind}
    (h : (r.beginCmd agent link kind).2 = true) : (r.beginCmd agent link kind).1 =
      r.modify agent (fun w => { w with in_flight := insert (link.id, kind) w.in_flight }) := by
  obtain ⟨w, hw, hfree⟩ := beginCmd_eq_true_iff.mp h
  simp only [beginCmd, hw, if_neg hfree]

end WorkerRegistry

end Mielofon
