import Mathlib.Logic.Function.Basic
import Mielofon.Fence
import Mielofon.Lib.Runs
import Mielofon.Tsdb.Store
import Mielofon.Worker

namespace Mielofon

open Lib

/-!
# Agent sessions

Every session has a handler (`session.rs`): it serves the agent's registrations and, when the
session ends, detaches it.  The scheduler and the handlers dispatch commands on the session of
an agent; each runs as a task that waits for the reply.  All of them share the registry, the
fence and the sample store, and run concurrently: between two locked operations of one, any
operation of another can run.

* `AppState`, `ingestQuality`, `handleReply`, `onFailure` — the shared state, and what a reply
  or its absence does to it;
* `Handler`, `Request` — a session's handler, and a dispatched command;
* `Controller` — everything, and as history the last registration and attach of each agent,
  the last apply sent on each session, and all leases granted;
* `Controller.step`, `Controller.Moves` — one locked operation, and all that it can do.
-/

variable {F : Type*}

/-- The state the handlers, the scheduler and the command tasks share.  The record store is
    left out: what is read from it is an argument of the operation. -/
structure AppState (F : Type*) where
  workers : WorkerRegistry
  fence : Fence
  tsdb : Tsdb F

/-- A single measurement to ingest. -/
structure Measure (F : Type*) where
  link : LinkKey
  ts : Option ℕ
  rtt_ms : Option F
  loss_pct : Option F
  jitter_ms : Option F
  tcp_mbps : Option F
  /-- UDP leg: (mbps, jitter_ms, loss_pct). -/
  udp : Option F × Option F × Option F
  util_mbps : F
  probe_state : ProbeState
  token : Option String

/-- The handler of a session.  It keeps the last registration accepted on the session, and
    once attached the generation to detach with. -/
inductive Handler where
  /-- No registration was accepted yet. -/
  | hello
  /-- Between the locked steps of a registration: the registry has the link set, and with
      `synced` the far ends were named; the session is still to be attached.  `own` is the
      generation held from an earlier registration. -/
  | registering (req : RegisterReq) (own : Option ℕ) (synced : Bool)
  /-- Attached, waiting for the agent's next request. -/
  | serving (req : RegisterReq) (generation : ℕ)
  | closed
deriving DecidableEq, Repr

namespace Handler

/-- The identity of a handler that waits for a request: (agent name, generation) once
    registered. -/
def idle? : Handler → Option (Option (String × ℕ))
  | hello => some none
  | serving req generation => some (some (req.agent, generation))
  | registering .. | closed => none

/-- The generation the handler holds. -/
def generation? : Handler → Option ℕ
  | registering _ own _ => own
  | serving _ generation => some generation
  | hello | closed => none

/-- The last registration accepted on the session. -/
def accepted? : Handler → Option RegisterReq
  | registering req _ _ | serving req _ => some req
  | hello | closed => none

/-- The agent whose registration is in the middle of its steps. -/
def pending? : Handler → Option String
  | registering req _ _ => some req.agent
  | hello | serving .. | closed => none

end Handler

/-- How far a dispatched command has got. -/
inductive Phase where
  /-- Its slot is claimed; it is not on the wire yet. -/
  | begun
  /-- It was sent and not answered yet. -/
  | sent
  | answered
  /-- It ended in failure: the reply carried a note, or there was none. -/
  | failed (at_ : ℕ)
deriving DecidableEq, Repr

/-- A dispatched command.  `marked` says that the dispatcher has done its bookkeeping, `ended`
    that the slot was given back. -/
structure Request where
  agent : String
  session : ℕ
  cmd : WorkCmd
  phase : Phase
  marked : Bool
  ended : Bool
deriving DecidableEq, Repr

/-- The controller and its history. -/
structure Controller (F : Type*) where
  app : AppState F
  /-- The handlers of all sessions, by session number. -/
  handlers : List Handler
  /-- Dispatchers that have read the session of an agent and go on to claim a slot. -/
  fetched : List (String × ℕ)
  requests : List Request
  /-- Every lease granted so far. -/
  leases : List Lease
  /-- The session whose registration the registry accepted last, by agent. -/
  writer : String → Option ℕ
  /-- The session attached last, by agent. -/
  attached : String → Option ℕ
  /-- The apply sent last on a session for a link id. -/
  lastApply : String × ℕ × String → Option ℕ

/-- The locked operations. -/
inductive Event (F : Type*) where
  /-- A session is accepted. -/
  | «open»
  /-- The registry takes a registration. -/
  | register (session : ℕ) (req : RegisterReq)
  /-- The handler names far ends through the node directory. -/
  | sync (session : ℕ) (lookup : String → Option String)
  | attach (session : ℕ)
  /-- The session is gone. -/
  | detach (session : ℕ)
  /-- Gossip has changed the node directory. -/
  | rename (lookup : String → Option String)
  /-- A dispatcher reads the session of an agent. -/
  | fetch (agent : String)
  /-- It claims the slot of the command. -/
  | begin (agent : String) (session : ℕ) (cmd : WorkCmd)
  | send (i : ℕ)
  /-- The dispatcher records what it sent. -/
  | mark (i now : ℕ)
  | reply (i : ℕ) (r : AgentReply F) (now : ℕ)
  /-- The command has produced no reply. -/
  | fail (i now : ℕ)
  /-- The task gives the slot back. -/
  | finish (i : ℕ)
  | acquire (agent : String) (link : LinkKey) (token : String) (now : ℕ)
  /-- The scheduler gives back the lease of a command it could not dispatch. -/
  | release (link token : String)
  /-- A measurement is posted (`post_quality`). -/
  | post (m : Measure F) (now : ℕ)

/-- The fence lease is sized for one test (both iperf3 legs plus slack). -/
def fenceTtlSecs : ℕ := 120

/-! ### Replies -/

section Replies

variable [LinearOrder F] [Zero F] [Add F]

/-- Append the raw sample and release the fence when a gated throughput report echoes its
    token. -/
def ingestQuality (st : AppState F) (m : Measure F) (now : ℕ) : AppState F :=
  let s := (RawSample.fromDims m.probe_state (m.ts.getD now) m.rtt_ms m.loss_pct m.jitter_ms
    m.tcp_mbps m.util_mbps).withUdp m.udp.1 m.udp.2.1 m.udp.2.2
  { st with
    tsdb := st.tsdb.append m.link s
    fence := match m.token with
      | some t => (st.fence.release m.link.id t).1
      | none => st.fence }

/-- The measurement a probe reply reports for `link`. -/
def ProbeReply.measure (r : ProbeReply F) (link : LinkKey) : Measure F :=
  { link := link, ts := r.ts, rtt_ms := r.rtt_ms, loss_pct := r.loss_pct, jitter_ms := r.jitter_ms,
    tcp_mbps := r.tcp_mbps, udp := (r.udp_mbps, r.udp_jitter_ms, r.udp_loss_pct),
    util_mbps := r.util_mbps, probe_state := r.state, token := r.token }

/-- Apply a command's reply: ingest a measurement, or settle a cost apply. -/
def handleReply (st : AppState F) (reply : AgentReply F) (now : ℕ) : AppState F :=
  match reply with
  | .probe r =>
    let link := { r.link with «to» := st.workers.canonicalPeer r.link.to }
    let tsdb := (r.blocks.filterMap RawSample.fromBlock).foldl (fun t s => t.append link s) st.tsdb
    ingestQuality { st with tsdb } (r.measure link) now
  | .applied agent _ link cost none _ =>
    { st with workers := st.workers.setAppliedSent agent link cost }
  | .applied agent _ link _ (some _) _ =>
    { st with workers := st.workers.noteApplyFailed agent link now }
  | .trace .. => st

omit [LinearOrder F] [Zero F] [Add F] in
/-- A command produced no reply: undo what the dispatch assumed. -/
def onFailure (st : AppState F) (agent : String) (cmd : WorkCmd) (now : ℕ) : AppState F :=
  match cmd with
  | .probe _ .throughput (some token) link _ =>
    { st with fence := (st.fence.release link.id token).1 }
  | .probe .. => st
  | .applyCost _ link _ _ => { st with workers := st.workers.noteApplyFailed agent link now }
  | .trace .. => st

end Replies

/-- The reply answers the command: an agent echoes the job id, the link and the token or cost
    of the command. -/
def Echoes (agent : String) : WorkCmd → AgentReply F → Prop
  | .probe id _ token link _, .probe r =>
    r.agent = agent ∧ r.id = id ∧ r.token = token ∧ r.link = link
  | .applyCost id link cost _, .applied agent' id' link' cost' _ _ =>
    agent' = agent ∧ id' = id ∧ link' = link ∧ cost' = cost
  | .trace id _ _, .trace agent' id' => agent' = agent ∧ id' = id
  | _, _ => False

instance (agent : String) (cmd : WorkCmd) (r : AgentReply F) : Decidable (Echoes agent cmd r) := by
  unfold Echoes
  split <;> infer_instance

/-- How a command ends when the reply is handled. -/
def AgentReply.phase (now : ℕ) : AgentReply F → Phase
  | .applied _ _ _ _ (some _) _ => .failed now
  | _ => .answered

namespace Controller

/-- The controller before any session. -/
def init (tsdb : Tsdb F) : Controller F :=
  { app := ⟨.new, .new, tsdb⟩, handlers := [], fetched := [], requests := [], leases := [],
    writer := fun _ => none, attached := fun _ => none, lastApply := fun _ => none }

/-- The commands `dispatch` is called with: always probes, throughput probes under a lease
    granted for their link, and cost applies. -/
def Dispatchable (c : Controller F) : WorkCmd → Prop
  | .probe _ .always token _ _ => token = none
  | .probe _ .throughput token link _ => ∃ l ∈ c.leases, token = some l.token ∧ l.link = link.id
  | .applyCost .. => True
  | .trace .. => False

instance (c : Controller F) (cmd : WorkCmd) : Decidable (c.Dispatchable cmd) := by
  unfold Dispatchable
  split <;> infer_instance

/-- The dispatcher's bookkeeping once a command went out. -/
def markSent (w : WorkerRegistry) (agent : String) (cmd : WorkCmd) (now : ℕ) : WorkerRegistry :=
  match cmd with
  | .probe _ tier _ link _ => w.markIssued agent link tier now
  | .applyCost _ link cost _ => w.setAppliedSent agent link cost
  | .trace .. => w

/-- Replace a session's handler. -/
def setHandler (c : Controller F) (h : ℕ) (x : Handler) : Controller F :=
  { c with handlers := c.handlers.set h x }

/-- Replace a request. -/
def setRequest (c : Controller F) (i : ℕ) (x : Request) : Controller F :=
  { c with requests := c.requests.set i x }

/-- Replace the registry. -/
def setWorkers (c : Controller F) (w : WorkerRegistry) : Controller F :=
  { c with app := { c.app with workers := w } }

/-- The key of the apply history: none for the other commands. -/
def applyKey (r : Request) : Option (String × ℕ × String) :=
  match r.cmd with
  | .applyCost _ link _ _ => some (r.agent, r.session, link.id)
  | .probe .. | .trace .. => none

/-! ### The effects of the operations -/

/-- The router id a register request states, if any. -/
def ridOf (req : RegisterReq) : Option String := req.router_id.filter (· ≠ "")

/-- The neighbours' router ids of a register request, by interface. -/
def peerRidsOf (req : RegisterReq) : Map String String :=
  req.peer_rids.foldl (fun m p => m.set p.1 p.2) ∅

/-- `register`, up to the registry: replace the link set of the agent. -/
def registerOn (c : Controller F) (h : ℕ) (req : RegisterReq) (own : Option ℕ) : Controller F :=
  let workers := (c.app.workers.register req.agent req.links (ridOf req) (peerRidsOf req)
    req.loopback).1
  { (c.setWorkers workers).setHandler h (.registering req own false) with
    writer := Function.update c.writer req.agent (some h) }

/-- `sync_directory`, as far as the registry is concerned. -/
def syncDirectory (c : Controller F) (lookup : String → Option String) : Controller F :=
  c.setWorkers (c.app.workers.resolvePeers lookup).1

/-- `register`, from the attach on: the session is the agent's. -/
def attachOn (c : Controller F) (h : ℕ) (req : RegisterReq) (own : Option ℕ) : Controller F :=
  let res := c.app.workers.attach req.agent h own
  { (c.setWorkers res.1).setHandler h (.serving req res.2.1) with
    attached := Function.update c.attached req.agent (some h) }

/-- The end of `handle`: detach under the identity, if there is one. -/
def detachOn (c : Controller F) (h : ℕ) (identity : Option (String × ℕ)) : Controller F :=
  let workers := match identity with
    | some (agent, generation) => (c.app.workers.detach agent generation).1
    | none => c.app.workers
  (c.setWorkers workers).setHandler h .closed

/-- `dispatch`, up to the claim of the slot.  A refused command leaves nothing. -/
def claim (c : Controller F) (agent : String) (sid : ℕ) (cmd : WorkCmd) : Controller F :=
  let read := { c with fetched := c.fetched.erase (agent, sid) }
  let begun := { read with requests := c.requests ++ [⟨agent, sid, cmd, .begun, false, false⟩] }
  match trackKey cmd with
  | none => begun
  | some (link, kind) =>
    let res := c.app.workers.beginCmd agent link kind
    if res.2 then begun.setWorkers res.1 else read

/-- The request goes out. -/
def sendOn (c : Controller F) (i : ℕ) (r : Request) : Controller F :=
  { c.setRequest i { r with phase := .sent } with
    lastApply := match applyKey r with
      | some k => Function.update c.lastApply k (some i)
      | none => c.lastApply }

/-- Back in the dispatcher: record what was sent. -/
def markOn (c : Controller F) (i : ℕ) (r : Request) (now : ℕ) : Controller F :=
  (c.setWorkers (markSent c.app.workers r.agent r.cmd now)).setRequest i { r with marked := true }

/-- The slot is given back. -/
def finishOn (c : Controller F) (i : ℕ) (r : Request) : Controller F :=
  let workers := match trackKey r.cmd with
    | some (link, kind) => c.app.workers.endCmd r.agent link kind
    | none => c.app.workers
  (c.setWorkers workers).setRequest i { r with ended := true }

/-- The fence is asked for a lease under a fresh token. -/
def acquireFor (c : Controller F) (agent : String) (link : LinkKey) (token : String) (now : ℕ) :
    Controller F :=
  match c.app.fence.acquire agent link fenceTtlSecs now token with
  | (fence, .ok lease) => { c with app := { c.app with fence }, leases := c.leases ++ [lease] }
  | (fence, .error _) => { c with app := { c.app with fence } }

variable [LinearOrder F] [Zero F] [Add F]

/-- The reply is handled. -/
def replyOn (c : Controller F) (i : ℕ) (r : Request) (reply : AgentReply F) (now : ℕ) :
    Controller F :=
  { c.setRequest i { r with phase := reply.phase now } with app := handleReply c.app reply now }

omit [LinearOrder F] [Zero F] [Add F] in
/-- The missing reply is handled. -/
def failOn (c : Controller F) (i : ℕ) (r : Request) (now : ℕ) : Controller F :=
  { c.setRequest i { r with phase := .failed now } with
    app := onFailure c.app r.agent r.cmd now }

/-- One locked operation. -/
def step (c : Controller F) : Event F → Option (Controller F)
  | .open => some { c with handlers := c.handlers ++ [.hello] }
  | .register h req =>
    match (c.handlers[h]?).bind Handler.idle? with
    | some identity =>
      if req.agent ≠ "" ∧ ∀ id ∈ identity, id.1 = req.agent then
        some (c.registerOn h req (identity.map Prod.snd))
      else none
    | none => none
  | .sync h lookup =>
    match c.handlers[h]? with
    | some (.registering req own false) =>
      some ((c.syncDirectory lookup).setHandler h (.registering req own true))
    | _ => none
  | .attach h =>
    match c.handlers[h]? with
    | some (.registering req own true) => some (c.attachOn h req own)
    | _ => none
  | .detach h =>
    match (c.handlers[h]?).bind Handler.idle? with
    | some identity => some (c.detachOn h identity)
    | none => none
  | .rename lookup => some (c.syncDirectory lookup)
  | .fetch agent =>
    match c.app.workers.session agent with
    | some sid => some { c with fetched := (agent, sid) :: c.fetched }
    | none => none
  | .begin agent sid cmd =>
    if (agent, sid) ∈ c.fetched ∧ c.Dispatchable cmd then some (c.claim agent sid cmd) else none
  | .send i =>
    match c.requests[i]? with
    | some r => if r.phase = .begun then some (c.sendOn i r) else none
    | none => none
  | .mark i now =>
    match c.requests[i]? with
    | some r => if r.marked = false then some (c.markOn i r now) else none
    | none => none
  | .reply i reply now =>
    match c.requests[i]? with
    | some r =>
      if r.phase = .sent ∧ Echoes r.agent r.cmd reply then some (c.replyOn i r reply now) else none
    | none => none
  | .fail i now =>
    match c.requests[i]? with
    | some r => if r.phase = .sent then some (c.failOn i r now) else none
    | none => none
  | .finish i =>
    match c.requests[i]? with
    | some r =>
      if r.phase ≠ .begun ∧ r.phase ≠ .sent ∧ r.ended = false then some (c.finishOn i r) else none
    | none => none
  | .acquire agent link token now =>
    if ∀ l ∈ c.leases, l.token ≠ token then some (c.acquireFor agent link token now) else none
  | .release link token =>
    some { c with app := { c.app with fence := (c.app.fence.release link token).1 } }
  | .post m now => some { c with app := ingestQuality c.app m now }

/-! ### What an operation can do -/

/-- Every operation, with what it found and what it left. -/
inductive Moves (c : Controller F) : Event F → Controller F → Prop
  | opened : Moves c .open { c with handlers := c.handlers ++ [.hello] }
  | register {h : ℕ} {req : RegisterReq} {x : Handler} {identity : Option (String × ℕ)}
      (hx : c.handlers[h]? = some x) (hidle : x.idle? = some identity)
      (hown : ∀ id ∈ identity, id.1 = req.agent) :
      Moves c (.register h req) (c.registerOn h req (identity.map Prod.snd))
  | sync {h : ℕ} {req : RegisterReq} {own : Option ℕ} {lookup : String → Option String}
      (hx : c.handlers[h]? = some (.registering req own false)) :
      Moves c (.sync h lookup) ((c.syncDirectory lookup).setHandler h (.registering req own true))
  | attach {h : ℕ} {req : RegisterReq} {own : Option ℕ}
      (hx : c.handlers[h]? = some (.registering req own true)) :
      Moves c (.attach h) (c.attachOn h req own)
  | detach {h : ℕ} {x : Handler} {identity : Option (String × ℕ)}
      (hx : c.handlers[h]? = some x) (hidle : x.idle? = some identity) :
      Moves c (.detach h) (c.detachOn h identity)
  | rename {lookup : String → Option String} : Moves c (.rename lookup) (c.syncDirectory lookup)
  | fetch {agent : String} {sid : ℕ} (hsid : c.app.workers.session agent = some sid) :
      Moves c (.fetch agent) { c with fetched := (agent, sid) :: c.fetched }
  | begin {agent : String} {sid : ℕ} {cmd : WorkCmd} (hcmd : c.Dispatchable cmd) :
      Moves c (.begin agent sid cmd) (c.claim agent sid cmd)
  | send {i : ℕ} {r : Request} (hr : c.requests[i]? = some r) (hphase : r.phase = .begun) :
      Moves c (.send i) (c.sendOn i r)
  | mark {i now : ℕ} {r : Request} (hr : c.requests[i]? = some r) :
      Moves c (.mark i now) (c.markOn i r now)
  | reply {i now : ℕ} {r : Request} {reply : AgentReply F} (hr : c.requests[i]? = some r)
      (hphase : r.phase = .sent) (hecho : Echoes r.agent r.cmd reply) :
      Moves c (.reply i reply now) (c.replyOn i r reply now)
  | fail {i now : ℕ} {r : Request} (hr : c.requests[i]? = some r) (hphase : r.phase = .sent) :
      Moves c (.fail i now) (c.failOn i r now)
  | finish {i : ℕ} {r : Request} (hr : c.requests[i]? = some r) (hbegun : r.phase ≠ .begun)
      (hsent : r.phase ≠ .sent) : Moves c (.finish i) (c.finishOn i r)
  | acquire {agent : String} {link : LinkKey} {token : String} {now : ℕ}
      (hfresh : ∀ l ∈ c.leases, l.token ≠ token) :
      Moves c (.acquire agent link token now) (c.acquireFor agent link token now)
  | release {link token : String} : Moves c (.release link token)
      { c with app := { c.app with fence := (c.app.fence.release link token).1 } }
  | post {m : Measure F} {now : ℕ} :
      Moves c (.post m now) { c with app := ingestQuality c.app m now }

/-- **Inversion.** What a step does is one of the operations. -/
theorem moves_of_step {c c' : Controller F} {e : Event F} (h : c.step e = some c') :
    Moves c e c' := by
  -- one case per event: past its guards it is the operation, and short of them there is no step
  cases e with
  | «open» => exact Option.some.inj h ▸ .opened
  | register sid req =>
    simp only [step] at h
    split at h
    · rename_i identity hidle
      obtain ⟨x, hx, hidle⟩ := Option.bind_eq_some_iff.mp hidle
      split at h
      · rename_i hok
        exact Option.some.inj h ▸ .register hx hidle hok.2
      · exact absurd h (by simp)
    · exact absurd h (by simp)
  | sync sid lookup =>
    simp only [step] at h
    split at h
    · rename_i req own hx
      exact Option.some.inj h ▸ .sync hx
    · exact absurd h (by simp)
  | attach sid =>
    simp only [step] at h
    split at h
    · rename_i req own hx
      exact Option.some.inj h ▸ .attach hx
    · exact absurd h (by simp)
  | detach sid =>
    simp only [step] at h
    split at h
    · rename_i identity hidle
      obtain ⟨x, hx, hidle⟩ := Option.bind_eq_some_iff.mp hidle
      exact Option.some.inj h ▸ .detach hx hidle
    · exact absurd h (by simp)
  | rename lookup => exact Option.some.inj h ▸ .rename
  | fetch agent =>
    simp only [step] at h
    split at h
    · rename_i sid hsid
      exact Option.some.inj h ▸ .fetch hsid
    · exact absurd h (by simp)
  | begin agent sid cmd =>
    simp only [step] at h
    split at h
    · rename_i hok
      exact Option.some.inj h ▸ .begin hok.2
    · exact absurd h (by simp)
  | send i =>
    simp only [step] at h
    split at h
    · rename_i r hr
      split at h
      · rename_i hphase
        exact Option.some.inj h ▸ .send hr hphase
      · exact absurd h (by simp)
    · exact absurd h (by simp)
  | mark i now =>
    simp only [step] at h
    split at h
    · rename_i r hr
      split at h
      · exact Option.some.inj h ▸ .mark hr
      · exact absurd h (by simp)
    · exact absurd h (by simp)
  | reply i r now =>
    simp only [step] at h
    split at h
    · rename_i req hr
      split at h
      · rename_i hok
        exact Option.some.inj h ▸ .reply hr hok.1 hok.2
      · exact absurd h (by simp)
    · exact absurd h (by simp)
  | fail i now =>
    simp only [step] at h
    split at h
    · rename_i r hr
      split at h
      · rename_i hphase
        exact Option.some.inj h ▸ .fail hr hphase
      · exact absurd h (by simp)
    · exact absurd h (by simp)
  | finish i =>
    simp only [step] at h
    split at h
    · rename_i r hr
      split at h
      · rename_i hok
        exact Option.some.inj h ▸ .finish hr hok.1 hok.2.1
      · exact absurd h (by simp)
    · exact absurd h (by simp)
  | acquire agent link token now =>
    simp only [step] at h
    split at h
    · rename_i hfresh
      exact Option.some.inj h ▸ .acquire hfresh
    · exact absurd h (by simp)
  | release link token => exact Option.some.inj h ▸ .release
  | post m now => exact Option.some.inj h ▸ .post

/-! ### What the registry keeps -/

/-- The registry after an operation, as far as `view` shows it. -/
def SameView {β : Type*} (view : Worker → β) (w w' : WorkerRegistry) : Prop :=
  (∀ a, (w'.worker a).map view = (w.worker a).map view) ∧ w'.generation = w.generation

omit [LinearOrder F] [Zero F] [Add F] in
theorem sameView_refl {β : Type*} (view : Worker → β) (w : WorkerRegistry) : SameView view w w :=
  ⟨fun _ => rfl, rfl⟩

omit [LinearOrder F] [Zero F] [Add F] in
/-- An update of one agent that `view` does not show. -/
theorem sameView_modify {β : Type*} {view : Worker → β} {f : Worker → Worker}
    (hf : ∀ w, view (f w) = view w) (w : WorkerRegistry) (agent : String) :
    SameView view w (w.modify agent f) := by
  refine ⟨fun a => ?_, WorkerRegistry.generation_modify _ _ _⟩
  rw [WorkerRegistry.worker_modify]
  split
  · rw [Option.map_map]
    exact congrArg (Option.map · _) (funext hf)
  · rfl

omit [LinearOrder F] [Zero F] [Add F] in
/-- The directory renames far ends, if anything. -/
theorem sameView_resolvePeers {β : Type*} {view : Worker → β}
    (hlinks : ∀ (w : Worker) (lookup : String → Option String),
      view { w with links := w.links.map (WorkerRegistry.named w lookup) } = view w)
    (w : WorkerRegistry) (lookup : String → Option String) :
    SameView view w (w.resolvePeers lookup).1 := by
  refine ⟨fun a => ?_, rfl⟩
  rw [WorkerRegistry.worker_resolvePeers, Option.map_map]
  exact congrArg (Option.map · _) (funext (fun w => hlinks w lookup))

omit [LinearOrder F] [Zero F] [Add F] in
/-- Giving a slot back changes the slots alone. -/
theorem sameView_finishOn {β : Type*} {view : Worker → β}
    (hslots : ∀ (w : Worker) m, view { w with in_flight := m } = view w) (c : Controller F) (i : ℕ)
    (r : Request) : SameView view c.app.workers (c.finishOn i r).app.workers := by
  unfold finishOn
  cases trackKey r.cmd with
  | none => exact sameView_refl _ _
  | some key => exact sameView_modify (fun w => hslots w _) _ _

section Views

variable {β : Type*} {view : Worker → β}
  (hissue : ∀ (w : Worker) m, view { w with last_issue := m } = view w)
  (hcosts : ∀ (w : Worker) m m', view { w with apply_retry_at := m, applied_sent := m' } = view w)

include hcosts

omit [LinearOrder F] [Zero F] [Add F] in
theorem sameView_noteApplyFailed (w : WorkerRegistry) (agent : String) (link : LinkKey) (now : ℕ) :
    SameView view w (w.noteApplyFailed agent link now) :=
  sameView_modify (fun w => hcosts w _ _) w agent

omit [LinearOrder F] [Zero F] [Add F] in
theorem sameView_setAppliedSent (w : WorkerRegistry) (agent : String) (link : LinkKey) (cost : ℕ) :
    SameView view w (w.setAppliedSent agent link cost) :=
  sameView_modify (fun w => hcosts w _ _) w agent

theorem sameView_handleReply (st : AppState F) (reply : AgentReply F) (now : ℕ) :
    SameView view st.workers (handleReply st reply now).workers := by
  cases reply with
  | probe r => exact sameView_refl _ _
  | applied agent id link cost note tp =>
    cases note with
    | none => exact sameView_setAppliedSent hcosts _ _ _ _
    | some n => exact sameView_noteApplyFailed hcosts _ _ _ _
  | trace agent id => exact sameView_refl _ _

omit [LinearOrder F] [Zero F] [Add F] in
theorem sameView_onFailure (st : AppState F) (agent : String) (cmd : WorkCmd) (now : ℕ) :
    SameView view st.workers (onFailure st agent cmd now).workers := by
  unfold onFailure
  split
  · exact sameView_refl _ _
  · exact sameView_refl _ _
  · exact sameView_noteApplyFailed hcosts _ _ _ _
  · exact sameView_refl _ _

include hissue in
omit [LinearOrder F] [Zero F] [Add F] in
theorem sameView_markSent (w : WorkerRegistry) (agent : String) (cmd : WorkCmd) (now : ℕ) :
    SameView view w (markSent w agent cmd now) := by
  cases cmd with
  | probe id tier token link tp => exact sameView_modify (fun w => hissue w _) w agent
  | applyCost id link cost tp => exact sameView_setAppliedSent hcosts _ _ _ _
  | trace id target tp => exact sameView_refl _ _

end Views

omit [LinearOrder F] [Zero F] [Add F] in
/-- The apply sent last after a send: the one sent, if it is an apply. -/
theorem lastApply_sendOn (c : Controller F) (i : ℕ) (r : Request) :
    (c.sendOn i r).lastApply =
      (applyKey r).elim c.lastApply (fun k => Function.update c.lastApply k (some i)) := by
  unfold sendOn
  cases applyKey r <;> rfl

omit [LinearOrder F] [Zero F] [Add F] in
/-- What a claim does: nothing when refused; otherwise the command is begun, and its slot,
    which was free, is taken. -/
theorem claim_cases (c : Controller F) (agent : String) (sid : ℕ) (cmd : WorkCmd) :
    c.claim agent sid cmd = { c with fetched := c.fetched.erase (agent, sid) } ∨
    ∃ workers, c.claim agent sid cmd =
        { c with
          app := { c.app with workers }
          fetched := c.fetched.erase (agent, sid)
          requests := c.requests ++ [⟨agent, sid, cmd, .begun, false, false⟩] } ∧
      ((trackKey cmd = none ∧ workers = c.app.workers) ∨
        ∃ link kind w, trackKey cmd = some (link, kind) ∧ c.app.workers.worker agent = some w ∧
          (link.id, kind) ∉ w.in_flight ∧ workers = c.app.workers.modify agent
            (fun w => { w with in_flight := insert (link.id, kind) w.in_flight })) := by
  unfold claim
  cases hkey : trackKey cmd with
  | none => exact Or.inr ⟨_, rfl, Or.inl ⟨rfl, rfl⟩⟩
  | some lk =>
    obtain ⟨link, kind⟩ := lk
    dsimp only
    by_cases hfree : (c.app.workers.beginCmd agent link kind).2 = true
    · rw [if_pos hfree]
      obtain ⟨w, hw, hnot⟩ := WorkerRegistry.beginCmd_eq_true_iff.mp hfree
      exact Or.inr ⟨_, rfl, Or.inr ⟨link, kind, w, rfl, hw, hnot,
        WorkerRegistry.beginCmd_eq_modify hfree⟩⟩
    · rw [if_neg hfree]
      exact Or.inl rfl

omit [LinearOrder F] [Zero F] [Add F] in
/-- Acquiring touches the fence, and when a lease is granted the history of leases. -/
theorem acquireFor_cases (c : Controller F) (agent : String) (link : LinkKey) (token : String)
    (now : ℕ) : ∃ leases,
      c.acquireFor agent link token now = { c with
        app := { c.app with fence := (c.app.fence.acquire agent link fenceTtlSecs now token).1 }
        leases := c.leases ++ leases } ∧
      ((leases = [] ∧ ∃ busy, (c.app.fence.acquire agent link fenceTtlSecs now token).2 = .error busy) ∨
        (leases = [newLease agent link fenceTtlSecs now token] ∧
          ∃ lease, (c.app.fence.acquire agent link fenceTtlSecs now token).2 = .ok lease)) := by
  unfold acquireFor
  split
  · rename_i fence lease hres
    refine ⟨[lease], by rw [hres], Or.inr ⟨?_, lease, by rw [hres]⟩⟩
    unfold Fence.acquire at hres
    dsimp only at hres
    split at hres
    · exact absurd (Prod.mk.inj hres).2 (by simp)
    · rw [Except.ok.inj (Prod.mk.inj hres).2]
  · rename_i fence busy hres
    exact ⟨[], by rw [hres, List.append_nil], Or.inl ⟨rfl, busy, by rw [hres]⟩⟩

end Controller

end Mielofon
