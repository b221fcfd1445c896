import Mathlib
import Mielofon.Session.Controller

namespace Mielofon

open Lib

/-!
# Which registration the registry holds

A registration is three locked steps: the registry takes the link set, far ends are named, the
session is attached.  Two sessions of one agent can interleave them, and a session that ends
between the first and the last step of another evicts what the other has registered.

* `Profile` — what a registration states, far ends of links aside;
* `Controller.RegistrationHolds` — the agent is in the registry if and only if the session
  attached last is open, and shows what that session registered last;
* `RegistersInOrder` — no session attaches after another has registered over it, and none
  evicts an agent that another session is registering;
* `RegInv`, `regInv_step` — the invariant and its step lemma;
* `registration_holds` — under `RegistersInOrder` the registration is the live session's;
* `eviction_erases_registration` — a run in which it is not.
-/

/-- What a registration states, but for the names of far ends. -/
structure Profile where
  ends : List (String × String)
  router_id : Option String
  peer_rids : Map String String
  loopback : Option String
deriving DecidableEq

/-- What the registry holds of an agent's registration. -/
def Worker.profile (w : Worker) : Profile :=
  ⟨w.links.map (fun l => (l.from, l.interface)), w.router_id, w.peer_rids, w.loopback⟩

/-- What a register request states. -/
def RegisterReq.profile (req : RegisterReq) : Profile :=
  ⟨req.links.map (fun l => (l.from, l.interface)), Controller.ridOf req,
    Controller.peerRidsOf req, req.loopback⟩

/-- The registration and the session of an agent. -/
def Worker.standing (w : Worker) : Profile × Option (ℕ × ℕ) := (w.profile, w.session)

variable {F : Type*}

namespace Controller

/-- The generation a session holds. -/
def generationOf (c : Controller F) (h : ℕ) : Option ℕ := (c.handlers[h]?).bind Handler.generation?

/-- The last registration accepted on a session. -/
def acceptedOf (c : Controller F) (h : ℕ) : Option RegisterReq :=
  (c.handlers[h]?).bind Handler.accepted?

/-- The session is in the middle of registering the agent. -/
def Registering (c : Controller F) (h : ℕ) (agent : String) : Prop :=
  (c.handlers[h]?).bind Handler.pending? = some agent

instance (c : Controller F) (h : ℕ) (agent : String) : Decidable (c.Registering h agent) :=
  inferInstanceAs (Decidable (_ = _))

/-- Nobody registers an agent that no handler is registering. -/
theorem not_registering_of_all {c : Controller F} {agent : String}
    (h : ∀ x ∈ c.handlers, x.pending? ≠ some agent) (k : ℕ) : ¬ c.Registering k agent := by
  intro hreg
  obtain ⟨x, hx, hpend⟩ := Option.bind_eq_some_iff.mp hreg
  exact h x (List.mem_of_getElem? hx) hpend

/-- The handler of the session has detached. -/
def Closed (c : Controller F) (h : ℕ) : Prop := c.handlers[h]? = some .closed

/-- The agent is in the registry if and only if the session attached last has not detached
    yet, and then shows what was registered last on that session. -/
def RegistrationHolds (c : Controller F) (agent : String) : Prop :=
  ((c.app.workers.worker agent).isSome ↔ ∃ h, c.attached agent = some h ∧ ¬ c.Closed h) ∧
  ∀ w h, c.app.workers.worker agent = some w → c.attached agent = some h →
    ∃ req, c.acceptedOf h = some req ∧ w.profile = req.profile

end Controller

/-- A session attaches only while the session that registered the agent last has not attached
    yet, and is detached with the live generation only while no session is registering the
    agent. -/
def RegistersInOrder (c : Controller F) : Event F → Prop
  | .attach h => ∀ agent ∈ (c.handlers[h]?).bind Handler.pending?,
      ∃ h' ∈ c.writer agent, c.Registering h' agent
  | .detach h => ∀ id ∈ (c.handlers[h]?).bind (fun x => x.idle?.join),
      (c.app.workers.worker id.1).bind (fun w => w.session.map Prod.fst) = some id.2 →
        ∀ x ∈ c.handlers, x.pending? ≠ some id.1
  | _ => True

instance (c : Controller F) (e : Event F) : Decidable (RegistersInOrder c e) := by
  refine Event.casesOn e ?_ ?_ ?_ ?_ ?_ ?_ ?_ ?_ ?_ ?_ ?_ ?_ ?_ ?_ ?_ ?_ <;>
    intros <;> delta RegistersInOrder <;> dsimp only <;> infer_instance

/-! ### What a registration shows -/

private theorem ends_map_of {f : LinkKey → LinkKey} (links : List LinkKey)
    (hf : ∀ l, ((f l).from, (f l).interface) = (l.from, l.interface)) :
    (links.map f).map (fun l => (l.from, l.interface)) =
      links.map (fun l => (l.from, l.interface)) := by
  rw [List.map_map]
  exact List.map_congr_left (fun l _ => hf l)

private theorem ends_settle (agent : String) (names : List String) (l : LinkKey) :
    ((WorkerRegistry.settle agent names l).from, (WorkerRegistry.settle agent names l).interface) =
      (l.from, l.interface) := by
  unfold WorkerRegistry.settle
  split
  · rfl
  · split <;> rfl

private theorem ends_settleOther (agent : String) (l : LinkKey) :
    ((WorkerRegistry.settleOther agent l).from, (WorkerRegistry.settleOther agent l).interface) =
      (l.from, l.interface) := by
  unfold WorkerRegistry.settleOther
  split <;> rfl

private theorem ends_named (w : Worker) (lookup : String → Option String) (l : LinkKey) :
    ((WorkerRegistry.named w lookup l).from, (WorkerRegistry.named w lookup l).interface) =
      (l.from, l.interface) := by
  unfold WorkerRegistry.named
  split <;> rfl

/-- Renaming far ends shows nowhere. -/
private theorem standing_rename {w : Worker} {f : LinkKey → LinkKey}
    (hf : ∀ l, ((f l).from, (f l).interface) = (l.from, l.interface)) :
    Worker.standing { w with links := w.links.map f } = w.standing :=
  congrArg (fun e => ((⟨e, w.router_id, w.peer_rids, w.loopback⟩ : Profile), w.session))
    (ends_map_of w.links hf)

/-- A registration shows its request, and keeps the session. -/
private theorem standing_refreshed (w : Worker) (agent : String) (names : List String)
    (req : RegisterReq) :
    Worker.standing (WorkerRegistry.refreshed w (req.links.map (WorkerRegistry.settle agent names))
      (Controller.ridOf req) (Controller.peerRidsOf req) req.loopback) =
      (req.profile, w.session) :=
  congrArg (fun e => ((⟨e, Controller.ridOf req, Controller.peerRidsOf req, req.loopback⟩ : Profile),
    w.session)) (ends_map_of req.links (ends_settle agent names))

/-! ### The invariant -/

/-- An agent that is being registered is in the registry; its session is the one attached
    last, and its data those of the session that registered it last, which is that one unless
    it is still to attach. -/
structure AgentInv (c : Controller F) (agent : String) : Prop where
  present : ∀ h, c.Registering h agent → (c.app.workers.worker agent).isSome
  holder : ∀ w g h, c.app.workers.worker agent = some w → w.session = some (g, h) →
    c.attached agent = some h ∧ c.generationOf h = some g ∧
      ∃ req, c.acceptedOf h = some req ∧ req.agent = agent
  attached : ∀ h, c.attached agent = some h → c.Closed h ∨
    ∃ w g, c.app.workers.worker agent = some w ∧ w.session = some (g, h)
  writer : ∀ w, c.app.workers.worker agent = some w → ∃ h req,
    c.writer agent = some h ∧ c.acceptedOf h = some req ∧ req.agent = agent ∧
      w.profile = req.profile ∧ (c.Registering h agent ∨ ∃ g, w.session = some (g, h))

/-- Generations are handed out once, and every agent's entry is in order. -/
structure RegInv (c : Controller F) : Prop where
  gen_le : ∀ h g, c.generationOf h = some g → g ≤ c.app.workers.generation
  gen_inj : ∀ h h' g, c.generationOf h = some g → c.generationOf h' = some g → h = h'
  agent : ∀ agent, AgentInv c agent

/-- What a handler is, as far as the invariant is concerned. -/
def traits (x : Option Handler) : Option ℕ × Option RegisterReq × Option String × Bool :=
  (x.bind Handler.generation?, x.bind Handler.accepted?, x.bind Handler.pending?, x == some .closed)

private theorem notClosed_of_accepted {c : Controller F} {h : ℕ} {req : RegisterReq}
    (hacc : c.acceptedOf h = some req) : ¬ c.Closed h := by
  intro hclosed
  unfold Controller.acceptedOf at hacc
  rw [hclosed] at hacc
  exact absurd hacc (by simp [Handler.accepted?])

/-- **The invariant gives the property** of an agent nobody is registering. -/
theorem AgentInv.holds {c : Controller F} {agent : String} (hI : AgentInv c agent)
    (hquiet : ∀ h, ¬ c.Registering h agent) : c.RegistrationHolds agent := by
  have hsession : ∀ w, c.app.workers.worker agent = some w → ∃ g h req,
      w.session = some (g, h) ∧ c.acceptedOf h = some req ∧ w.profile = req.profile := by
    intro w hw
    obtain ⟨h, req, -, hacc, -, hprof, hreg | ⟨g, hg⟩⟩ := hI.writer w hw
    · exact absurd hreg (hquiet h)
    · exact ⟨g, h, req, hg, hacc, hprof⟩
  refine ⟨⟨fun hsome => ?_, fun ⟨h, hatt, hopen⟩ => ?_⟩, fun w h hw hatt => ?_⟩
  · obtain ⟨w, hw⟩ := Option.isSome_iff_exists.mp hsome
    obtain ⟨g, h, req, hg, hacc, -⟩ := hsession w hw
    exact ⟨h, (hI.holder w g h hw hg).1, notClosed_of_accepted hacc⟩
  · obtain hclosed | ⟨w, g, hw, -⟩ := hI.attached h hatt
    · exact absurd hclosed hopen
    · rw [hw]; rfl
  · obtain ⟨g, h', req, hg, hacc, hprof⟩ := hsession w hw
    have hatt' := (hI.holder w g h' hw hg).1
    rw [hatt] at hatt'
    obtain rfl := Option.some.inj hatt'
    exact ⟨req, hacc, hprof⟩

/-- **Frame.** An operation that leaves the standing and the history of an agent, and the
    handlers that have to do with it. -/
private theorem agentInv_frame {c c' : Controller F} {agent : String} (hI : AgentInv c agent)
    (hview : (c'.app.workers.worker agent).map Worker.standing =
      (c.app.workers.worker agent).map Worker.standing)
    (hwriter : c'.writer agent = c.writer agent) (hattached : c'.attached agent = c.attached agent)
    (htraits : ∀ h : ℕ, (c.Closed h ∨ ∃ req, c.acceptedOf h = some req ∧ req.agent = agent) →
      traits c'.handlers[h]? = traits c.handlers[h]?)
    (hreg : ∀ h, c'.Registering h agent → c.Registering h agent) : AgentInv c' agent := by
  have hback : ∀ w, c'.app.workers.worker agent = some w →
      ∃ w₀, c.app.workers.worker agent = some w₀ ∧ w.standing = w₀.standing := by
    intro w hw
    rw [hw, Option.map_some] at hview
    obtain ⟨w₀, hw₀, hst⟩ := Option.map_eq_some_iff.mp hview.symm
    exact ⟨w₀, hw₀, hst.symm⟩
  refine ⟨fun h hh => ?_, fun w g h hw hg => ?_, fun h hh => ?_, fun w hw => ?_⟩
  · have hsome := hI.present h (hreg h hh)
    rw [← Option.isSome_map (f := Worker.standing), ← hview, Option.isSome_map] at hsome
    exact hsome
  · obtain ⟨w₀, hw₀, hst⟩ := hback w hw
    have hs : w.session = w₀.session := congrArg Prod.snd hst
    obtain ⟨hatt, hgen, req, hacc, hag⟩ := hI.holder w₀ g h hw₀ (hs ▸ hg)
    have ht := htraits h (Or.inr ⟨req, hacc, hag⟩)
    exact ⟨hattached.trans hatt, (congrArg Prod.fst ht).trans hgen, req,
      (congrArg (·.2.1) ht).trans hacc, hag⟩
  · rw [hattached] at hh
    rcases hI.attached h hh with hclosed | ⟨w₀, g, hw₀, hg⟩
    · have hbeq : (c'.handlers[h]? == some .closed) = (c.handlers[h]? == some .closed) :=
        congrArg (·.2.2.2) (htraits h (Or.inl hclosed))
      unfold Controller.Closed at hclosed ⊢
      rw [hclosed, beq_self_eq_true] at hbeq
      exact Or.inl (eq_of_beq hbeq)
    · rw [hw₀, Option.map_some] at hview
      obtain ⟨w, hw, hst⟩ := Option.map_eq_some_iff.mp hview
      exact Or.inr ⟨w, g, hw, (congrArg Prod.snd hst).trans hg⟩
  · obtain ⟨w₀, hw₀, hst⟩ := hback w hw
    have hp : w.profile = w₀.profile := congrArg Prod.fst hst
    have hs : w.session = w₀.session := congrArg Prod.snd hst
    obtain ⟨h, req, hwr, hacc, hag, hprof, hlast⟩ := hI.writer w₀ hw₀
    have ht := htraits h (Or.inr ⟨req, hacc, hag⟩)
    have hpend : (c'.handlers[h]?).bind Handler.pending? = (c.handlers[h]?).bind Handler.pending? :=
      congrArg (·.2.2.1) ht
    refine ⟨h, req, hwriter.trans hwr, (congrArg (·.2.1) ht).trans hacc, hag, hp.trans hprof, ?_⟩
    rw [hs]
    exact hlast.imp (fun hr => hpend.trans hr) id

/-- An operation that leaves the traits of the handlers, the history and the standing of every
    agent. -/
private theorem regInv_of_same {c c' : Controller F} (hI : RegInv c)
    (hview : Controller.SameView Worker.standing c.app.workers c'.app.workers)
    (htraits : ∀ h : ℕ, traits c'.handlers[h]? = traits c.handlers[h]?)
    (hwriter : c'.writer = c.writer) (hattached : c'.attached = c.attached) : RegInv c' := by
  have hgen : ∀ h, c'.generationOf h = c.generationOf h := fun h => congrArg Prod.fst (htraits h)
  refine ⟨fun h g hg => ?_, fun h h' g hg hg' => ?_, fun agent => ?_⟩
  · rw [hview.2]
    exact hI.gen_le h g (hgen h ▸ hg)
  · exact hI.gen_inj h h' g (hgen h ▸ hg) (hgen h' ▸ hg')
  · refine agentInv_frame (hI.agent agent) (hview.1 agent) (by rw [hwriter]) (by rw [hattached])
      (fun h _ => htraits h) (fun h hh => ?_)
    have hpend : (c'.handlers[h]?).bind Handler.pending? = (c.handlers[h]?).bind Handler.pending? :=
      congrArg (·.2.2.1) (htraits h)
    exact hpend.symm.trans hh

/-! ### The steps of a session -/

/-- Replacing a handler replaces what is read of its session alone. -/
private theorem getElem?_setHandler {c : Controller F} {h : ℕ} {x₀ : Handler}
    (hx : c.handlers[h]? = some x₀) (x : Handler) (k : ℕ) :
    (c.handlers.set h x)[k]? = if k = h then some x else c.handlers[k]? := by
  have hlt : h < c.handlers.length := (List.getElem?_eq_some_iff.mp hx).1
  rw [List.getElem?_set]
  by_cases hk : h = k
  · rw [if_pos hk, if_pos hlt, if_pos hk.symm]
  · rw [if_neg hk, if_neg (Ne.symm hk)]

private theorem registering_congr {c c' : Controller F} {k : ℕ}
    (hk : c'.handlers[k]? = c.handlers[k]?) (agent : String) :
    c'.Registering k agent ↔ c.Registering k agent := by
  unfold Controller.Registering
  rw [hk]

/-- What a session that waits for a request holds. -/
private theorem of_idle {x : Handler} {identity : Option (String × ℕ)}
    (h : x.idle? = some identity) :
    x.generation? = identity.map Prod.snd ∧ x.pending? = none ∧ x ≠ .closed ∧
      (∀ req, x.accepted? = some req → ∃ g, identity = some (req.agent, g)) := by
  cases x with
  | hello =>
    obtain rfl := Option.some.inj h
    exact ⟨rfl, rfl, by simp, fun req hreq => absurd hreq (by simp [Handler.accepted?])⟩
  | serving req g =>
    obtain rfl := Option.some.inj h
    exact ⟨rfl, rfl, by simp, fun req' hreq => ⟨g, by rw [Option.some.inj hreq]⟩⟩
  | registering req own synced => exact absurd h (by simp [Handler.idle?])
  | closed => exact absurd h (by simp [Handler.idle?])

/-- The session of an agent's entry is one the registry has. -/
private theorem session_entry {r : WorkerRegistry} {agent : String} {g h : ℕ}
    (hs : (r.entry agent).session = some (g, h)) :
    ∃ w, r.worker agent = some w ∧ w.session = some (g, h) := by
  unfold WorkerRegistry.entry at hs
  cases hw : r.worker agent with
  | none => rw [hw] at hs; exact absurd hs (by simp [Worker.default])
  | some w => rw [hw] at hs; exact ⟨w, rfl, hs⟩

private theorem entry_of_worker {r : WorkerRegistry} {agent : String} {w : Worker}
    (hw : r.worker agent = some w) : r.entry agent = w := by
  unfold WorkerRegistry.entry
  rw [hw]
  rfl

variable {c : Controller F} {h : ℕ}

/-- The session `h` of the agent moves on: what has to do with other agents stays. -/
private theorem traits_other {x x' : Handler} {handlers : List Handler} {b : String}
    (hx : c.handlers[h]? = some x) (hopen : x ≠ .closed)
    (hother : ∀ req, x.accepted? = some req → req.agent ≠ b)
    (hset : handlers = c.handlers.set h x') (k : ℕ)
    (hk : c.Closed k ∨ ∃ req, c.acceptedOf k = some req ∧ req.agent = b) :
    traits handlers[k]? = traits c.handlers[k]? := by
  rw [hset, getElem?_setHandler hx]
  split
  · rename_i hkh
    subst hkh
    rcases hk with hclosed | ⟨req, hacc, hag⟩
    · unfold Controller.Closed at hclosed
      rw [hx] at hclosed
      exact absurd (Option.some.inj hclosed) hopen
    · unfold Controller.acceptedOf at hacc
      rw [hx] at hacc
      exact absurd hag (hother req hacc)
  · rfl

/-- The agent that registers: the registry shows its request, and keeps the session it had. -/
private theorem agentInv_register {c' : Controller F} {req : RegisterReq} {own : Option ℕ} {x : Handler}
    (hI : AgentInv c req.agent) (hx : c.handlers[h]? = some x) (hopen : x ≠ .closed)
    (hhandlers : c'.handlers = c.handlers.set h (.registering req own false))
    (hgen : ∀ k, c'.generationOf k = c.generationOf k)
    (hself : c'.app.workers.worker req.agent = some (WorkerRegistry.refreshed
      (c.app.workers.entry req.agent) (req.links.map
        (WorkerRegistry.settle req.agent c.app.workers.inner.keys))
      (Controller.ridOf req) (Controller.peerRidsOf req) req.loopback))
    (hwriter : c'.writer req.agent = some h) (hattached : c'.attached = c.attached) :
    AgentInv c' req.agent := by
  have hst := standing_refreshed (c.app.workers.entry req.agent) req.agent
    c.app.workers.inner.keys req
  have hat : ∀ k, c'.handlers[k]? = if k = h then some (.registering req own false)
      else c.handlers[k]? := fun k => by rw [hhandlers, getElem?_setHandler hx]
  refine ⟨fun k _ => by rw [hself]; rfl, fun w g k hw hg => ?_, fun k hk => ?_, fun w hw => ?_⟩
  · -- the session is the one the agent had
    rw [hself] at hw
    obtain rfl := Option.some.inj hw
    obtain ⟨w₀, hw₀, hg₀⟩ := session_entry ((congrArg Prod.snd hst).symm.trans hg)
    obtain ⟨hatt, hkgen, req₀, hacc, hag⟩ := hI.holder w₀ g k hw₀ hg₀
    refine ⟨by rw [hattached]; exact hatt, (hgen k).trans hkgen, ?_⟩
    unfold Controller.acceptedOf
    rw [hat]
    split
    · exact ⟨req, rfl, rfl⟩
    · exact ⟨req₀, hacc, hag⟩
  · -- the attached agents are those of before, and `h` was not closed
    rw [hattached] at hk
    rcases hI.attached k hk with hclosed | ⟨w₀, g, hw₀, hg⟩
    · refine Or.inl ?_
      unfold Controller.Closed at hclosed ⊢
      rw [hat, if_neg (fun hkh => ?_)]
      · exact hclosed
      · rw [hkh, hx] at hclosed
        exact hopen (Option.some.inj hclosed)
    · refine Or.inr ⟨_, g, hself, (congrArg Prod.snd hst).trans ?_⟩
      rw [entry_of_worker hw₀]
      exact hg
  · -- the profile is the request's own, and `h` has yet to sync it
    rw [hself] at hw
    obtain rfl := Option.some.inj hw
    have hh := hat h
    rw [if_pos rfl] at hh
    refine ⟨h, req, hwriter, ?_, rfl, congrArg Prod.fst hst, Or.inl ?_⟩
    · unfold Controller.acceptedOf
      rw [hh]; rfl
    · unfold Controller.Registering
      rw [hh]; rfl

/-- **Registering** in the registry. -/
private theorem regInv_register (hI : RegInv c) {req : RegisterReq} {x : Handler}
    {identity : Option (String × ℕ)} (hx : c.handlers[h]? = some x)
    (hidle : x.idle? = some identity) (hown : ∀ id ∈ identity, id.1 = req.agent) :
    RegInv (c.registerOn h req (identity.map Prod.snd)) := by
  obtain ⟨hxgen, hxpend, hopen, hmine⟩ := of_idle hidle
  have hagent : ∀ req', x.accepted? = some req' → req'.agent = req.agent := by
    intro req' hacc
    obtain ⟨g, hid⟩ := hmine req' hacc
    exact hown _ hid
  -- from here on the step is only known by what it does to the parts
  generalize hc' : c.registerOn h req (identity.map Prod.snd) = c'
  have hhandlers : c'.handlers = c.handlers.set h (.registering req (identity.map Prod.snd) false) := by
    rw [← hc']; rfl
  have hworker := fun a => WorkerRegistry.worker_register c.app.workers req.agent req.links
    (Controller.ridOf req) (Controller.peerRidsOf req) req.loopback a
  have hworkers : c'.app.workers = (c.app.workers.register req.agent req.links
      (Controller.ridOf req) (Controller.peerRidsOf req) req.loopback).1 := by
    rw [← hc']; rfl
  rw [← hworkers] at hworker
  -- the handler keeps the generation it had
  have hgen : ∀ k, c'.generationOf k = c.generationOf k := by
    intro k
    unfold Controller.generationOf
    rw [hhandlers, getElem?_setHandler hx]
    split
    · rename_i hk
      rw [hk, hx]
      exact hxgen.symm
    · rfl
  refine ⟨fun k g hg => ?_, fun k k' g hg hg' => ?_, fun a => ?_⟩
  · rw [hworkers]
    exact hI.gen_le k g (hgen k ▸ hg)
  · exact hI.gen_inj k k' g (hgen k ▸ hg) (hgen k' ▸ hg')
  -- the agent itself starts over
  by_cases ha : a = req.agent
  · subst ha
    exact agentInv_register (hI.agent _) hx hopen hhandlers hgen ((hworker _).trans (if_pos rfl))
      (by rw [← hc']; exact Function.update_self _ _ _) (by rw [← hc']; rfl)
  · -- another agent sees at most a far end renamed
    refine agentInv_frame (hI.agent a) ?_ ?_ ?_
      (traits_other hx hopen (fun req' h' hb => ha (hb.symm.trans (hagent req' h'))) hhandlers) (fun k hk => ?_)
    · rw [hworker, if_neg ha, Option.map_map]
      exact congrArg (Option.map · _) (funext (fun w => standing_rename (ends_settleOther _)))
    · rw [← hc']
      exact Function.update_of_ne ha _ _
    · rw [← hc']; rfl
    · unfold Controller.Registering at hk ⊢
      rw [hhandlers, getElem?_setHandler hx] at hk
      split at hk
      · exact absurd (Option.some.inj hk).symm ha
      · exact hk

/-- What an attach makes of a registry: the session of the agent is `h`, under the generation the
    handler then holds, which is the one it held before or a new one. -/
private structure AttachedAs (c c' : Controller F) (h : ℕ) (req : RegisterReq) (w' : Worker)
    (g' : ℕ) : Prop where
  worker : c'.app.workers.worker req.agent = some w'
  profile : w'.profile = (c.app.workers.entry req.agent).profile
  session : w'.session = some (g', h)
  handler : c'.handlers[h]? = some (.serving req g')
  others : ∀ k, k ≠ h → c'.handlers[k]? = c.handlers[k]?
  generation : (c.generationOf h = some g' ∧ c'.app.workers.generation = c.app.workers.generation) ∨
    (g' = c.app.workers.generation + 1 ∧ c'.app.workers.generation = g')

private theorem attachedAs_attachOn (hI : RegInv c) {req : RegisterReq} {own : Option ℕ}
    (hx : c.handlers[h]? = some (.registering req own true)) :
    ∃ w' g', AttachedAs c (c.attachOn h req own) h req w' g' := by
  have hself := WorkerRegistry.worker_attach c.app.workers req.agent h own req.agent
  rw [if_pos rfl] at hself
  have hgeneration := WorkerRegistry.attach_generation c.app.workers req.agent h own
  have hat := getElem?_setHandler hx (.serving req (c.app.workers.attach req.agent h own).2.1)
  have hhgen : c.generationOf h = own := by
    unfold Controller.generationOf
    rw [hx]
    rfl
  by_cases hlive : own.isSome ∧ own = (c.app.workers.entry req.agent).session.map Prod.fst
  · -- the live generation is that of no other handler, so the session stays
    rw [if_pos hlive] at hself hgeneration
    obtain ⟨hg₁, hg₂⟩ := Prod.mk.inj hgeneration
    obtain ⟨g, hown⟩ := Option.isSome_iff_exists.mp hlive.1
    obtain ⟨⟨g₀, k⟩, hpair, hg₀⟩ := Option.map_eq_some_iff.mp (hown.symm.trans hlive.2).symm
    obtain rfl : g₀ = g := hg₀
    obtain ⟨w₀, hw₀, hs₀⟩ := session_entry hpair
    have hk := ((hI.agent _).holder w₀ g₀ k hw₀ hs₀).2.1
    obtain rfl := hI.gen_inj h k g₀ (hhgen.trans hown) hk
    have hserving : (c.app.workers.attach req.agent h own).2.1 = g₀ := by
      rw [hg₁, hown]
      rfl
    exact ⟨_, g₀, hself, rfl, hpair, (hat h).trans (by rw [if_pos rfl, hserving]),
      fun k hk => (hat k).trans (if_neg hk), Or.inl ⟨hhgen.trans hown, hg₂⟩⟩
  · rw [if_neg hlive] at hself hgeneration
    obtain ⟨hg₁, hg₂⟩ := Prod.mk.inj hgeneration
    exact ⟨_, _, hself, rfl, rfl, (hat h).trans (by rw [if_pos rfl, hg₁]),
      fun k hk => (hat k).trans (if_neg hk), Or.inr ⟨rfl, hg₂⟩⟩

/-- The generations are in order still. -/
private theorem AttachedAs.generations {c' : Controller F} {req : RegisterReq} {w' : Worker} {g' : ℕ}
    (h' : AttachedAs c c' h req w' g') (hI : RegInv c) :
    (∀ k g, c'.generationOf k = some g → g ≤ c'.app.workers.generation) ∧
      ∀ k k' g, c'.generationOf k = some g → c'.generationOf k' = some g → k = k' := by
  have hself : c'.generationOf h = some g' := by
    unfold Controller.generationOf
    rw [h'.handler]
    rfl
  have hother : ∀ k, k ≠ h → c'.generationOf k = c.generationOf k :=
    fun k hk => congrArg (·.bind Handler.generation?) (h'.others k hk)
  -- no other handler holds the generation of `h`
  have hnew : ∀ k, k ≠ h → c.generationOf k ≠ some g' := by
    intro k hk hkg
    rcases h'.generation with ⟨hown, -⟩ | ⟨hg, -⟩
    · exact hk (hI.gen_inj k h g' hkg hown)
    · have := hI.gen_le k g' hkg
      omega
  refine ⟨fun k g hg => ?_, fun k k' g hk hk' => ?_⟩
  · by_cases hkh : k = h
    · rw [hkh, hself] at hg
      obtain rfl := Option.some.inj hg
      rcases h'.generation with ⟨hown, hsame⟩ | ⟨-, hgeq⟩
      · rw [hsame]
        exact hI.gen_le h g' hown
      · exact hgeq.ge
    · rw [hother k hkh] at hg
      have := hI.gen_le k g hg
      rcases h'.generation with ⟨-, hsame⟩ | ⟨hg₁, hgeq⟩ <;> omega
  · by_cases h₁ : k = h <;> by_cases h₂ : k' = h
    · rw [h₁, h₂]
    · rw [hother k' h₂] at hk'
      rw [h₁, hself] at hk
      exact absurd (hk'.trans hk.symm) (hnew k' h₂)
    · rw [hother k h₁] at hk
      rw [h₂, hself] at hk'
      exact absurd (hk.trans hk'.symm) (hnew k h₁)
    · rw [hother k h₁] at hk
      rw [hother k' h₂] at hk'
      exact hI.gen_inj k k' g hk hk'

/-- The agent of the session. -/
private theorem AttachedAs.agentInv {c' : Controller F} {req : RegisterReq} {own : Option ℕ}
    {w' : Worker} {g' : ℕ} (h' : AttachedAs c c' h req w' g') (hI : AgentInv c req.agent)
    (hx : c.handlers[h]? = some (.registering req own true))
    (hwriter : c'.writer req.agent = c.writer req.agent) (hatt : c'.attached req.agent = some h)
    (hok : ∃ h' ∈ c.writer req.agent, c.Registering h' req.agent) : AgentInv c' req.agent := by
  have hacc' : c'.acceptedOf h = some req := by
    unfold Controller.acceptedOf
    rw [h'.handler]
    rfl
  have hgen' : c'.generationOf h = some g' := by
    unfold Controller.generationOf
    rw [h'.handler]
    rfl
  refine ⟨fun k _ => by rw [h'.worker]; rfl, fun w g k hw hg => ?_, fun k hk => ?_, fun w hw => ?_⟩
  · rw [h'.worker] at hw
    obtain rfl := Option.some.inj hw
    rw [h'.session] at hg
    obtain ⟨rfl, rfl⟩ := Prod.mk.inj (Option.some.inj hg)
    exact ⟨hatt, hgen', req, hacc', rfl⟩
  · rw [hatt] at hk
    obtain rfl := Option.some.inj hk
    exact Or.inr ⟨w', g', h'.worker, h'.session⟩
  · rw [h'.worker] at hw
    obtain rfl := Option.some.inj hw
    -- the data are those of the session that registered last, attached now or still to attach
    obtain ⟨h₁, hwr, hreg⟩ := hok
    obtain ⟨w₀, hw₀⟩ := Option.isSome_iff_exists.mp (hI.present h₁ hreg)
    obtain ⟨h₂, req₂, hwr₂, hacc₂, hag₂, hprof₂, -⟩ := hI.writer w₀ hw₀
    obtain rfl : h₁ = h₂ := Option.some.inj (hwr.symm.trans hwr₂)
    have hprof' : w'.profile = req₂.profile := by rw [h'.profile, entry_of_worker hw₀, hprof₂]
    by_cases hh : h₁ = h
    · subst hh
      have hhacc : c.acceptedOf h₁ = some req := by
        unfold Controller.acceptedOf
        rw [hx]
        rfl
      obtain rfl : req = req₂ := Option.some.inj (hhacc.symm.trans hacc₂)
      exact ⟨h₁, req, hwriter.trans hwr, hacc', rfl, hprof', Or.inr ⟨g', h'.session⟩⟩
    · refine ⟨h₁, req₂, hwriter.trans hwr, ?_, hag₂, hprof', Or.inl ?_⟩
      · exact (congrArg (·.bind Handler.accepted?) (h'.others h₁ hh)).trans hacc₂
      · exact (registering_congr (h'.others h₁ hh) _).mpr hreg

/-- **Attaching**, while the session that registered the agent last is still registering. -/
private theorem regInv_attach (hI : RegInv c) {req : RegisterReq} {own : Option ℕ}
    (hx : c.handlers[h]? = some (.registering req own true))
    (hok : ∃ h' ∈ c.writer req.agent, c.Registering h' req.agent) :
    RegInv (c.attachOn h req own) := by
  obtain ⟨w', g', h'⟩ := attachedAs_attachOn hI hx
  obtain ⟨hle, hinj⟩ := h'.generations hI
  refine ⟨hle, hinj, fun a => ?_⟩
  by_cases ha : a = req.agent
  · subst ha
    exact h'.agentInv (hI.agent _) hx rfl (Function.update_self _ _ _) hok
  · refine agentInv_frame (hI.agent a) ?_ rfl (Function.update_of_ne ha _ _)
      (traits_other hx (by simp) (fun req' h' hb => ?_) rfl) (fun k hk => ?_)
    · exact congrArg _ ((WorkerRegistry.worker_attach c.app.workers req.agent h own a).trans (if_neg ha))
    · obtain rfl := Option.some.inj h'
      exact ha hb.symm
    · by_cases hkh : k = h
      · subst hkh
        unfold Controller.Registering at hk
        rw [h'.handler] at hk
        exact absurd hk (by simp [Handler.pending?])
      · exact (registering_congr (h'.others k hkh) a).mp hk

/-! ### The end of a session -/

/-- What an end of a session `h` leaves: the handler is closed, and nothing else of the handlers or
    of the history has changed. -/
private structure ClosedOnly (c c' : Controller F) (h : ℕ) : Prop where
  handler : c'.handlers[h]? = some .closed
  others : ∀ k, k ≠ h → c'.handlers[k]? = c.handlers[k]?
  writer : c'.writer = c.writer
  attached : c'.attached = c.attached

section ClosedOnly

variable {c' : Controller F}

private theorem ClosedOnly.generationOf (hc : ClosedOnly c c' h) {k g : ℕ}
    (hk : c'.generationOf k = some g) : k ≠ h ∧ c.generationOf k = some g := by
  by_cases hkh : k = h
  · subst hkh
    unfold Controller.generationOf at hk
    rw [hc.handler] at hk
    exact absurd hk (by simp [Handler.generation?])
  · exact ⟨hkh, (congrArg (·.bind Handler.generation?) (hc.others k hkh)).symm.trans hk⟩

private theorem ClosedOnly.registering (hc : ClosedOnly c c' h) {k : ℕ} {a : String}
    (hk : c'.Registering k a) : c.Registering k a := by
  by_cases hkh : k = h
  · subst hkh
    unfold Controller.Registering at hk
    rw [hc.handler] at hk
    exact absurd hk (by simp [Handler.pending?])
  · exact (registering_congr (hc.others k hkh) a).mp hk

private theorem ClosedOnly.closed (hc : ClosedOnly c c' h) {k : ℕ} (hk : c.Closed k) :
    c'.Closed k := by
  by_cases hkh : k = h
  · subst hkh
    exact hc.handler
  · exact (hc.others k hkh).trans hk

/-- The agent leaves the registry with the session attached last, while nobody registers it. -/
private theorem ClosedOnly.agentInv_evicted (hc : ClosedOnly c c' h) (hI : RegInv c)
    {me : String × ℕ} (hgen : c.generationOf h = some me.2)
    (hcur : (c.app.workers.worker me.1).bind (fun w => w.session.map Prod.fst) = some me.2)
    (hnobody : ∀ x ∈ c.handlers, x.pending? ≠ some me.1)
    (hgone : c'.app.workers.worker me.1 = none) : AgentInv c' me.1 := by
  refine ⟨fun k hk => ?_, fun w g k hw => ?_, fun k hk => ?_, fun w hw => ?_⟩
  · exact absurd (hc.registering hk) (Controller.not_registering_of_all hnobody k)
  · exact absurd (hgone.symm.trans hw) (by simp)
  · rw [hc.attached] at hk
    rcases (hI.agent _).attached k hk with hclosed | ⟨w, g, hw, hg⟩
    · exact Or.inl (hc.closed hclosed)
    · -- the evicted session is the one attached last
      rw [hw, Option.bind_some, hg] at hcur
      have hkgen := ((hI.agent _).holder w g k hw hg).2.1
      obtain rfl : g = me.2 := Option.some.inj hcur
      obtain rfl := hI.gen_inj h k _ hgen hkgen
      exact Or.inl hc.handler
  · exact absurd (hgone.symm.trans hw) (by simp)

/-- An agent whose session is another one stays as it is. -/
private theorem ClosedOnly.agentInv_stale (hc : ClosedOnly c c' h) {a : String}
    (hI : AgentInv c a) (hidle : ¬ c.Registering h a)
    (hnot : ∀ w g, c.app.workers.worker a = some w → w.session ≠ some (g, h))
    (hstays : c'.app.workers.worker a = c.app.workers.worker a) : AgentInv c' a := by
  have hacc : ∀ k, k ≠ h → c'.acceptedOf k = c.acceptedOf k :=
    fun k hk => congrArg (·.bind Handler.accepted?) (hc.others k hk)
  refine ⟨fun k hk => ?_, fun w g k hw hg => ?_, fun k hk => ?_, fun w hw => ?_⟩
  · rw [hstays]
    exact hI.present k (hc.registering hk)
  · rw [hstays] at hw
    have hk : k ≠ h := fun hk => hnot w g hw (hk ▸ hg)
    obtain ⟨hatt, hkgen, req, hreq, hag⟩ := hI.holder w g k hw hg
    exact ⟨by rw [hc.attached]; exact hatt,
      (congrArg (·.bind Handler.generation?) (hc.others k hk)).trans hkgen,
      req, (hacc k hk).trans hreq, hag⟩
  · rw [hc.attached] at hk
    rw [hstays]
    exact (hI.attached k hk).imp hc.closed id
  · rw [hstays] at hw
    obtain ⟨k, req, hwr, hreq, hag, hprof, hlast⟩ := hI.writer w hw
    have hk : k ≠ h := by
      rintro rfl
      rcases hlast with hr | ⟨g, hg⟩
      · exact hidle hr
      · exact hnot w g hw hg
    exact ⟨k, req, by rw [hc.writer]; exact hwr, (hacc k hk).trans hreq, hag, hprof,
      hlast.imp (registering_congr (hc.others k hk) a).mpr id⟩

end ClosedOnly

/-- **Detaching**, with the live generation only while nobody registers the agent. -/
private theorem regInv_detach (hI : RegInv c) {x : Handler} {identity : Option (String × ℕ)}
    (hx : c.handlers[h]? = some x) (hidle : x.idle? = some identity)
    (hok : ∀ id ∈ identity,
      (c.app.workers.worker id.1).bind (fun w => w.session.map Prod.fst) = some id.2 →
        ∀ x ∈ c.handlers, x.pending? ≠ some id.1) :
    RegInv (c.detachOn h identity) := by
  obtain ⟨hxgen, hxpend, hopen, hmine⟩ := of_idle hidle
  generalize hc' : c.detachOn h identity = c'
  have hhandlers : c'.handlers = c.handlers.set h .closed := by rw [← hc']; rfl
  have hclosed : ClosedOnly c c' h :=
    { handler := by rw [hhandlers, getElem?_setHandler hx, if_pos rfl]
      others := fun k hk => by rw [hhandlers, getElem?_setHandler hx, if_neg hk]
      writer := by rw [← hc']; rfl
      attached := by rw [← hc']; rfl }
  have hsame : c'.app.workers.generation = c.app.workers.generation := by
    rw [← hc']
    cases identity with
    | none => rfl
    | some id => exact WorkerRegistry.generation_detach _ _ _
  refine ⟨fun k g hk => hsame ▸ hI.gen_le k g (hclosed.generationOf hk).2,
    fun k k' g hk hk' => hI.gen_inj k k' g (hclosed.generationOf hk).2 (hclosed.generationOf hk').2,
    fun a => ?_⟩
  have hother : (∀ id ∈ identity, id.1 ≠ a) → AgentInv c' a := by
    intro hne
    refine agentInv_frame (hI.agent a) ?_ (by rw [hclosed.writer]) (by rw [hclosed.attached])
      (traits_other hx hopen (fun req hacc hag => ?_) hhandlers) (fun k hk => hclosed.registering hk)
    · rw [← hc']
      cases identity with
      | none => rfl
      | some id =>
        show Option.map _ ((c.app.workers.detach id.1 id.2).1.worker a) = _
        rw [WorkerRegistry.worker_detach, if_neg (fun h => hne id rfl h.1.symm)]
    · obtain ⟨g, hid⟩ := hmine req hacc
      exact hne _ hid hag
  cases hid : identity with
  | none => exact hother (fun id h' => by rw [hid] at h'; exact absurd h' (by simp))
  | some me =>
  by_cases ha : me.1 = a
  swap
  · exact hother (fun id' h' => by rw [hid] at h'; exact Option.some.inj h' ▸ ha)
  subst ha
  have hworker := WorkerRegistry.worker_detach c.app.workers me.1 me.2 me.1
  have hworkers : c'.app.workers = (c.app.workers.detach me.1 me.2).1 := by rw [← hc', hid]; rfl
  rw [← hworkers] at hworker
  have hhgen : c.generationOf h = some me.2 := by
    unfold Controller.generationOf
    rw [hx, Option.bind_some, hxgen, hid]
    rfl
  -- the session of the agent is `h` exactly if the generation is the live one
  by_cases hcur : (c.app.workers.worker me.1).bind (fun w => w.session.map Prod.fst) = some me.2
  · rw [if_pos ⟨rfl, hcur⟩] at hworker
    exact hclosed.agentInv_evicted hI hhgen hcur (hok me hid hcur) hworker
  · rw [if_neg (fun h' => hcur h'.2)] at hworker
    have hnot : ∀ w g, c.app.workers.worker me.1 = some w → w.session ≠ some (g, h) := by
      intro w g hw hg
      have hlive := ((hI.agent _).holder w g h hw hg).2.1
      rw [hhgen] at hlive
      refine hcur ?_
      rw [hw, Option.bind_some, hg, Option.some.inj hlive]
      rfl
    refine hclosed.agentInv_stale (hI.agent _) (fun hr => ?_) hnot hworker
    unfold Controller.Registering at hr
    rw [hx, Option.bind_some, hxpend] at hr
    exact absurd hr (by simp)

variable [LinearOrder F] [Zero F] [Add F]

/-- **Step lemma.** Every operation that meets `RegistersInOrder` keeps the invariant. -/
theorem regInv_step {c c' : Controller F} {e : Event F} (hI : RegInv c)
    (hok : RegistersInOrder c e) (hs : c.step e = some c') : RegInv c' := by
  have hissue : ∀ (w : Worker) m, Worker.standing { w with last_issue := m } = w.standing :=
    fun _ _ => rfl
  have hcosts : ∀ (w : Worker) m m',
      Worker.standing { w with apply_retry_at := m, applied_sent := m' } = w.standing :=
    fun _ _ _ => rfl
  cases Controller.moves_of_step hs with
  | opened =>
    -- a session that has not said hello is none
    refine regInv_of_same hI (Controller.sameView_refl _ _) (fun h => ?_) rfl rfl
    show traits (c.handlers ++ [.hello])[h]? = _
    rcases Nat.lt_trichotomy h c.handlers.length with hlt | heq | hgt
    · rw [List.getElem?_append_left hlt]
    · rw [heq, List.getElem?_concat_length, List.getElem?_eq_none (le_refl _)]
      rfl
    · rw [List.getElem?_eq_none (by rw [List.length_append, List.length_singleton]; omega),
        List.getElem?_eq_none hgt.le]
  | register hx hidle hown => exact regInv_register hI hx hidle hown
  | @sync h req own lookup hx =>
    refine regInv_of_same hI (Controller.sameView_resolvePeers
      (fun w lookup => standing_rename (ends_named w lookup)) _ _) (fun k => ?_) rfl rfl
    show traits (c.handlers.set h _)[k]? = _
    rw [getElem?_setHandler hx]
    split
    · rename_i hk
      rw [hk, hx]; rfl
    · rfl
  | attach hx =>
    refine regInv_attach hI hx (hok _ ?_)
    rw [hx]; rfl
  | detach hx hidle =>
    refine regInv_detach hI hx hidle (fun id hid => hok id ?_)
    rw [hx, Option.bind_some, hidle, hid]; rfl
  | rename =>
    exact regInv_of_same hI (Controller.sameView_resolvePeers
      (fun w lookup => standing_rename (ends_named w lookup)) _ _) (fun _ => rfl) rfl rfl
  | fetch => exact regInv_of_same hI (Controller.sameView_refl _ _) (fun _ => rfl) rfl rfl
  | begin =>
    rcases c.claim_cases _ _ _ with heq | ⟨workers, heq, htracked⟩
    · rw [heq]
      exact regInv_of_same hI (Controller.sameView_refl _ _) (fun _ => rfl) rfl rfl
    · rw [heq]
      refine regInv_of_same hI ?_ (fun _ => rfl) rfl rfl
      rcases htracked with ⟨-, rfl⟩ | ⟨link, kind, w, -, -, -, rfl⟩
      · exact Controller.sameView_refl _ _
      · apply Controller.sameView_modify
        exact fun _ => rfl
  | send => exact regInv_of_same hI (Controller.sameView_refl _ _) (fun _ => rfl) rfl rfl
  | mark =>
    exact regInv_of_same hI (Controller.sameView_markSent hissue hcosts _ _ _ _) (fun _ => rfl) rfl rfl
  | reply =>
    exact regInv_of_same hI (Controller.sameView_handleReply hcosts _ _ _) (fun _ => rfl) rfl rfl
  | fail =>
    exact regInv_of_same hI (Controller.sameView_onFailure hcosts _ _ _ _) (fun _ => rfl) rfl rfl
  | @finish i r =>
    exact regInv_of_same hI (Controller.sameView_finishOn (fun _ _ => rfl) c _ r) (fun _ => rfl) rfl rfl
  | acquire =>
    obtain ⟨leases, heq, -⟩ := c.acquireFor_cases _ _ _ _
    rw [heq]
    exact regInv_of_same hI (Controller.sameView_refl _ _) (fun _ => rfl) rfl rfl
  | release => exact regInv_of_same hI (Controller.sameView_refl _ _) (fun _ => rfl) rfl rfl
  | post => exact regInv_of_same hI (Controller.sameView_refl _ _) (fun _ => rfl) rfl rfl

/-! ### Runs -/

omit [LinearOrder F] [Zero F] [Add F] in
private theorem regInv_init (tsdb : Tsdb F) : RegInv (Controller.init tsdb) := by
  have hworker : ∀ a, (Controller.init tsdb).app.workers.worker a = none := fun _ => rfl
  have hhandler : ∀ h : ℕ, (Controller.init tsdb).handlers[h]? = none := fun _ => rfl
  refine ⟨fun h g hg => ?_, fun h h' g hg => ?_, fun a => ⟨fun h hh => ?_, fun w g h hw => ?_,
    fun h hh => ?_, fun w hw => ?_⟩⟩
  · rw [Controller.generationOf, hhandler] at hg
    exact absurd hg (by simp)
  · rw [Controller.generationOf, hhandler] at hg
    exact absurd hg (by simp)
  · rw [Controller.Registering, hhandler] at hh
    exact absurd hh (by simp)
  · exact absurd ((hworker a).symm.trans hw) (by simp)
  · exact absurd (show none = some h from hh) (by simp)
  · exact absurd ((hworker a).symm.trans hw) (by simp)

/-- A detach leaves what the registry holds of the agent of the session. -/
def Controller.DetachKeeps (c c' : Controller F) (h : ℕ) : Prop :=
  ∀ agent g, (c.handlers[h]?).bind Handler.idle? = some (some (agent, g)) →
    -- under a superseded generation, or after another session has registered the agent
    ((c.app.workers.worker agent).bind (fun w => w.session.map Prod.fst) ≠ some g ∨
      c.writer agent ≠ some h) → c'.app.workers = c.app.workers

/-- **The registry holds the live session's registration.** In every run in which sessions
    register in order: whenever nobody is registering an agent, the agent is in the registry if
    and only if the session attached last has not detached, and then with what was registered
    last on that session; and no detach under a superseded generation, or of a session another
    one has registered over, changes the registry. -/
theorem registration_holds {tsdb : Tsdb F} {c : Controller F}
    (h : Runs Controller.step RegistersInOrder (Controller.init tsdb) c) :
    (∀ agent, (∀ h, ¬ c.Registering h agent) → c.RegistrationHolds agent) ∧
      ∀ h c', RegistersInOrder c (.detach h) → c.step (.detach h) = some c' →
        c.DetachKeeps c' h := by
  have hI : RegInv c := h.invariant (regInv_init tsdb) (fun _ _ _ hI hok hs => regInv_step hI hok hs)
  refine ⟨fun agent hquiet => (hI.agent agent).holds hquiet, ?_⟩
  intro h c' hok hs agent g hid hold
  cases Controller.moves_of_step hs with
  | @detach _ x identity hx hidle =>
    rw [hx, Option.bind_some, hidle] at hid
    obtain rfl := Option.some.inj hid
    show (c.app.workers.detach agent g).1 = _
    by_cases hcur : (c.app.workers.worker agent).bind (fun w => w.session.map Prod.fst) = some g
    · -- the live session has registered the agent last, as nobody is registering it
      have hwriter := hold.resolve_left (not_not.mpr hcur)
      have hnobody := hok (agent, g) (by rw [hx, Option.bind_some, hidle]; rfl) hcur
      obtain ⟨w, hw, hsess⟩ := Option.bind_eq_some_iff.mp hcur
      obtain ⟨⟨g₀, k⟩, hpair, hg₀⟩ := Option.map_eq_some_iff.mp hsess
      have hg₀ : g₀ = g := hg₀
      subst hg₀
      have hkgen := ((hI.agent agent).holder w g₀ k hw hpair).2.1
      have hhgen : c.generationOf h = some g₀ := by
        rw [Controller.generationOf, hx]
        exact (of_idle hidle).1
      obtain rfl := hI.gen_inj h k g₀ hhgen hkgen
      obtain ⟨h₁, req, hwr, -, -, -, hreg | ⟨g₁, hg₁⟩⟩ := (hI.agent agent).writer w hw
      · exact absurd hreg (Controller.not_registering_of_all hnobody h₁)
      · rw [hpair] at hg₁
        obtain ⟨rfl, rfl⟩ := Prod.mk.inj (Option.some.inj hg₁)
        exact absurd hwr hwriter
    · rw [WorkerRegistry.detach_of_superseded hcur]

/-! ### A session that ends while another registers -/

/-- The registration of an agent with one link. -/
private def helloReq (interface : String) : RegisterReq :=
  ⟨"spoke-1", none, [⟨"spoke-1", "hub-a", interface⟩], [], none⟩

/-- The steps of one registration. -/
private def registration (h : ℕ) (interface : String) : List (Event ℕ) :=
  [.register h (helloReq interface), .sync h (fun _ => none), .attach h]

/-- A reconnect in order: the agent is in the registry with the link of its new session. -/
theorem registration_holds_reconnect : ∃ c : Controller ℕ,
    (c.app.workers.worker "spoke-1").map Worker.links = some [⟨"spoke-1", "hub-a", "awg1"⟩] ∧
      c.RegistrationHolds "spoke-1" := by
  have hrun : exec Controller.step RegistersInOrder (Controller.init (Tsdb.new ⟨"", 7200, 86400⟩))
      ([.open, .open] ++ registration 0 "awg0" ++ registration 1 "awg1" ++ [.detach 0]) =
        some _ := rfl
  refine ⟨_, rfl, (registration_holds (Runs.of_exec _ hrun)).1 "spoke-1" ?_⟩
  exact Controller.not_registering_of_all (by decide)

/-- **An eviction erases a registration.** The old session ends between the register and the
    attach of the new one: the agent is left in the registry without its link. -/
theorem eviction_erases_registration : ∃ c : Controller ℕ,
    Runs Controller.step Always (Controller.init (Tsdb.new ⟨"", 7200, 86400⟩)) c ∧
      (∀ h, ¬ c.Registering h "spoke-1") ∧ ¬ c.RegistrationHolds "spoke-1" := by
  have hrun : exec Controller.step Always (Controller.init (Tsdb.new ⟨"", 7200, 86400⟩))
      ([.open, .open] ++ registration 0 "awg0" ++
        [.register 1 (helloReq "awg1"), .detach 0, .sync 1 (fun _ => none), .attach 1]) =
        some _ := rfl
  refine ⟨_, Runs.of_exec _ hrun, Controller.not_registering_of_all (by decide), fun h => ?_⟩
  obtain ⟨req, hacc, hprof⟩ := h.2 _ 1 rfl rfl
  obtain rfl := Option.some.inj hacc
  exact absurd (congrArg Profile.ends hprof) (by decide)

end Mielofon
