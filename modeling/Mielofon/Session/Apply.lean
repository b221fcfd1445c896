import Mathlib
import Mielofon.Session.Controller

namespace Mielofon

open Lib

/-!
# What a failed apply leaves

The cost an agent was asked to apply is remembered in two places that do not know of each
other: the dispatcher records it after the dispatch, and the task of the command records or
forgets it with the reply.  A command that fails before its dispatcher has recorded it is
remembered as sent, and is not sent again.

* `Controller.lastIdx`, `Controller.failedLast` — the apply sent last on the live session for a
  link, and its cost and time if it failed;
* `ForgetsFailures` — a cost is recorded only while the last apply has not failed with it, and
  an older apply fails only where nothing is remembered;
* `ApplyInv`, `applyInv_step` — the invariant and its step lemma;
* `failed_apply_forgotten` — under `ForgetsFailures` a failed apply is forgotten and retried;
* `late_mark_remembers_failure` — a run in which it is not.
-/

variable {F : Type*}

/-- The cost and the time of an apply that failed. -/
def Request.failure? (r : Request) : Option (ℕ × ℕ) :=
  match r.phase, r.cmd with
  | .failed t, .applyCost _ _ cost _ => some (cost, t)
  | _, _ => none

namespace Controller

/-- The apply sent last on the live session of an agent for a link id. -/
def lastIdx (c : Controller F) (agent id : String) : Option ℕ :=
  (c.app.workers.session agent).bind (fun sid => c.lastApply (agent, sid, id))

/-- Its cost and the time it failed, if it did. -/
def failedLast (c : Controller F) (agent id : String) : Option (ℕ × ℕ) :=
  (c.lastIdx agent id).bind (fun i => (c.requests[i]?).bind Request.failure?)

/-- Recording the cost of the apply does not record the one that failed last. -/
def RecordOk (c : Controller F) (r : Request) : Prop :=
  match r.cmd with
  | .applyCost _ link cost _ => (c.failedLast r.agent link.id).map Prod.fst ≠ some cost
  | _ => True

instance (c : Controller F) (r : Request) : Decidable (c.RecordOk r) := by
  unfold RecordOk
  split <;> infer_instance

/-- The apply that fails is the last one of the live session; or the last one has not failed
    before, and if the session of the failed one was replaced, no cost is remembered. -/
def FailOk (c : Controller F) (i : ℕ) (r : Request) (now : ℕ) : Prop :=
  match r.cmd with
  | .applyCost _ link _ _ => c.lastIdx r.agent link.id = some i ∨
      ((∀ p ∈ c.failedLast r.agent link.id, now ≤ p.2) ∧
        (c.app.workers.session r.agent ≠ some r.session → c.app.workers.appliedSent r.agent link = none))
  | _ => True

instance (c : Controller F) (i : ℕ) (r : Request) (now : ℕ) : Decidable (c.FailOk i r now) := by
  unfold FailOk
  split <;> infer_instance

/-- Where the last apply of the session has failed, nothing is remembered or backed off. -/
def TakeoverOk (c : Controller F) (agent : String) (h : ℕ) : Prop :=
  ∀ i < c.requests.length, ∀ r ∈ c.requests[i]?, ∀ k ∈ applyKey r, k.1 = agent → k.2.1 = h →
    c.lastApply k = some i → r.failure?.isSome →
      (c.app.workers.entry agent).applied_sent.get k.2.2 = none ∧
        (c.app.workers.entry agent).apply_retry_at.get k.2.2 = none

instance (c : Controller F) (agent : String) (h : ℕ) : Decidable (c.TakeoverOk agent h) := by
  unfold TakeoverOk
  infer_instance

end Controller

/-- A cost is recorded, by the dispatcher or with the reply, only while the last apply on the
    live session has not failed with it; an apply that is not the last one fails only where
    that keeps what is remembered; a session takes over only where its own failures are
    forgotten. -/
def ForgetsFailures (c : Controller F) : Event F → Prop
  | .mark i _ => ∀ r ∈ c.requests[i]?, c.RecordOk r
  | .reply i reply now => ∀ r ∈ c.requests[i]?,
      if reply.phase now = .answered then c.RecordOk r else c.FailOk i r now
  | .fail i now => ∀ r ∈ c.requests[i]?, c.FailOk i r now
  | .attach h => ∀ x ∈ c.handlers[h]?, ∀ agent ∈ x.pending?,
      (x.generation?.isSome ∧
        x.generation? = (c.app.workers.entry agent).session.map Prod.fst) ∨ c.TakeoverOk agent h
  | _ => True

instance (c : Controller F) (e : Event F) : Decidable (ForgetsFailures c e) := by
  refine Event.casesOn e ?_ ?_ ?_ ?_ ?_ ?_ ?_ ?_ ?_ ?_ ?_ ?_ ?_ ?_ ?_ ?_ <;>
    intros <;> delta ForgetsFailures <;> dsimp only <;> infer_instance

/-! ### The invariant -/

/-- What is remembered and backed off after a failure: not its cost, and no longer than the
    retry time. -/
def Controller.Forgotten (c : Controller F) (agent id : String) : Prop :=
  ∀ p ∈ c.failedLast agent id, ∀ w, c.app.workers.worker agent = some w →
    w.applied_sent.get id ≠ some p.1 ∧
      ∀ t, w.apply_retry_at.get id = some t → t ≤ p.2 + applyRetrySecs

/-- The history names applies of its key, and failures are forgotten. -/
structure ApplyInv (c : Controller F) : Prop where
  key : ∀ k i, c.lastApply k = some i → ∃ r, c.requests[i]? = some r ∧ Controller.applyKey r = some k
  forgotten : ∀ agent id, c.Forgotten agent id

/-- The costs of an agent. -/
def Worker.costs (w : Worker) : Option (ℕ × ℕ) × Map String ℕ × Map String ℕ :=
  (w.session, w.applied_sent, w.apply_retry_at)

theorem session_eq_of_costs {r r' : WorkerRegistry}
    (h : Controller.SameView Worker.costs r r') (agent : String) :
    r'.session agent = r.session agent := by
  have heq := congrArg (fun o => o.bind (fun p => p.1.map Prod.snd)) (h.1 agent)
  simpa [Option.bind_map, Worker.costs, WorkerRegistry.session, Function.comp_def] using heq

/-- After one request has moved on, the failure that counts is its own or the one before. -/
private theorem failedLast_set {c c' : Controller F} {i : ℕ} {r x : Request}
    (hr : c.requests[i]? = some r) (hset : c'.requests = c.requests.set i x)
    (hidx : ∀ agent id, c'.lastIdx agent id = c.lastIdx agent id) (agent id : String) :
    c'.failedLast agent id =
      if c.lastIdx agent id = some i then x.failure? else c.failedLast agent id := by
  have hlt : i < c.requests.length := (List.getElem?_eq_some_iff.mp hr).1
  unfold Controller.failedLast
  rw [hidx]
  cases hlast : c.lastIdx agent id with
  | none => rw [if_neg (by simp)]; rfl
  | some j =>
    rw [Option.bind_some, Option.bind_some, hset, List.getElem?_set]
    by_cases hij : i = j
    · rw [if_pos hij, if_pos hlt, if_pos (by rw [hij])]; rfl
    · rw [if_neg hij, if_neg (fun h => hij (Option.some.inj h).symm)]

/-- **Frame.** An operation that leaves the costs and the failures that count. -/
private theorem applyInv_frame {c c' : Controller F} (hI : ApplyInv c)
    (hview : Controller.SameView Worker.costs c.app.workers c'.app.workers)
    (hkey : ∀ k i, c'.lastApply k = some i →
      ∃ r, c'.requests[i]? = some r ∧ Controller.applyKey r = some k)
    (hfail : ∀ agent id p, c'.failedLast agent id = some p → c.failedLast agent id = some p) :
    ApplyInv c' := by
  refine ⟨hkey, fun agent id p hp w' hw' => ?_⟩
  have heq := hview.1 agent
  rw [hw', Option.map_some] at heq
  obtain ⟨w, hw, hcosts⟩ := Option.map_eq_some_iff.mp heq.symm
  have hsent : w'.applied_sent = w.applied_sent := (congrArg (·.2.1) hcosts).symm
  have hretry : w'.apply_retry_at = w.apply_retry_at := (congrArg (·.2.2) hcosts).symm
  rw [hsent, hretry]
  exact hI.forgotten agent id p (hfail agent id p hp) w hw

/-- An operation that leaves costs, requests and history alone. -/
private theorem applyInv_of_same {c c' : Controller F} (hI : ApplyInv c)
    (hview : Controller.SameView Worker.costs c.app.workers c'.app.workers)
    (hreq : c'.requests = c.requests) (hlast : c'.lastApply = c.lastApply) : ApplyInv c' := by
  refine applyInv_frame hI hview (by rw [hreq, hlast]; exact hI.key) (fun agent id p hp => ?_)
  unfold Controller.failedLast Controller.lastIdx at hp ⊢
  rw [session_eq_of_costs hview, hlast, hreq] at hp
  exact hp

/-- The history still names applies of its key when one request has moved on. -/
private theorem key_set {c : Controller F} (hI : ApplyInv c) {i : ℕ} {r x : Request}
    (hr : c.requests[i]? = some r) (hkey : Controller.applyKey x = Controller.applyKey r)
    {k : String × ℕ × String} {j : ℕ} (hlast : c.lastApply k = some j) :
    ∃ r', (c.requests.set i x)[j]? = some r' ∧ Controller.applyKey r' = some k := by
  obtain ⟨r', hr', hk⟩ := hI.key k j hlast
  rw [List.getElem?_set]
  split
  · rename_i hij
    subst hij
    obtain rfl := Option.some.inj (hr.symm.trans hr')
    rw [if_pos (List.getElem?_eq_some_iff.mp hr).1]
    exact ⟨x, rfl, hkey.trans hk⟩
  · exact ⟨r', hr', hk⟩

/-- The apply that counts for an agent and a link id is one of them. -/
private theorem applyKey_of_lastIdx {c : Controller F} (hI : ApplyInv c) {i : ℕ} {r : Request}
    (hr : c.requests[i]? = some r) {agent id : String} (hlast : c.lastIdx agent id = some i) :
    ∃ sid, Controller.applyKey r = some (agent, sid, id) := by
  obtain ⟨sid, -, hkey⟩ := Option.bind_eq_some_iff.mp hlast
  obtain ⟨r', hr', hk⟩ := hI.key _ i hkey
  obtain rfl := Option.some.inj (hr.symm.trans hr')
  exact ⟨sid, hk⟩

private theorem failedLast_of_lastIdx {c : Controller F} {i : ℕ} {r : Request}
    (hr : c.requests[i]? = some r) {agent id : String} (hlast : c.lastIdx agent id = some i) :
    c.failedLast agent id = r.failure? := by
  unfold Controller.failedLast
  rw [hlast, Option.bind_some, hr, Option.bind_some]

/-- An operation that leaves costs and history, and moves one request on without touching how
    it failed. -/
private theorem applyInv_of_set {c c' : Controller F} (hI : ApplyInv c) {i : ℕ} {r x : Request}
    (hr : c.requests[i]? = some r) (hview : Controller.SameView Worker.costs c.app.workers c'.app.workers)
    (hset : c'.requests = c.requests.set i x) (hlast : c'.lastApply = c.lastApply)
    (hkey : Controller.applyKey x = Controller.applyKey r) (hfail : x.failure? = r.failure?) :
    ApplyInv c' := by
  refine applyInv_frame hI hview (fun k j hk => ?_) (fun agent id p hp => ?_)
  · rw [hset]
    exact key_set hI hr hkey (hlast ▸ hk)
  · have hidx : ∀ agent id, c'.lastIdx agent id = c.lastIdx agent id := fun agent id => by
      unfold Controller.lastIdx
      rw [session_eq_of_costs hview, hlast]
    rw [failedLast_set hr hset hidx] at hp
    split at hp
    · rename_i hi
      rw [failedLast_of_lastIdx hr hi, ← hfail]
      exact hp
    · exact hp

/-! ### Recording and forgetting a cost -/

/-- **Recording** a cost that did not fail last. -/
private theorem applyInv_record {c c' : Controller F} (hI : ApplyInv c) {agent : String}
    {link : LinkKey} {cost : ℕ}
    (hworkers : c'.app.workers = c.app.workers.setAppliedSent agent link cost)
    (hkey : ∀ k i, c'.lastApply k = some i →
      ∃ r, c'.requests[i]? = some r ∧ Controller.applyKey r = some k)
    (hfail : ∀ a id p, c'.failedLast a id = some p → c.failedLast a id = some p)
    (hne : (c.failedLast agent link.id).map Prod.fst ≠ some cost) : ApplyInv c' := by
  refine ⟨hkey, fun a id p hp w' hw' => ?_⟩
  have hp := hfail a id p hp
  rw [hworkers, WorkerRegistry.setAppliedSent, WorkerRegistry.worker_modify] at hw'
  split at hw'
  · rename_i ha
    subst ha
    obtain ⟨w, hw, rfl⟩ := Option.map_eq_some_iff.mp hw'
    obtain ⟨hsent, hretry⟩ := hI.forgotten a id p hp w hw
    show Map.get (Map.set _ link.id cost) id ≠ some p.1 ∧
      ∀ t, Map.get (Map.erase _ link.id) id = some t → _
    rw [Map.get_set, Map.get_erase]
    by_cases hid : id = link.id
    · subst hid
      rw [if_pos rfl, if_pos rfl]
      refine ⟨fun heq => hne ?_, fun t ht => absurd ht (by simp)⟩
      rw [hp, Option.map_some, heq]
    · rw [if_neg hid, if_neg hid]
      exact ⟨hsent, hretry⟩
  · exact hI.forgotten a id p hp w' hw'

/-- **Forgetting** a cost, not later than the failure that counts. -/
private theorem applyInv_note {c c' : Controller F} (hI : ApplyInv c) {agent : String}
    {link : LinkKey} {now : ℕ}
    (hworkers : c'.app.workers = c.app.workers.noteApplyFailed agent link now)
    (hkey : ∀ k i, c'.lastApply k = some i →
      ∃ r, c'.requests[i]? = some r ∧ Controller.applyKey r = some k)
    (hfail : ∀ a id p, c'.failedLast a id = some p →
      if a = agent ∧ id = link.id then now ≤ p.2 else c.failedLast a id = some p) :
    ApplyInv c' := by
  refine ⟨hkey, fun a id p hp w' hw' => ?_⟩
  have hp := hfail a id p hp
  rw [hworkers, WorkerRegistry.noteApplyFailed, WorkerRegistry.worker_modify] at hw'
  split at hw'
  · rename_i ha
    subst ha
    obtain ⟨w, hw, rfl⟩ := Option.map_eq_some_iff.mp hw'
    show Map.get (Map.erase _ link.id) id ≠ some p.1 ∧
      ∀ t, Map.get (Map.set _ link.id (now + applyRetrySecs)) id = some t → _
    rw [Map.get_set, Map.get_erase]
    -- the link itself is due again no later than the failure that counts allows
    by_cases hid : id = link.id
    · subst hid
      rw [if_pos ⟨rfl, rfl⟩] at hp
      rw [if_pos rfl, if_pos rfl]
      refine ⟨by simp, fun t ht => ?_⟩
      rw [← Option.some.inj ht]
      omega
    · rw [if_neg (fun h => hid h.2)] at hp
      rw [if_neg hid, if_neg hid]
      exact hI.forgotten a id p hp w hw
  · rename_i ha
    rw [if_neg (fun h => ha h.1)] at hp
    exact hI.forgotten a id p hp w' hw'

/-! ### The steps -/

variable {c : Controller F}

/-- **Registering** forgets every cost of the agent. -/
private theorem applyInv_register (hI : ApplyInv c) {h : ℕ} {req : RegisterReq} {own : Option ℕ} :
    ApplyInv (c.registerOn h req own) := by
  refine ⟨hI.key, fun agent id p hp w' hw' => ?_⟩
  have hp : c.failedLast agent id = some p := by
    have hs := WorkerRegistry.session_register c.app.workers req.agent req.links
      (Controller.ridOf req) (Controller.peerRidsOf req) req.loopback agent
    have hsame : (c.registerOn h req own).failedLast agent id = c.failedLast agent id := by
      unfold Controller.failedLast Controller.lastIdx
      show (Option.bind ((c.app.workers.register req.agent req.links (Controller.ridOf req)
        (Controller.peerRidsOf req) req.loopback).1.session agent) _).bind _ = _
      rw [hs]
      rfl
    exact hsame ▸ hp
  have hworker := WorkerRegistry.worker_register c.app.workers req.agent req.links
    (Controller.ridOf req) (Controller.peerRidsOf req) req.loopback agent
  have hw' : (c.app.workers.register req.agent req.links (Controller.ridOf req)
    (Controller.peerRidsOf req) req.loopback).1.worker agent = some w' := hw'
  rw [hworker] at hw'
  split at hw'
  · obtain rfl := Option.some.inj hw'
    exact ⟨by simp [WorkerRegistry.refreshed], fun t ht => absurd ht (by simp [WorkerRegistry.refreshed])⟩
  · obtain ⟨w, hw, rfl⟩ := Option.map_eq_some_iff.mp hw'
    exact hI.forgotten agent id p hp w hw

/-- **Attaching** a session whose failures are forgotten. -/
private theorem applyInv_attach (hI : ApplyInv c) {h : ℕ} {req : RegisterReq} {own : Option ℕ}
    (hok : (own.isSome ∧ own = (c.app.workers.entry req.agent).session.map Prod.fst) ∨
      c.TakeoverOk req.agent h) : ApplyInv (c.attachOn h req own) := by
  have hworker : ∀ a, (c.attachOn h req own).app.workers.worker a = _ :=
    fun a => WorkerRegistry.worker_attach c.app.workers req.agent h own a
  refine ⟨hI.key, fun agent id p hp w' hw' => ?_⟩
  obtain ⟨i, hidx, hp⟩ := Option.bind_eq_some_iff.mp hp
  obtain ⟨sid, hsid, hlast⟩ := Option.bind_eq_some_iff.mp hidx
  -- an agent whose entry is as it was
  have hsame : (c.attachOn h req own).app.workers.worker agent = c.app.workers.worker agent →
      w'.applied_sent.get id ≠ some p.1 ∧
        ∀ t, w'.apply_retry_at.get id = some t → t ≤ p.2 + applyRetrySecs := by
    intro heq
    rw [heq] at hw'
    refine hI.forgotten agent id p ?_ w' hw'
    refine Option.bind_eq_some_iff.mpr ⟨i, Option.bind_eq_some_iff.mpr ⟨sid, ?_, hlast⟩, hp⟩
    unfold WorkerRegistry.session at hsid ⊢
    rw [← heq]
    exact hsid
  by_cases ha : agent = req.agent
  · have hworker := hworker agent
    rw [if_pos ha] at hworker
    by_cases hnoop : own.isSome ∧ own = (c.app.workers.entry req.agent).session.map Prod.fst
    · refine hsame ?_
      rw [hworker, if_pos hnoop, ha]
      unfold WorkerRegistry.entry at hnoop ⊢
      cases hw : c.app.workers.worker req.agent with
      | none =>
        rw [hw] at hnoop
        have hnone : own = none := hnoop.2
        rw [hnone] at hnoop
        exact absurd hnoop.1 (by simp)
      | some w => rfl
    · -- the session takes over with the costs the agent's entry has
      rw [if_neg hnoop] at hworker
      have hsess : h = sid := by
        unfold WorkerRegistry.session at hsid
        rw [hworker] at hsid
        exact Option.some.inj hsid
      obtain ⟨r, hr, hfail⟩ := Option.bind_eq_some_iff.mp hp
      obtain ⟨r', hr', hkey⟩ := hI.key _ i hlast
      obtain rfl := Option.some.inj (hr'.symm.trans hr)
      have hlt : i < c.requests.length := (List.getElem?_eq_some_iff.mp hr).1
      obtain ⟨hsent, hretry⟩ := hok.resolve_left hnoop i hlt r' hr (agent, sid, id) hkey ha
        hsess.symm hlast (by rw [hfail]; rfl)
      rw [hworker] at hw'
      obtain rfl := Option.some.inj hw'
      refine ⟨fun heq => ?_, fun t ht => ?_⟩
      · exact absurd (hsent.symm.trans heq) (by simp)
      · exact absurd (hretry.symm.trans ht) (by simp)
  · exact hsame (by rw [hworker, if_neg ha])

/-- **Detaching** evicts the agent or leaves it. -/
private theorem applyInv_detach (hI : ApplyInv c) (h : ℕ) (identity : Option (String × ℕ)) :
    ApplyInv (c.detachOn h identity) := by
  cases identity with
  | none => exact applyInv_of_same hI (Controller.sameView_refl _ _) rfl rfl
  | some me =>
    have hworker : ∀ a, (c.detachOn h (some me)).app.workers.worker a = _ :=
      fun a => WorkerRegistry.worker_detach c.app.workers me.1 me.2 a
    refine ⟨hI.key, fun agent id p hp w' hw' => ?_⟩
    have heq : (c.detachOn h (some me)).app.workers.worker agent = c.app.workers.worker agent := by
      rw [hworker] at hw' ⊢
      split at hw'
      · exact absurd hw' (by simp)
      · rename_i hstay
        rw [if_neg hstay]
    refine hI.forgotten agent id p ?_ w' (heq ▸ hw')
    unfold Controller.failedLast Controller.lastIdx WorkerRegistry.session at hp ⊢
    rw [← heq]
    exact hp

/-- **Sending** an apply makes it the one that counts. -/
private theorem applyInv_send (hI : ApplyInv c) {i : ℕ} {r : Request}
    (hr : c.requests[i]? = some r) : ApplyInv (c.sendOn i r) := by
  have hlt : i < c.requests.length := (List.getElem?_eq_some_iff.mp hr).1
  have hself : (c.sendOn i r).requests[i]? = some { r with phase := .sent } := by
    show (c.requests.set i _)[i]? = _
    rw [List.getElem?_set_self hlt]
  have hlast : ∀ k j, (c.sendOn i r).lastApply k = some j →
      (j = i ∧ Controller.applyKey r = some k) ∨ c.lastApply k = some j := by
    intro k j hk
    rw [Controller.lastApply_sendOn] at hk
    cases hkey : Controller.applyKey r with
    | none =>
      rw [hkey] at hk
      exact Or.inr hk
    | some k₀ =>
      rw [hkey] at hk
      have hk : Function.update c.lastApply k₀ (some i) k = some j := hk
      by_cases heq : k = k₀
      · subst heq
        rw [Function.update_self] at hk
        exact Or.inl ⟨(Option.some.inj hk).symm, rfl⟩
      · rw [Function.update_of_ne heq] at hk
        exact Or.inr hk
  refine applyInv_frame hI (Controller.sameView_refl _ _) (fun k j hk => ?_) (fun agent id p hp => ?_)
  · rcases hlast k j hk with ⟨rfl, hkey⟩ | hold
    · exact ⟨_, hself, hkey⟩
    · exact key_set hI hr (x := { r with phase := .sent }) rfl hold
  · obtain ⟨j, hidx, hp⟩ := Option.bind_eq_some_iff.mp hp
    obtain ⟨sid, hsid, hk⟩ := Option.bind_eq_some_iff.mp hidx
    obtain ⟨r', hr', hfail⟩ := Option.bind_eq_some_iff.mp hp
    by_cases hj : j = i
    · -- what was just sent has not failed
      subst hj
      rw [hself] at hr'
      obtain rfl := Option.some.inj hr'
      exact absurd hfail (by simp [Request.failure?])
    · have hold := (hlast _ j hk).resolve_left (fun h => hj h.1)
      have hr' : (c.requests.set i _)[j]? = some r' := hr'
      rw [List.getElem?_set_ne (Ne.symm hj)] at hr'
      refine Option.bind_eq_some_iff.mpr ⟨j, Option.bind_eq_some_iff.mpr ⟨sid, hsid, hold⟩, ?_⟩
      exact Option.bind_eq_some_iff.mpr ⟨r', hr', hfail⟩

/-- **Settling** an apply: it is recorded when it was answered, and forgotten when it failed. -/
private theorem applyInv_settle (hI : ApplyInv c) {c' : Controller F} {i : ℕ} {r x : Request}
    {id : String} {link : LinkKey} {cost : ℕ} {tp : Option String}
    (hr : c.requests[i]? = some r) (hcmd : r.cmd = .applyCost id link cost tp)
    (hset : c'.requests = c.requests.set i x) (hlast : c'.lastApply = c.lastApply)
    (hkey : Controller.applyKey x = Controller.applyKey r)
    (hout : ((x.failure? = none ∨ x.failure? = r.failure?) ∧ c.RecordOk r ∧
        c'.app.workers = c.app.workers.setAppliedSent r.agent link cost) ∨
      ∃ now, x.failure? = some (cost, now) ∧ c.FailOk i r now ∧
        c'.app.workers = c.app.workers.noteApplyFailed r.agent link now) : ApplyInv c' := by
  have hkeys : ∀ k j, c'.lastApply k = some j →
      ∃ r, c'.requests[j]? = some r ∧ Controller.applyKey r = some k := by
    intro k j hk
    rw [hset]
    exact key_set hI hr hkey (hlast ▸ hk)
  rcases hout with ⟨hnone, hok, hworkers⟩ | ⟨now, hfail, hok, hworkers⟩
  · -- which apply counts is kept with the sessions, and the record does not touch them
    have hidx : ∀ a id, c'.lastIdx a id = c.lastIdx a id := fun a id => by
      unfold Controller.lastIdx
      rw [hworkers, WorkerRegistry.setAppliedSent, WorkerRegistry.session_modify, hlast]
      exact fun _ => rfl
    unfold Controller.RecordOk at hok
    rw [hcmd] at hok
    refine applyInv_record hI hworkers hkeys (fun a id p hp => ?_) hok
    rw [failedLast_set hr hset hidx] at hp
    split at hp
    · -- the one that counts is the settled one: it has not failed, or had failed before
      rename_i hi
      rcases hnone with hnone | hsame
      · rw [hnone] at hp
        exact absurd hp (by simp)
      · rw [failedLast_of_lastIdx hr hi, ← hsame]
        exact hp
    · exact hp
  · have hidx : ∀ a id, c'.lastIdx a id = c.lastIdx a id := fun a id => by
      unfold Controller.lastIdx
      rw [hworkers, WorkerRegistry.noteApplyFailed, WorkerRegistry.session_modify, hlast]
      exact fun _ => rfl
    unfold Controller.FailOk at hok
    rw [hcmd] at hok
    refine applyInv_note hI hworkers hkeys (fun a id p hp => ?_)
    rw [failedLast_set hr hset hidx] at hp
    split at hp
    · -- the failure that counts is this one
      rename_i hi
      obtain ⟨sid, hk⟩ := applyKey_of_lastIdx hI hr hi
      unfold Controller.applyKey at hk
      rw [hcmd] at hk
      obtain ⟨ha, hid⟩ := Prod.mk.inj (Option.some.inj hk)
      rw [if_pos ⟨ha.symm, (Prod.mk.inj hid).2.symm⟩]
      rw [hfail] at hp
      rw [← Option.some.inj hp]
    · rename_i hi
      split
      · -- no other failure counts for the link that is noted
        rename_i hself
        obtain ⟨rfl, rfl⟩ := hself
        exact (hok.resolve_left hi).1 p hp
      · exact hp

/-- **Beginning** a command adds a request behind those the history names. -/
private theorem applyInv_begin (hI : ApplyInv c) (agent : String) (sid : ℕ) (cmd : WorkCmd) :
    ApplyInv (c.claim agent sid cmd) := by
  rcases c.claim_cases agent sid cmd with heq | ⟨workers, heq, htracked⟩
  · rw [heq]
    exact applyInv_of_same hI (Controller.sameView_refl _ _) rfl rfl
  have hview : Controller.SameView Worker.costs c.app.workers workers := by
    rcases htracked with ⟨-, rfl⟩ | ⟨link, kind, w, -, -, -, rfl⟩
    · exact Controller.sameView_refl _ _
    · apply Controller.sameView_modify
      exact fun _ => rfl
  have hold : ∀ k i, c.lastApply k = some i → ∀ n : Request,
      (c.requests ++ [n])[i]? = c.requests[i]? := by
    intro k i hk n
    obtain ⟨r, hr, -⟩ := hI.key k i hk
    exact List.getElem?_append_left (List.getElem?_eq_some_iff.mp hr).1
  rw [heq]
  refine applyInv_frame hI hview (fun k i hk => ?_) (fun a id p hp => ?_)
  · obtain ⟨r, hr, hkey⟩ := hI.key k i hk
    exact ⟨r, (hold k i hk _).trans hr, hkey⟩
  · obtain ⟨i, hidx, hp⟩ := Option.bind_eq_some_iff.mp hp
    obtain ⟨sid', hsid, hlast⟩ := Option.bind_eq_some_iff.mp hidx
    have hs : workers.session a = some sid' := hsid
    rw [session_eq_of_costs hview] at hs
    obtain ⟨r, hr, hfail⟩ := Option.bind_eq_some_iff.mp hp
    refine Option.bind_eq_some_iff.mpr ⟨i, Option.bind_eq_some_iff.mpr ⟨sid', hs, hlast⟩, ?_⟩
    exact Option.bind_eq_some_iff.mpr ⟨r, (hold _ i hlast _).symm.trans hr, hfail⟩

/-- **Marking** a command as sent records the cost of an apply. -/
private theorem applyInv_mark (hI : ApplyInv c) {i : ℕ} {r : Request}
    (hr : c.requests[i]? = some r) (hok : c.RecordOk r) (now : ℕ) : ApplyInv (c.markOn i r now) := by
  have hworkers : (c.markOn i r now).app.workers =
      Controller.markSent c.app.workers r.agent r.cmd now := rfl
  cases hcmd : r.cmd with
  | applyCost id link cost tp =>
    rw [hcmd] at hworkers
    exact applyInv_settle hI hr hcmd rfl rfl rfl (Or.inl ⟨Or.inr rfl, hok, hworkers⟩)
  | probe id tier token link tp =>
    refine applyInv_of_set hI hr ?_ rfl rfl rfl rfl
    rw [hworkers, hcmd]
    apply Controller.sameView_modify
    exact fun _ => rfl
  | trace id target tp =>
    refine applyInv_of_set hI hr ?_ rfl rfl rfl rfl
    rw [hworkers, hcmd]
    exact Controller.sameView_refl _ _

/-- Only an apply fails with a cost. -/
private theorem failure_eq_of_cmd {r x : Request}
    (hne : ∀ id link cost tp, r.cmd ≠ .applyCost id link cost tp) (hx : x.cmd = r.cmd) : x.failure? = r.failure? := by
  unfold Request.failure?
  cases hcmd : r.cmd with
  | applyCost id link cost tp => exact absurd hcmd (hne _ _ _ _)
  | probe | trace => rw [hx, hcmd]; simp

/-- **A failure** on the way is the failure of an apply, and leaves other commands alone. -/
private theorem applyInv_fail (hI : ApplyInv c) {i now : ℕ} {r : Request}
    (hr : c.requests[i]? = some r) (hok : c.FailOk i r now) : ApplyInv (c.failOn i r now) := by
  have hworkers : (c.failOn i r now).app.workers = (onFailure c.app r.agent r.cmd now).workers := rfl
  cases hcmd : r.cmd with
  | applyCost id link cost tp =>
    rw [hcmd] at hworkers
    refine applyInv_settle hI hr hcmd rfl rfl rfl (Or.inr ⟨now, ?_, hok, hworkers⟩)
    unfold Request.failure?
    simp only [hcmd]
  | probe id tier token link tp =>
    refine applyInv_of_set hI hr ?_ rfl rfl rfl (by unfold Request.failure?; simp [hcmd])
    rw [hworkers, hcmd]
    cases tier <;> cases token <;> exact Controller.sameView_refl _ _
  | trace id target tp =>
    refine applyInv_of_set hI hr ?_ rfl rfl rfl (by unfold Request.failure?; simp [hcmd])
    rw [hworkers, hcmd]
    exact Controller.sameView_refl _ _

variable [LinearOrder F] [Zero F] [Add F]

/-- **A reply** settles an apply it echoes, with a note when the agent refused it. -/
private theorem applyInv_reply (hI : ApplyInv c) {i now : ℕ} {r : Request} {reply : AgentReply F}
    (hr : c.requests[i]? = some r) (hecho : Echoes r.agent r.cmd reply)
    (hok : if reply.phase now = .answered then c.RecordOk r else c.FailOk i r now) :
    ApplyInv (c.replyOn i r reply now) := by
  cases reply with
  -- a probe or a trace echoes no apply
  | probe p =>
    have hne : ∀ id link cost tp, r.cmd ≠ .applyCost id link cost tp := by
      intro id link cost tp hcmd
      rw [hcmd] at hecho
      exact hecho
    exact applyInv_of_set hI hr (Controller.sameView_refl _ _) rfl rfl rfl (failure_eq_of_cmd hne rfl)
  | trace agent id =>
    have hne : ∀ id link cost tp, r.cmd ≠ .applyCost id link cost tp := by
      intro id link cost tp hcmd
      rw [hcmd] at hecho
      exact hecho
    exact applyInv_of_set hI hr (Controller.sameView_refl _ _) rfl rfl rfl (failure_eq_of_cmd hne rfl)
  | applied agent id link cost note tp =>
    cases hcmd : r.cmd with
    | probe => rw [hcmd] at hecho; exact hecho.elim
    | trace => rw [hcmd] at hecho; exact hecho.elim
    | applyCost id' link' cost' tp' =>
      rw [hcmd] at hecho
      obtain ⟨rfl, -, rfl, rfl⟩ := hecho
      cases note with
      -- answered: recorded
      | none =>
        have hrec : c.RecordOk r := by simpa [AgentReply.phase] using hok
        exact applyInv_settle hI hr hcmd rfl rfl rfl (Or.inl ⟨Or.inl rfl, hrec, rfl⟩)
      -- refused by the agent: forgotten
      | some n =>
        have hfail : c.FailOk i r now := by simpa [AgentReply.phase] using hok
        refine applyInv_settle hI hr hcmd rfl rfl rfl (Or.inr ⟨now, ?_, hfail, rfl⟩)
        unfold Request.failure?
        simp only [AgentReply.phase, hcmd]

/-- **Step lemma.** Every operation that meets `ForgetsFailures` keeps the invariant. -/
theorem applyInv_step {c c' : Controller F} {e : Event F} (hI : ApplyInv c)
    (hok : ForgetsFailures c e) (hs : c.step e = some c') : ApplyInv c' := by
  have hlinks : ∀ (w : Worker) (lookup : String → Option String),
      Worker.costs { w with links := w.links.map (WorkerRegistry.named w lookup) } = w.costs :=
    fun _ _ => rfl
  cases Controller.moves_of_step hs with
  | opened | fetch | release | post =>
    exact applyInv_of_same hI (Controller.sameView_refl _ _) rfl rfl
  | register => exact applyInv_register hI
  | sync | rename => exact applyInv_of_same hI (Controller.sameView_resolvePeers hlinks _ _) rfl rfl
  | attach hx => exact applyInv_attach hI (hok _ hx _ rfl)
  | detach => exact applyInv_detach hI _ _
  | begin => exact applyInv_begin hI _ _ _
  | send hr => exact applyInv_send hI hr
  | mark hr => exact applyInv_mark hI hr (hok _ hr) _
  | reply hr hphase hecho => exact applyInv_reply hI hr hecho (hok _ hr)
  | fail hr => exact applyInv_fail hI hr (hok _ hr)
  | @finish i r hr =>
    exact applyInv_of_set hI hr (Controller.sameView_finishOn (fun _ _ => rfl) c i r) rfl rfl rfl rfl
  | acquire =>
    obtain ⟨leases, heq, -⟩ := c.acquireFor_cases _ _ _ _
    rw [heq]
    exact applyInv_of_same hI (Controller.sameView_refl _ _) rfl rfl

/-! ### Runs -/

omit [LinearOrder F] [Zero F] [Add F] in
private theorem applyInv_init (tsdb : Tsdb F) : ApplyInv (Controller.init tsdb) :=
  ⟨fun _ _ h => absurd (show none = some _ from h) (by simp),
    fun _ _ p hp => absurd (show none = some p from hp) (by simp)⟩

omit [LinearOrder F] [Zero F] [Add F] in
/-- Forgetting a cost where none is remembered, as a failure on a replaced session may. -/
private theorem stale_keeps {c : Controller F} (hI : ApplyInv c) {i : ℕ} {r : Request}
    (hr : c.requests[i]? = some r) (hstale : c.app.workers.session r.agent ≠ some r.session)
    {id : String} {link : LinkKey} {cost : ℕ} {tp : Option String}
    (hcmd : r.cmd = .applyCost id link cost tp) {now : ℕ} (hok : c.FailOk i r now) (l : LinkKey) :
    (c.app.workers.noteApplyFailed r.agent link now).appliedSent r.agent l =
      c.app.workers.appliedSent r.agent l := by
  -- in both cases there is no cost to forget
  unfold Controller.FailOk at hok
  rw [hcmd] at hok
  have hnone : c.app.workers.appliedSent r.agent link = none := by
    rcases hok with hlast | ⟨-, hnone⟩
    · -- the apply that counts was sent on the live session
      obtain ⟨sid, hsid, hkey⟩ := Option.bind_eq_some_iff.mp hlast
      obtain ⟨r', hr', hk⟩ := hI.key _ i hkey
      obtain rfl := Option.some.inj (hr.symm.trans hr')
      unfold Controller.applyKey at hk
      rw [hcmd] at hk
      have hsess := (Prod.mk.inj (Prod.mk.inj (Option.some.inj hk)).2).1
      exact absurd (hsid.trans (congrArg some hsess.symm)) hstale
    · exact hnone hstale
  unfold WorkerRegistry.appliedSent at hnone ⊢
  rw [WorkerRegistry.noteApplyFailed, WorkerRegistry.worker_modify, if_pos rfl]
  cases hw : c.app.workers.worker r.agent with
  | none => rfl
  | some w =>
    rw [hw] at hnone
    show Map.get (Map.erase _ link.id) l.id = w.applied_sent.get l.id
    rw [Map.get_erase]
    split
    · rename_i hl
      rw [hl]
      exact hnone.symm
    · rfl

omit [LinearOrder F] [Zero F] [Add F] in
/-- The event is the failure of an apply sent on a session that has been replaced since. -/
def Controller.StaleFailure (c : Controller F) (r : Request) : Event F → Prop
  | .fail i _ => c.requests[i]? = some r ∧ c.app.workers.session r.agent ≠ some r.session
  | .reply i reply now => c.requests[i]? = some r ∧
      c.app.workers.session r.agent ≠ some r.session ∧ reply.phase now = .failed now
  | _ => False

/-- **A failed apply is forgotten and retried.** In every run that meets `ForgetsFailures`: when
    the apply sent last on the live session for a link has failed, its cost is not remembered,
    and is due once the retry time has passed; and the failure of an apply on a session that
    has been replaced leaves the costs remembered. -/
theorem failed_apply_forgotten {tsdb : Tsdb F} {c : Controller F}
    (h : Runs Controller.step ForgetsFailures (Controller.init tsdb) c) :
    (∀ agent link cost t, c.failedLast agent link.id = some (cost, t) →
      c.app.workers.appliedSent agent link ≠ some cost ∧
        ∀ now, t + applyRetrySecs ≤ now → c.app.workers.applyDue agent link cost now = true) ∧
    ∀ e c' r, ForgetsFailures c e → c.step e = some c' → c.StaleFailure r e →
      ∀ link, c'.app.workers.appliedSent r.agent link = c.app.workers.appliedSent r.agent link := by
  have hI : ApplyInv c :=
    h.invariant (applyInv_init tsdb) (fun _ _ _ hI hok hs => applyInv_step hI hok hs)
  constructor
  · intro agent link cost t hfail
    obtain ⟨i, hidx, -⟩ := Option.bind_eq_some_iff.mp hfail
    obtain ⟨sid, hsid, -⟩ := Option.bind_eq_some_iff.mp hidx
    obtain ⟨w, hw, -⟩ := Option.bind_eq_some_iff.mp hsid
    obtain ⟨hsent, hretry⟩ := hI.forgotten agent link.id (cost, t) hfail w hw
    refine ⟨?_, fun now hnow => ?_⟩
    · unfold WorkerRegistry.appliedSent
      rw [hw]
      exact hsent
    · unfold WorkerRegistry.applyDue
      rw [hw]
      dsimp only
      rw [decide_eq_true_eq]
      exact ⟨hsent, fun t' ht' => (hretry t' ht').trans hnow⟩
  · intro e c' r hok hs hstale link
    cases Controller.moves_of_step hs with
    | @fail i now r' hr' =>
      obtain ⟨hr, hold⟩ := hstale
      obtain rfl := Option.some.inj (hr'.symm.trans hr)
      show (onFailure c.app r'.agent r'.cmd now).workers.appliedSent _ _ = _
      cases hcmd : r'.cmd with
      | applyCost id l cost tp => exact stale_keeps hI hr hold hcmd (hok r' hr) link
      | probe id tier token l tp => cases tier <;> cases token <;> rfl
      | trace id target tp => rfl
    | @reply i now r' reply hr' hphase hecho =>
      obtain ⟨hr, hold, hfailed⟩ := hstale
      obtain rfl := Option.some.inj (hr'.symm.trans hr)
      have hset := hok r' hr
      rw [hfailed, if_neg (by simp)] at hset
      cases reply with
      | probe p => exact absurd hfailed (by simp [AgentReply.phase])
      | trace agent id => exact absurd hfailed (by simp [AgentReply.phase])
      | applied agent id l cost note tp =>
        cases hcmd : r'.cmd with
        | probe => rw [hcmd] at hecho; exact hecho.elim
        | trace => rw [hcmd] at hecho; exact hecho.elim
        | applyCost id' l' cost' tp' =>
          rw [hcmd] at hecho
          obtain ⟨rfl, -, rfl, rfl⟩ := hecho
          cases note with
          | none => exact absurd hfailed (by simp [AgentReply.phase])
          | some n => exact stale_keeps hI hr hold hcmd hset link
    -- no other operation is the failure of an apply
    | opened | register | sync | attach | detach | rename | fetch | begin | send | mark | finish
    | acquire | release | post => exact hstale.elim

/-! ### A failure that is faster than the bookkeeping -/

/-- The link of the runs below. -/
private def costedLink : LinkKey := ⟨"spoke-1", "hub-a", "awg0"⟩

/-- A session that registers the agent, and a cost sent on it. -/
private def costSent : List (Event ℕ) :=
  [.open, .register 0 ⟨"spoke-1", none, [costedLink], [], none⟩, .sync 0 (fun _ => none), .attach 0,
    .fetch "spoke-1", .begin "spoke-1" 0 (.applyCost "a1" costedLink 20 none), .send 0]

/-- A failure after the bookkeeping is forgotten. -/
theorem failed_apply_forgotten_once : ∃ c : Controller ℕ,
    c.failedLast "spoke-1" costedLink.id = some (20, 60) ∧
      c.app.workers.appliedSent "spoke-1" costedLink ≠ some 20 := by
  have hrun : exec Controller.step ForgetsFailures (Controller.init (Tsdb.new ⟨"", 7200, 86400⟩))
      (costSent ++ [.mark 0 60, .fail 0 60]) = some _ := rfl
  have hruns := Runs.of_exec _ hrun
  exact ⟨_, rfl, ((failed_apply_forgotten hruns).1 "spoke-1" costedLink 20 60 rfl).1⟩

/-- **A failure that is remembered as sent.** The apply fails before its dispatcher has
    recorded it: the cost is remembered, and never due again. -/
theorem late_mark_remembers_failure : ∃ c : Controller ℕ,
    Runs Controller.step Always (Controller.init (Tsdb.new ⟨"", 7200, 86400⟩)) c ∧
      (∀ x ∈ c.handlers, x.pending? = none) ∧ (∀ r ∈ c.requests, r.marked ∧ r.ended) ∧
      c.failedLast "spoke-1" costedLink.id = some (20, 60) ∧
      c.app.workers.appliedSent "spoke-1" costedLink = some 20 ∧
      ∀ now, c.app.workers.applyDue "spoke-1" costedLink 20 now = false := by
  have hrun : exec Controller.step Always (Controller.init (Tsdb.new ⟨"", 7200, 86400⟩))
      (costSent ++ [.fail 0 60, .mark 0 60, .finish 0]) = some _ := rfl
  have hruns := Runs.of_exec _ hrun
  refine ⟨_, hruns, by decide, by decide, rfl, rfl, fun now => ?_⟩
  exact WorkerRegistry.applyDue_of_appliedSent rfl now

end Mielofon
