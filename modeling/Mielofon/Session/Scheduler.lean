import Mielofon.Classifier.Quality
import Mielofon.Kv
import Mielofon.Session.Controller

namespace Mielofon

open Lib

/-!
# The scheduler

On every tick the scheduler goes through the owned links (`scheduler.rs`).  For each it issues the
always probe that is due, the throughput test that is due and gets the lease, and the cost that
differs from what the agent was sent.  A throughput test that the passive tier has made superfluous
ends the turn of the link, before its cost is looked at.

The tasks a dispatch spawns run on their own; a tick is what the scheduler itself does.  Ids,
tokens, trace contexts and the clock of the fence are drawn from outside.

* `Tick`, `dispatch` — what a tick works on, and the claim of a slot with the task it spawns;
* `passiveProof`, `alwaysLeg`, `throughputLeg`, `applyLeg`, `planTick` — the tick, leg by leg;
* `LinkView`, `Touches` — what the registry has of one link, and what a leg may do to it;
* `LinkView.Settled` — the cost was sent, is under way, or waits for a retry;
* `planTick_settles` — the links a tick leaves with an unsettled cost.
-/

/-- The cadences of the scheduler. -/
structure SchedulerCfg where
  always_interval_secs : ℕ
  throughput_interval_secs : ℕ
deriving DecidableEq, Repr

/-- What the turn of a link draws from outside: the id and the trace context of every command, the
    token of a lease and the time of the fence. -/
structure Draws where
  cmd_id : Kind → String
  traceparent : Kind → Option String
  token : String
  fence_now : ℕ

/-- What a tick works on: the registry, the fence, the tasks of the commands it dispatched and the
    number of tests skipped for a passive proof. -/
structure Tick where
  workers : WorkerRegistry
  fence : Fence
  requests : List Request
  skipped : ℕ

/-- All (agent, link) pairs owned by registered agents. -/
def WorkerRegistry.ownedLinks (r : WorkerRegistry) : List (String × LinkKey) :=
  r.inner.pairs.flatMap (fun e => e.2.links.map (fun l => (e.1, l)))

variable {F : Type*}

/-- Whether the passive tier already proved the link good: the measured rate reaches the good
    class, and neither the loss nor a carried test result is below it. -/
def passiveProof [LinearOrder F] (quality : QualityCfg F) (kv : LwwStore F) (link : LinkKey) : Bool :=
  match quality.good.tcp_mbps, kv.get link with
  | some good, some rec =>
    rec.mark_rate_mbps.any (good ≤ ·) && rec.implied_tcp_mbps.all (good ≤ ·) &&
      rec.tcp_mbps.all (good ≤ ·)
  | _, _ => false

/-- The cost the classifier derived for a link. -/
def derivedCost (kv : LwwStore F) (link : LinkKey) : Option ℕ :=
  (kv.get link).bind QualityRecord.ospf_cost

namespace Tick

/-- Dispatch a command to an agent on its session: claim the slot and spawn the task.  False when
    the agent has no session or a command of that kind is already outstanding on the link. -/
def dispatch (t : Tick) (agent : String) (cmd : WorkCmd) : Tick × Bool :=
  match t.workers.session agent with
  | none => (t, false)
  | some sid =>
    let requests := t.requests ++ [⟨agent, sid, cmd, .begun, false, false⟩]
    match trackKey cmd with
    | none => ({ t with requests }, true)
    | some (link, kind) =>
      let res := t.workers.beginCmd agent link kind
      if res.2 then ({ t with workers := res.1, requests }, true) else (t, false)

/-- The always probe, on a fixed cadence. -/
def alwaysLeg (cfg : SchedulerCfg) (now : ℕ) (d : Draws) (agent : String) (link : LinkKey)
    (t : Tick) : Tick :=
  if t.workers.probeDue agent link .always now (max cfg.always_interval_secs 1) then
    match t.dispatch agent (.probe (d.cmd_id .always) .always none link (d.traceparent .always)) with
    | (t, true) => { t with workers := t.workers.markIssued agent link .always now }
    | (t, false) => t
  else t

/-- The throughput test, under a lease.  True when the turn of the link ends here. -/
def throughputLeg [LinearOrder F] (quality : QualityCfg F) (cfg : SchedulerCfg) (kv : LwwStore F)
    (now : ℕ) (d : Draws) (agent : String) (link : LinkKey) (t : Tick) : Tick × Bool :=
  if t.workers.probeDue agent link .throughput now (max cfg.throughput_interval_secs 1) then
    if passiveProof quality kv link then
      -- skip this round and look again after the interval
      ({ t with
          workers := t.workers.markIssued agent link .throughput now
          skipped := t.skipped + 1 }, true)
    else
      match t.fence.acquire agent link fenceTtlSecs d.fence_now d.token with
      | (fence, .ok lease) =>
        match dispatch { t with fence } agent (.probe (d.cmd_id .throughput) .throughput
          (some lease.token) link (d.traceparent .throughput)) with
        | (t, true) =>
          ({ t with workers := t.workers.markIssued agent link .throughput now }, false)
        | (t, false) => ({ t with fence := (t.fence.release link.id lease.token).1 }, false)
      | (fence, .error _) => ({ t with fence }, false)
  else (t, false)

/-- Apply the derived cost when it differs from what was sent. -/
def applyLeg (kv : LwwStore F) (now : ℕ) (d : Draws) (agent : String) (link : LinkKey)
    (t : Tick) : Tick :=
  match derivedCost kv link with
  | none => t
  | some cost =>
    if t.workers.applyDue agent link cost now then
      match t.dispatch agent (.applyCost (d.cmd_id .apply) link cost (d.traceparent .apply)) with
      | (t, true) => { t with workers := t.workers.setAppliedSent agent link cost }
      | (t, false) => t
    else t

/-- The turn of a link. -/
def planLink [LinearOrder F] (quality : QualityCfg F) (cfg : SchedulerCfg) (kv : LwwStore F)
    (now : ℕ) (d : Draws) (agent : String) (link : LinkKey) (t : Tick) : Tick :=
  match throughputLeg quality cfg kv now d agent link (alwaysLeg cfg now d agent link t) with
  | (t, true) => t
  | (t, false) => applyLeg kv now d agent link t

/-- A tick: the turns of the owned links, in the order the registry lists them. -/
def planTick [LinearOrder F] (quality : QualityCfg F) (cfg : SchedulerCfg) (kv : LwwStore F)
    (now : ℕ) (draws : ℕ → Draws) (owned : List (String × LinkKey)) (t : Tick) : Tick :=
  owned.zipIdx.foldl (fun t p => planLink quality cfg kv now (draws p.2) p.1.1 p.1.2 t) t

end Tick

/-! ### What the registry has of one link -/

/-- What the registry has of one link of an agent; `live` says that the agent has a session. -/
structure LinkView where
  live : Bool
  applied_sent : Option ℕ
  retry_at : Option ℕ
  issued : Tier → Option ℕ
  in_flight : Kind → Bool

/-- The view of a link id in the state of its agent. -/
def Worker.view (w : Worker) (id : String) : LinkView :=
  ⟨w.session.isSome, w.applied_sent.get id, w.apply_retry_at.get id,
    fun tier => w.last_issue.get (id, tier), fun kind => decide ((id, kind) ∈ w.in_flight)⟩

namespace LinkView

/-- A probe of the tier is due. -/
def due (v : LinkView) (tier : Tier) (now interval : ℕ) : Bool :=
  match v.issued tier with
  | some t => interval ≤ now - t
  | none => true

/-- **Nothing is owed.** The cost was sent, an apply is outstanding, or one that failed is still in
    its retry back-off. -/
def Settled (v : LinkView) (cost now : ℕ) : Prop :=
  v.applied_sent = some cost ∨ v.in_flight .apply = true ∨ ∃ t, v.retry_at = some t ∧ now < t

/-- What a tick may do to a link: issue probes, and send a cost, which is then outstanding. -/
structure Turn (now : ℕ) (v v' : LinkView) : Prop where
  live : v'.live = v.live
  issued : ∀ tier, v'.issued tier = v.issued tier ∨ v'.issued tier = some now
  costs : (v'.applied_sent = v.applied_sent ∧ v'.retry_at = v.retry_at ∧
    v'.in_flight .apply = v.in_flight .apply) ∨ v'.in_flight .apply = true

variable {now : ℕ} {v v' v'' : LinkView}

theorem Turn.refl (v : LinkView) : Turn now v v := ⟨rfl, fun _ => Or.inl rfl, Or.inl ⟨rfl, rfl, rfl⟩⟩

theorem Turn.trans (h : Turn now v v') (h' : Turn now v' v'') : Turn now v v'' := by
  refine ⟨h'.live.trans h.live, fun tier => ?_, ?_⟩
  · rcases h'.issued tier with heq | heq
    · rw [heq]
      exact h.issued tier
    · exact Or.inr heq
  · -- an apply that is outstanding stays so for the rest of the tick
    rcases h'.costs with ⟨hsent, hretry, hflight⟩ | hflight
    · rw [hsent, hretry, hflight]
      exact h.costs
    · exact Or.inr hflight

/-- A probe is issued: it takes its slot, and the time is noted. -/
def probed (v : LinkView) (kind : Kind) (tier : Tier) (now : ℕ) : LinkView :=
  { v with
    in_flight := Function.update v.in_flight kind true
    issued := Function.update v.issued tier (some now) }

/-- Noting a time leaves the costs alone. -/
theorem turn_issued (v : LinkView) (tier : Tier) (now : ℕ) :
    v.Turn now { v with issued := Function.update v.issued tier (some now) } := by
  refine ⟨rfl, fun tier' => ?_, Or.inl ⟨rfl, rfl, rfl⟩⟩
  by_cases ht : tier' = tier
  · rw [ht]
    exact Or.inr (Function.update_self _ _ _)
  · exact Or.inl (Function.update_of_ne ht _ _)

theorem turn_probed (v : LinkView) {kind : Kind} (hkind : kind ≠ .apply) (tier : Tier) (now : ℕ) :
    v.Turn now (v.probed kind tier now) :=
  ⟨rfl, (turn_issued v tier now).issued,
    Or.inl ⟨rfl, rfl, Function.update_of_ne hkind.symm _ _⟩⟩

/-- A cost is sent. -/
def applied (v : LinkView) (cost : ℕ) : LinkView :=
  { v with
    in_flight := Function.update v.in_flight .apply true
    applied_sent := some cost
    retry_at := none }

theorem turn_applied (v : LinkView) (cost now : ℕ) : v.Turn now (v.applied cost) :=
  ⟨rfl, fun _ => Or.inl rfl, Or.inr (by simp [applied])⟩

/-- What is settled stays settled. -/
theorem Turn.settled (h : Turn now v v') {cost : ℕ} (hv : v.Settled cost now) :
    v'.Settled cost now := by
  rcases h.costs with ⟨hsent, hretry, hflight⟩ | hflight
  · unfold Settled
    rw [hsent, hretry, hflight]
    exact hv
  · exact Or.inr (Or.inl hflight)

/-- A probe whose time has just been noted is not due. -/
theorem due_issued (v : LinkView) (tier : Tier) (now : ℕ) {interval : ℕ} (hpos : 0 < interval) :
    LinkView.due { v with issued := Function.update v.issued tier (some now) } tier now interval =
      false := by
  unfold LinkView.due
  dsimp only
  rw [Function.update_self, decide_eq_false_iff_not]
  omega

/-- A probe that was not due is not due later in the tick. -/
theorem Turn.due (h : Turn now v v') {tier : Tier} {interval : ℕ} (hpos : 0 < interval)
    (hv : v.due tier now interval = false) : v'.due tier now interval = false := by
  unfold LinkView.due at *
  rcases h.issued tier with heq | heq
  · rw [heq]
    exact hv
  · rw [heq]
    show decide (interval ≤ now - now) = false
    rw [decide_eq_false_iff_not]
    omega

end LinkView

namespace WorkerRegistry

/-- The view of a link id of an agent. -/
def view (r : WorkerRegistry) (agent id : String) : Option LinkView :=
  (r.worker agent).map (·.view id)

variable {r : WorkerRegistry} {agent a id : String} {link : LinkKey}

/-- An update of what an agent has of one link id. -/
theorem view_modify {f : Worker → Worker} {g : LinkView → LinkView} {id : String}
    (hf : ∀ w i, (f w).view i = if i = id then g (w.view i) else w.view i) (r : WorkerRegistry)
    (agent a i : String) : (r.modify agent f).view a i =
      if a = agent ∧ i = id then (r.view a i).map g else r.view a i := by
  unfold view
  rw [worker_modify]
  by_cases ha : a = agent
  · rw [if_pos ha, Option.map_map, Option.map_map]
    by_cases hi : i = id
    · rw [if_pos ⟨ha, hi⟩]
      exact congrArg (Option.map · _) (funext fun w => (hf w i).trans (if_pos hi))
    · rw [if_neg (fun hc => hi hc.2)]
      exact congrArg (Option.map · _) (funext fun w => (hf w i).trans (if_neg hi))
  · rw [if_neg ha, if_neg (fun hc => ha hc.1)]

theorem view_markIssued (r : WorkerRegistry) (agent : String) (link : LinkKey) (tier : Tier)
    (now : ℕ) (a i : String) : (r.markIssued agent link tier now).view a i =
      if a = agent ∧ i = link.id then
        (r.view a i).map (fun v => { v with issued := Function.update v.issued tier (some now) })
      else r.view a i := by
  refine view_modify (fun w i => ?_) r agent a i
  unfold Worker.view
  dsimp only
  split
  · rename_i hi
    subst hi
    rw [LinkView.mk.injEq]
    refine ⟨rfl, rfl, rfl, funext fun tier' => ?_, rfl⟩
    rw [Map.get_set, Function.update_apply]
    by_cases ht : tier' = tier
    · rw [if_pos (by rw [ht]), if_pos ht]
    · rw [if_neg (fun hc => ht (Prod.mk.inj hc).2), if_neg ht]
  · rename_i hi
    rw [LinkView.mk.injEq]
    refine ⟨rfl, rfl, rfl, funext fun tier' => ?_, rfl⟩
    rw [Map.get_set, if_neg (fun hc => hi (Prod.mk.inj hc).1)]

theorem view_setAppliedSent (r : WorkerRegistry) (agent : String) (link : LinkKey) (cost : ℕ)
    (a i : String) : (r.setAppliedSent agent link cost).view a i =
      if a = agent ∧ i = link.id then
        (r.view a i).map (fun v => { v with applied_sent := some cost, retry_at := none })
      else r.view a i := by
  refine view_modify (fun w i => ?_) r agent a i
  unfold Worker.view
  dsimp only
  rw [Map.get_set, Map.get_erase]
  split <;> rfl

theorem view_begun (r : WorkerRegistry) (agent : String) (link : LinkKey) (kind : Kind)
    (a i : String) :
    (r.modify agent (fun w => { w with in_flight := insert (link.id, kind) w.in_flight })).view a i =
      if a = agent ∧ i = link.id then
        (r.view a i).map (fun v => { v with in_flight := Function.update v.in_flight kind true })
      else r.view a i := by
  refine view_modify (fun w i => ?_) r agent a i
  unfold Worker.view
  dsimp only
  split
  · rename_i hi
    subst hi
    rw [LinkView.mk.injEq]
    refine ⟨rfl, rfl, rfl, rfl, funext fun kind' => ?_⟩
    rw [Function.update_apply]
    by_cases hk : kind' = kind
    · simp [hk]
    · simp [hk]
  · rename_i hi
    rw [LinkView.mk.injEq]
    refine ⟨rfl, rfl, rfl, rfl, funext fun kind' => ?_⟩
    simp [hi]

/-- Whether a probe is due is read off the view. -/
theorem probeDue_eq (r : WorkerRegistry) (agent : String) (link : LinkKey) (tier : Tier)
    (now interval : ℕ) : r.probeDue agent link tier now interval =
      ((r.view agent link.id).map (·.due tier now interval)).getD false := by
  unfold probeDue view
  rw [Option.map_map]
  rfl

/-- A cost is due exactly when it was not sent and no back-off is running. -/
theorem applyDue_iff {v : LinkView} (hv : r.view agent link.id = some v) (cost now : ℕ) :
    r.applyDue agent link cost now = true ↔
      v.applied_sent ≠ some cost ∧ ∀ t ∈ v.retry_at, t ≤ now := by
  obtain ⟨w, hw, rfl⟩ := Option.map_eq_some_iff.mp hv
  unfold applyDue
  rw [hw]
  exact decide_eq_true_iff

/-- An agent with a session has live links. -/
theorem view_of_session {sid : ℕ} (h : r.session agent = some sid) (i : String) :
    ∃ v, r.view agent i = some v ∧ v.live = true := by
  obtain ⟨w, hw, hs⟩ := Option.bind_eq_some_iff.mp h
  obtain ⟨x, hx, -⟩ := Option.map_eq_some_iff.mp hs
  refine ⟨w.view i, by rw [view, hw]; rfl, ?_⟩
  show w.session.isSome = true
  rw [hx]
  rfl

end WorkerRegistry

/-! ### The legs -/

namespace Tick

variable {t t' t'' : Tick} {agent : String} {link : LinkKey} {id : String} {now : ℕ}

/-- What a leg does to the registry: it turns one link of one agent. -/
structure Touches (agent id : String) (now : ℕ) (t t' : Tick) : Prop where
  others : ∀ a i, ¬ (a = agent ∧ i = id) → t'.workers.view a i = t.workers.view a i
  own : ∀ v, t.workers.view agent id = some v → ∃ v', t'.workers.view agent id = some v' ∧ v.Turn now v'

theorem Touches.of_workers (agent id : String) (now : ℕ) (h : t'.workers = t.workers) :
    Touches agent id now t t' :=
  ⟨fun _ _ _ => by rw [h], fun v hv => ⟨v, by rw [h, hv], .refl v⟩⟩

theorem Touches.refl (agent id : String) (now : ℕ) (t : Tick) : Touches agent id now t t :=
  .of_workers agent id now rfl

theorem Touches.trans (h : Touches agent id now t t') (h' : Touches agent id now t' t'') :
    Touches agent id now t t'' := by
  refine ⟨fun a i hne => (h'.others a i hne).trans (h.others a i hne), fun v hv => ?_⟩
  obtain ⟨v', hv', hturn⟩ := h.own v hv
  obtain ⟨v'', hv'', hturn'⟩ := h'.own v' hv'
  exact ⟨v'', hv'', hturn.trans hturn'⟩

/-- A leg that updates the view of its link. -/
theorem Touches.of_view {g : LinkView → LinkView} (hg : ∀ v : LinkView, v.Turn now (g v))
    (h : ∀ a i, t'.workers.view a i = if a = agent ∧ i = id then (t.workers.view a i).map g else t.workers.view a i) :
    Touches agent id now t t' := by
  refine ⟨fun a i hne => (h a i).trans (if_neg hne), fun v hv => ⟨g v, ?_, hg v⟩⟩
  rw [h, if_pos ⟨rfl, rfl⟩, hv]
  rfl

/-- Every link in the registry is turned, whichever a leg is about. -/
theorem Touches.turn (h : Touches agent id now t t') {a i : String} {v : LinkView}
    (hv : t.workers.view a i = some v) : ∃ v', t'.workers.view a i = some v' ∧ v.Turn now v' := by
  by_cases hai : a = agent ∧ i = id
  · obtain ⟨rfl, rfl⟩ := hai
    exact h.own v hv
  · exact ⟨v, (h.others a i hai).trans hv, .refl v⟩

/-- **A dispatch** goes out exactly when the slot of a live link is free, and then takes it. -/
theorem dispatch_spec (t : Tick) (agent : String) (cmd : WorkCmd) {link : LinkKey} {kind : Kind}
    (hkey : trackKey cmd = some (link, kind)) :
    ((t.dispatch agent cmd).2 = true ∧ ∀ a i, (t.dispatch agent cmd).1.workers.view a i =
      if a = agent ∧ i = link.id then
        (t.workers.view a i).map (fun v => { v with in_flight := Function.update v.in_flight kind true })
      else t.workers.view a i) ∨
    (t.dispatch agent cmd = (t, false) ∧
      ∀ v, t.workers.view agent link.id = some v → v.live = true → v.in_flight kind = true) := by
  unfold dispatch
  cases hs : t.workers.session agent with
  | none =>
    -- no session: the link is not live
    refine Or.inr ⟨rfl, fun v hv hlive => ?_⟩
    obtain ⟨w, hw, rfl⟩ := Option.map_eq_some_iff.mp hv
    obtain ⟨x, hx⟩ := Option.isSome_iff_exists.mp hlive
    simp [WorkerRegistry.session, hw, hx] at hs
  | some sid =>
    rw [hkey]
    dsimp only
    by_cases hfree : (t.workers.beginCmd agent link kind).2 = true
    · rw [if_pos hfree, WorkerRegistry.beginCmd_eq_modify hfree]
      exact Or.inl ⟨rfl, WorkerRegistry.view_begun t.workers agent link kind⟩
    · rw [if_neg hfree]
      refine Or.inr ⟨rfl, fun v hv _ => ?_⟩
      obtain ⟨w, hw, rfl⟩ := Option.map_eq_some_iff.mp hv
      rw [WorkerRegistry.beginCmd_eq_true_iff] at hfree
      show decide ((link.id, kind) ∈ w.in_flight) = true
      rw [decide_eq_true_eq]
      by_contra hnot
      exact hfree ⟨w, hw, hnot⟩

/-- A dispatch is the claim of the controller, on the session of the agent. -/
theorem dispatch_claim (c : Controller F) (skipped : ℕ) {agent : String} {sid : ℕ}
    (hsession : c.app.workers.session agent = some sid) (cmd : WorkCmd) :
    let sent := (dispatch ⟨c.app.workers, c.app.fence, c.requests, skipped⟩ agent cmd).1
    sent.workers = (c.claim agent sid cmd).app.workers ∧
      sent.requests = (c.claim agent sid cmd).requests := by
  unfold dispatch Controller.claim
  rw [hsession]
  dsimp only
  cases trackKey cmd with
  | none => exact ⟨rfl, rfl⟩
  | some lk =>
    dsimp only
    split
    · exact ⟨rfl, rfl⟩
    · exact ⟨rfl, rfl⟩

/-- A probe that went out, with its time noted. -/
theorem view_issued {t t' : Tick} {kind : Kind} (h : ∀ a i, t'.workers.view a i =
      if a = agent ∧ i = link.id then
        (t.workers.view a i).map (fun v => { v with in_flight := Function.update v.in_flight kind true })
      else t.workers.view a i) (tier : Tier) (now : ℕ) (a i : String) :
    (t'.workers.markIssued agent link tier now).view a i = if a = agent ∧ i = link.id then
      (t.workers.view a i).map (·.probed kind tier now) else t.workers.view a i := by
  rw [WorkerRegistry.view_markIssued]
  have hview := h a i
  split at hview
  · rename_i hai
    rw [if_pos hai, if_pos hai, hview, Option.map_map]
    rfl
  · rename_i hai
    rw [if_neg hai, if_neg hai]
    exact hview

/-- **The always leg** issues the probe, or does nothing. -/
theorem alwaysLeg_spec (cfg : SchedulerCfg) (now : ℕ) (d : Draws) (agent : String) (link : LinkKey)
    (t : Tick) : alwaysLeg cfg now d agent link t = t ∨
      ∀ a i, (alwaysLeg cfg now d agent link t).workers.view a i = if a = agent ∧ i = link.id then
        (t.workers.view a i).map (·.probed .always .always now) else t.workers.view a i := by
  unfold alwaysLeg
  split
  swap
  · exact Or.inl rfl
  have hspec := t.dispatch_spec agent
    (.probe (d.cmd_id .always) .always none link (d.traceparent .always)) rfl
  split
  · rename_i t' hd
    rw [hd] at hspec
    rcases hspec with ⟨-, hview⟩ | ⟨hrefused, -⟩
    · exact Or.inr (view_issued hview .always now)
    · exact absurd hrefused (by simp)
  · rename_i t' hd
    rw [hd] at hspec
    rcases hspec with ⟨hfalse, -⟩ | ⟨hrefused, -⟩
    · exact absurd hfalse (by simp)
    · exact Or.inl (Prod.mk.inj hrefused).1

theorem alwaysLeg_touches (cfg : SchedulerCfg) (now : ℕ) (d : Draws) (agent : String)
    (link : LinkKey) (t : Tick) : Touches agent link.id now t (alwaysLeg cfg now d agent link t) := by
  rcases alwaysLeg_spec cfg now d agent link t with heq | hview
  · rw [heq]
    exact .refl _ _ _ _
  · exact .of_view (fun v => v.turn_probed (by decide) .always now) hview

section Legs

variable [LinearOrder F] (quality : QualityCfg F) (cfg : SchedulerCfg) (kv : LwwStore F)

/-- The interval of the throughput tests. -/
def throughputInterval (cfg : SchedulerCfg) : ℕ := max cfg.throughput_interval_secs 1

theorem throughputInterval_pos (cfg : SchedulerCfg) : 0 < throughputInterval cfg :=
  Nat.one_pos.trans_le (le_max_right _ _)

/-- The test of a link is due, and the passive tier has made it superfluous. -/
def skips (now : ℕ) (link : LinkKey) (v : LinkView) : Prop :=
  v.due .throughput now (throughputInterval cfg) = true ∧ passiveProof quality kv link = true

instance (now : ℕ) (link : LinkKey) (v : LinkView) : Decidable (skips quality cfg kv now link v) :=
  inferInstanceAs (Decidable (_ ∧ _))

/-- **The throughput leg** ends the turn exactly when it skips the test; the costs it leaves alone
    in any case. -/
theorem throughputLeg_spec (now : ℕ) (d : Draws) (agent : String) (link : LinkKey) (t : Tick) :
    Touches agent link.id now t (throughputLeg quality cfg kv now d agent link t).1 ∧
      ∀ v, t.workers.view agent link.id = some v →
        ((throughputLeg quality cfg kv now d agent link t).2 = true ↔
          skips quality cfg kv now link v) ∧
        ((throughputLeg quality cfg kv now d agent link t).2 = true →
          (throughputLeg quality cfg kv now d agent link t).1.workers.view agent link.id =
            some { v with issued := Function.update v.issued .throughput (some now) }) := by
  have hdue : ∀ v, t.workers.view agent link.id = some v →
      t.workers.probeDue agent link .throughput now (throughputInterval cfg) =
        v.due .throughput now (throughputInterval cfg) := by
    intro v hv
    rw [WorkerRegistry.probeDue_eq, hv]
    rfl
  unfold throughputLeg
  rw [← throughputInterval]
  split
  swap
  · -- not due: the turn goes on, and the skip would have needed it due
    rename_i hnot
    refine ⟨.refl _ _ _ _, fun v hv => ⟨⟨fun h => absurd h (by simp), fun h => ?_⟩,
      fun h => absurd h (by simp)⟩⟩
    rw [hdue v hv] at hnot
    exact absurd h.1 hnot
  rename_i hd
  split
  · -- the passive proof: only the time is noted
    rename_i hproof
    have hview := t.workers.view_markIssued agent link .throughput now
    refine ⟨.of_view (fun v => v.turn_issued .throughput now) hview, fun v hv =>
      ⟨⟨fun _ => ⟨(hdue v hv).symm.trans hd, hproof⟩, fun _ => rfl⟩, fun _ => ?_⟩⟩
    refine (hview agent link.id).trans ?_
    rw [if_pos ⟨rfl, rfl⟩, hv]
    rfl
  · rename_i hproof
    -- without the proof the turn is never over here
    have hno : ∀ v, ¬ skips quality cfg kv now link v := fun v h => hproof h.2
    split
    · -- under the lease: the dispatch goes out, or gives the lease back
      rename_i fence lease _
      have hspec := dispatch_spec { t with fence } agent (.probe (d.cmd_id .throughput) .throughput
        (some lease.token) link (d.traceparent .throughput)) rfl
      split
      · rename_i t' hsent
        rw [hsent] at hspec
        rcases hspec with ⟨-, hview⟩ | ⟨hrefused, -⟩
        · exact ⟨.of_view (fun v => v.turn_probed (by decide) .throughput now)
            (view_issued (t := { t with fence }) hview .throughput now), fun v _ =>
              ⟨⟨fun h => absurd h (by simp), fun h => absurd h (hno v)⟩, fun h => absurd h (by simp)⟩⟩
        · exact absurd hrefused (by simp)
      · rename_i t' hsent
        rw [hsent] at hspec
        rcases hspec with ⟨hfalse, -⟩ | ⟨hrefused, -⟩
        · exact absurd hfalse (by simp)
        · obtain rfl := (Prod.mk.inj hrefused).1
          exact ⟨.of_workers _ _ _ rfl, fun v _ =>
            ⟨⟨fun h => absurd h (by simp), fun h => absurd h (hno v)⟩, fun h => absurd h (by simp)⟩⟩
    · -- no lease: only the fence has dropped what expired
      exact ⟨.of_workers _ _ _ rfl, fun v _ =>
        ⟨⟨fun h => absurd h (by simp), fun h => absurd h (hno v)⟩, fun h => absurd h (by simp)⟩⟩

omit [LinearOrder F] in
/-- **The apply leg** leaves nothing owed to a live link. -/
theorem applyLeg_spec (now : ℕ) (d : Draws) (agent : String) (link : LinkKey) (t : Tick) :
    Touches agent link.id now t (applyLeg kv now d agent link t) ∧
      ∀ cost v, derivedCost kv link = some cost → t.workers.view agent link.id = some v →
        v.live = true → ∃ v', (applyLeg kv now d agent link t).workers.view agent link.id = some v' ∧
          v'.Settled cost now := by
  unfold applyLeg
  cases hcost : derivedCost kv link with
  | none => exact ⟨.refl _ _ _ _, fun cost v h => absurd h (by simp)⟩
  | some cost =>
    have hspec := t.dispatch_spec agent
      (.applyCost (d.cmd_id .apply) link cost (d.traceparent .apply)) rfl
    dsimp only
    split
    swap
    · -- not due: the cost was sent, or a back-off is running
      rename_i hdue
      refine ⟨.refl _ _ _ _, fun cost' v hc hv _ => ⟨v, hv, ?_⟩⟩
      obtain rfl := Option.some.inj hc
      rw [WorkerRegistry.applyDue_iff hv, not_and_or, not_not] at hdue
      rcases hdue with hsent | hback
      · exact Or.inl hsent
      · push Not at hback
        obtain ⟨at_, hat, hlt⟩ := hback
        exact Or.inr (Or.inr ⟨at_, hat, hlt⟩)
    · split
      · -- sent: the cost is the last one the agent was sent
        rename_i t' hd
        rw [hd] at hspec
        rcases hspec with ⟨-, hview⟩ | ⟨hrefused, -⟩
        swap
        · exact absurd hrefused (by simp)
        have hboth : ∀ a i, (t'.workers.setAppliedSent agent link cost).view a i =
            if a = agent ∧ i = link.id then (t.workers.view a i).map (·.applied cost)
            else t.workers.view a i := by
          intro a i
          rw [WorkerRegistry.view_setAppliedSent, hview]
          split
          · rw [Option.map_map]
            rfl
          · rfl
        refine ⟨.of_view (fun v => v.turn_applied cost now) hboth, fun cost' v hc hv _ => ?_⟩
        obtain rfl := Option.some.inj hc
        refine ⟨v.applied cost, (hboth agent link.id).trans ?_, Or.inl rfl⟩
        rw [if_pos ⟨rfl, rfl⟩, hv]
        rfl
      · rename_i t' hd
        rw [hd] at hspec
        rcases hspec with ⟨hfalse, -⟩ | ⟨hrefused, hfull⟩
        · exact absurd hfalse (by simp)
        · -- refused on a live link: an apply is outstanding
          obtain rfl := (Prod.mk.inj hrefused).1
          exact ⟨.refl _ _ _ _, fun cost' v _ hv hlive =>
            ⟨v, hv, Or.inr (Or.inl (hfull v hv hlive))⟩⟩

theorem skips_congr {now : ℕ} {link : LinkKey} {v v' : LinkView}
    (h : v'.issued .throughput = v.issued .throughput) :
    skips quality cfg kv now link v' ↔ skips quality cfg kv now link v := by
  unfold skips LinkView.due
  rw [h]

/-! ### A turn -/

/-- **The turn of a link.** It touches that link alone, and leaves nothing owed to it, unless the
    test is skipped; then the costs are as they were, and the test is not due again. -/
theorem planLink_spec (now : ℕ) (d : Draws) (agent : String) (link : LinkKey) (t : Tick) :
    Touches agent link.id now t (planLink quality cfg kv now d agent link t) ∧
      ∀ v, t.workers.view agent link.id = some v →
        ∃ v', (planLink quality cfg kv now d agent link t).workers.view agent link.id = some v' ∧
          (skips quality cfg kv now link v → v'.applied_sent = v.applied_sent ∧
            v'.retry_at = v.retry_at ∧ v'.in_flight .apply = v.in_flight .apply ∧
            v'.due .throughput now (throughputInterval cfg) = false) ∧
          ∀ cost, derivedCost kv link = some cost → v.live = true →
            ¬ skips quality cfg kv now link v → v'.Settled cost now := by
  unfold planLink
  have halways := alwaysLeg_touches cfg now d agent link t
  -- the always leg has no part in what follows
  have hfirst : ∀ v, t.workers.view agent link.id = some v →
      ∃ v₁, (alwaysLeg cfg now d agent link t).workers.view agent link.id = some v₁ ∧
        v₁.live = v.live ∧ v₁.issued .throughput = v.issued .throughput ∧
        v₁.applied_sent = v.applied_sent ∧ v₁.retry_at = v.retry_at ∧
        v₁.in_flight .apply = v.in_flight .apply := by
    intro v hv
    rcases alwaysLeg_spec cfg now d agent link t with heq | hview
    · exact ⟨v, by rw [heq, hv], rfl, rfl, rfl, rfl, rfl⟩
    · refine ⟨v.probed .always .always now, (hview agent link.id).trans ?_, rfl, rfl, rfl, rfl, rfl⟩
      rw [if_pos ⟨rfl, rfl⟩, hv]
      rfl
  generalize alwaysLeg cfg now d agent link t = t₁ at halways hfirst
  obtain ⟨htest, hown⟩ := throughputLeg_spec quality cfg kv now d agent link t₁
  generalize throughputLeg quality cfg kv now d agent link t₁ = res at htest hown
  obtain ⟨t₂, skipped⟩ := res
  cases skipped with
  | true =>
    -- the turn ends here, and nothing of it was about the costs
    refine ⟨halways.trans htest, fun v hv => ?_⟩
    obtain ⟨v₁, hv₁, -, hissued, hsent, hretry, hflight⟩ := hfirst v hv
    obtain ⟨hiff, hview⟩ := hown v₁ hv₁
    exact ⟨_, hview rfl, fun _ => ⟨hsent, hretry, hflight,
        v₁.due_issued .throughput now (throughputInterval_pos cfg)⟩,
      fun cost _ _ hnot => absurd ((skips_congr quality cfg kv hissued).mp (hiff.mp rfl)) hnot⟩
  | false =>
    obtain ⟨happly, hsettles⟩ := applyLeg_spec kv now d agent link t₂
    refine ⟨(halways.trans htest).trans happly, fun v hv => ?_⟩
    obtain ⟨v₁, hv₁, hlive, hissued, -⟩ := hfirst v hv
    obtain ⟨v₂, hv₂, hturn⟩ := htest.own v₁ hv₁
    obtain ⟨v₃, hv₃, -⟩ := happly.own v₂ hv₂
    refine ⟨v₃, hv₃, fun hskip => ?_, fun cost hcost hv _ => ?_⟩
    · exact absurd ((hown v₁ hv₁).1.mpr ((skips_congr quality cfg kv hissued).mpr hskip)) (by simp)
    · obtain ⟨v', hv', hsettled⟩ := hsettles cost v₂ hcost hv₂ ((hturn.live.trans hlive).trans hv)
      obtain rfl := Option.some.inj (hv₃.symm.trans hv')
      exact hsettled

/-! ### A tick -/

/-- The turns of a list of links. -/
private theorem turns_all (now : ℕ) (draws : ℕ → Draws) (l : List ((String × LinkKey) × ℕ))
    {t : Tick} {a i : String} {v : LinkView} (hv : t.workers.view a i = some v) :
    ∃ v', (l.foldl (fun t p => planLink quality cfg kv now (draws p.2) p.1.1 p.1.2 t)
      t).workers.view a i = some v' ∧ v.Turn now v' := by
  induction l generalizing t v with
  | nil => exact ⟨v, hv, .refl v⟩
  | cons p l ih =>
    obtain ⟨v₁, hv₁, hturn⟩ :=
      (planLink_spec quality cfg kv now (draws p.2) p.1.1 p.1.2 t).1.turn hv
    obtain ⟨v₂, hv₂, hturn'⟩ := ih hv₁
    exact ⟨v₂, hv₂, hturn.trans hturn'⟩

/-- The turns of other links leave the view of a link alone. -/
private theorem view_of_others {now : ℕ} {draws : ℕ → Draws} {l : List ((String × LinkKey) × ℕ)}
    {t : Tick} {agent id : String} (hnone : ∀ p ∈ l, ¬ (p.1.1 = agent ∧ p.1.2.id = id)) :
    (l.foldl (fun t p => planLink quality cfg kv now (draws p.2) p.1.1 p.1.2 t)
      t).workers.view agent id = t.workers.view agent id := by
  induction l generalizing t with
  | nil => rfl
  | cons p l ih =>
    rw [List.foldl_cons, ih (fun q hq => hnone q (List.mem_cons_of_mem _ hq))]
    apply (planLink_spec quality cfg kv now (draws p.2) p.1.1 p.1.2 t).1.others
    exact fun hc => hnone p List.mem_cons_self ⟨hc.1.symm, hc.2.symm⟩

/-- A link whose cost is settled, or whose test is not skipped, is settled after its turn. -/
private theorem settled_all {now : ℕ} {draws : ℕ → Draws} {l : List ((String × LinkKey) × ℕ)}
    {t : Tick} {agent : String} {link : LinkKey} {n : ℕ} (hmem : ((agent, link), n) ∈ l)
    {v : LinkView} (hv : t.workers.view agent link.id = some v) (hlive : v.live = true) {cost : ℕ}
    (hcost : derivedCost kv link = some cost)
    (h : v.Settled cost now ∨ ¬ skips quality cfg kv now link v) :
    ∃ v', (l.foldl (fun t p => planLink quality cfg kv now (draws p.2) p.1.1 p.1.2 t)
      t).workers.view agent link.id = some v' ∧ v'.Settled cost now := by
  induction l generalizing t v with
  | nil => exact absurd hmem List.not_mem_nil
  | cons p l ih =>
    have hspec := planLink_spec quality cfg kv now (draws p.2) p.1.1 p.1.2 t
    obtain ⟨v₁, hv₁, hturn⟩ := hspec.1.turn hv
    rcases List.mem_cons.mp hmem with rfl | hmem
    · have hsettled : v₁.Settled cost now := by
        rcases h with hs | hnot
        · exact hturn.settled hs
        · obtain ⟨v', hv', -, happly⟩ := hspec.2 v hv
          obtain rfl := Option.some.inj (hv₁.symm.trans hv')
          exact happly cost hcost hlive hnot
      obtain ⟨v₂, hv₂, hturn'⟩ := turns_all quality cfg kv now draws l hv₁
      exact ⟨v₂, hv₂, hturn'.settled hsettled⟩
    · refine ih hmem hv₁ (hturn.live.trans hlive) (h.imp hturn.settled (fun hnot hskip => hnot ?_))
      -- what is due at its turn was due before
      refine ⟨?_, hskip.2⟩
      by_contra hdue
      have hlater : v₁.due .throughput now (throughputInterval cfg) = false :=
        hturn.due (throughputInterval_pos cfg) (Bool.eq_false_iff.mpr hdue)
      exact absurd (hlater.symm.trans hskip.1) (by simp)

/-- A link the list has twice is settled: its test is skipped once at most. -/
private theorem settled_twice {now : ℕ} {draws : ℕ → Draws} {l : List ((String × LinkKey) × ℕ)}
    {t : Tick} {agent : String} {link : LinkKey} (htwice : 1 < l.countP (fun p => p.1 == (agent, link)))
    {v : LinkView} (hv : t.workers.view agent link.id = some v) (hlive : v.live = true) {cost : ℕ}
    (hcost : derivedCost kv link = some cost) :
    ∃ v', (l.foldl (fun t p => planLink quality cfg kv now (draws p.2) p.1.1 p.1.2 t)
      t).workers.view agent link.id = some v' ∧ v'.Settled cost now := by
  induction l generalizing t v with
  | nil => exact absurd htwice (by simp)
  | cons p l ih =>
    have hspec := planLink_spec quality cfg kv now (draws p.2) p.1.1 p.1.2 t
    rw [List.countP_cons] at htwice
    by_cases hp : p.1 = (agent, link)
    · by_cases hskip : skips quality cfg kv now link v
      · rw [if_pos (by simpa using hp)] at htwice
        obtain ⟨⟨q, n⟩, hq, hlink⟩ := List.countP_pos_iff.mp (Nat.lt_of_succ_lt_succ htwice)
        obtain rfl : q = (agent, link) := by simpa using hlink
        rw [hp] at hspec
        obtain ⟨v₁, hv₁, hsame, -⟩ := hspec.2 v hv
        obtain ⟨v₂, hv₂, hturn⟩ := hspec.1.turn hv
        obtain rfl := Option.some.inj (hv₁.symm.trans hv₂)
        rw [List.foldl_cons, hp]
        refine settled_all quality cfg kv hq hv₁ (hturn.live.trans hlive) hcost (Or.inr ?_)
        exact fun hagain => absurd ((hsame hskip).2.2.2.symm.trans hagain.1) (by simp)
      · have hmem : ((agent, link), p.2) ∈ p :: l := by
          rw [← hp]
          exact List.mem_cons_self
        exact settled_all quality cfg kv hmem hv hlive hcost (Or.inr hskip)
    · rw [if_neg (by simpa using hp)] at htwice
      obtain ⟨v₁, hv₁, hturn⟩ := hspec.1.turn hv
      exact ih htwice hv₁ (hturn.live.trans hlive)

/-- A link the list has once, whose test is skipped, keeps its costs. -/
private theorem skipped_all {now : ℕ} (draws : ℕ → Draws) {l : List ((String × LinkKey) × ℕ)}
    {t : Tick} {agent : String} {link : LinkKey} {n : ℕ} (hmem : ((agent, link), n) ∈ l)
    (honce : l.countP (fun p => p.1.1 = agent ∧ p.1.2.id = link.id) ≤ 1)
    {v : LinkView} (hv : t.workers.view agent link.id = some v)
    (hskip : skips quality cfg kv now link v) :
    ∃ v', (l.foldl (fun t p => planLink quality cfg kv now (draws p.2) p.1.1 p.1.2 t)
      t).workers.view agent link.id = some v' ∧ v'.applied_sent = v.applied_sent ∧
        v'.retry_at = v.retry_at ∧ v'.in_flight .apply = v.in_flight .apply := by
  induction l generalizing t v with
  | nil => exact absurd hmem List.not_mem_nil
  | cons p l ih =>
    have hspec := planLink_spec quality cfg kv now (draws p.2) p.1.1 p.1.2 t
    rw [List.countP_cons] at honce
    by_cases hp : p.1.1 = agent ∧ p.1.2.id = link.id
    · -- the turn of the link: no other follows
      rw [if_pos (by simpa using hp)] at honce
      have hnone : ∀ q ∈ l, ¬ (q.1.1 = agent ∧ q.1.2.id = link.id) := by
        have hzero : l.countP (fun p => p.1.1 = agent ∧ p.1.2.id = link.id) = 0 := by omega
        rw [List.countP_eq_zero] at hzero
        exact fun q hq => by simpa using hzero q hq
      rcases List.mem_cons.mp hmem with rfl | hmem
      swap
      · exact absurd ⟨rfl, rfl⟩ (hnone _ hmem)
      obtain ⟨v₁, hv₁, hsame, -⟩ := hspec.2 v hv
      obtain ⟨hsent, hretry, hflight, -⟩ := hsame hskip
      refine ⟨v₁, ?_, hsent, hretry, hflight⟩
      rw [List.foldl_cons, view_of_others quality cfg kv hnone]
      exact hv₁
    · -- the turn of another link, which leaves this one
      rw [if_neg (by simpa using hp)] at honce
      rcases List.mem_cons.mp hmem with rfl | hmem
      · exact absurd ⟨rfl, rfl⟩ hp
      · refine ih hmem honce ?_ hskip
        rw [hspec.1.others agent link.id (fun hc => hp ⟨hc.1.symm, hc.2.symm⟩)]
        exact hv

end Legs

end Tick

section Main

variable [LinearOrder F]

/-- Nothing is owed to a link of an agent: its cost was sent, an apply is outstanding, or one that
    failed is in its retry back-off. -/
def WorkerRegistry.Settled (r : WorkerRegistry) (agent : String) (link : LinkKey) (cost now : ℕ) :
    Prop :=
  ∃ v, r.view agent link.id = some v ∧ v.Settled cost now

/-- The links an order of the turns has are those of the registry, as often. -/
private theorem countP_turns {owned links : List (String × LinkKey)} (howned : owned.Perm links)
    (p : String × LinkKey → Bool) : owned.zipIdx.countP (fun q => p q.1) = links.countP p := by
  have hmap : owned.zipIdx.countP (fun q => p q.1) = (owned.zipIdx.map Prod.fst).countP p := by
    rw [List.countP_map]
    rfl
  rw [hmap, List.zipIdx_map_fst, howned.countP_eq]

/-- **What a tick leaves owed.** For every state, and every order of the owned links: a link of an
    agent with a session that has a derived cost is settled after the tick, if it was settled before,
    or its throughput test was not both due and proven superfluous, or the agent lists it twice.
    Where the agent has no other link of that id, no other link is. -/
theorem planTick_settles (quality : QualityCfg F) (cfg : SchedulerCfg) (kv : LwwStore F) (now : ℕ)
    (draws : ℕ → Draws) (t : Tick) (owned : List (String × LinkKey))
    (howned : owned.Perm t.workers.ownedLinks) (agent : String) (link : LinkKey)
    (hmem : (agent, link) ∈ t.workers.ownedLinks) (sid : ℕ)
    (hsession : t.workers.session agent = some sid) (cost : ℕ)
    (hcost : derivedCost kv link = some cost) :
    let after := t.planTick quality cfg kv now draws owned
    let skipped := t.workers.probeDue agent link .throughput now
        (max cfg.throughput_interval_secs 1) = true ∧ passiveProof quality kv link = true
    let reached := t.workers.Settled agent link cost now ∨ ¬ skipped ∨
        1 < t.workers.ownedLinks.count (agent, link)
    (reached → after.workers.Settled agent link cost now) ∧
      ((∀ l, (agent, l) ∈ t.workers.ownedLinks → l.id = link.id → l = link) →
        (after.workers.Settled agent link cost now ↔ reached)) := by
  obtain ⟨v, hv, hlive⟩ := WorkerRegistry.view_of_session hsession link.id
  have hturn : ∃ n, ((agent, link), n) ∈ owned.zipIdx := by
    have hfst : (agent, link) ∈ owned.zipIdx.map Prod.fst := by
      rw [List.zipIdx_map_fst]
      exact howned.mem_iff.mpr hmem
    obtain ⟨⟨p, n⟩, hp, rfl⟩ := List.mem_map.mp hfst
    exact ⟨n, hp⟩
  obtain ⟨n, hn⟩ := hturn
  have hdue : t.workers.probeDue agent link .throughput now (max cfg.throughput_interval_secs 1) =
      v.due .throughput now (Tick.throughputInterval cfg) := by
    rw [WorkerRegistry.probeDue_eq, hv]
    rfl
  have hbefore : t.workers.Settled agent link cost now ↔ v.Settled cost now := by
    refine ⟨fun h => ?_, fun h => ⟨v, hv, h⟩⟩
    obtain ⟨v', hv', hs⟩ := h
    obtain rfl := Option.some.inj (hv.symm.trans hv')
    exact hs
  intro after skipped reached
  have hreached : reached ↔ v.Settled cost now ∨ ¬ Tick.skips quality cfg kv now link v ∨
      1 < t.workers.ownedLinks.count (agent, link) := by
    show _ ∨ ¬ (_ ∧ _) ∨ _ ↔ _
    rw [hbefore, hdue]
    exact Iff.rfl
  have hsettles : reached → after.workers.Settled agent link cost now := by
    rw [hreached, ← or_assoc]
    rintro (h | htwice)
    · exact Tick.settled_all quality cfg kv hn hv hlive hcost h
    · refine Tick.settled_twice quality cfg kv ?_ hv hlive hcost
      rw [countP_turns howned (fun p => p == (agent, link))]
      exact htwice
  refine ⟨hsettles, fun hids => ⟨fun h => ?_, hsettles⟩⟩
  rw [hreached]
  by_contra hnot
  obtain ⟨hunsettled, hskip, honce⟩ := not_or.mp hnot |>.imp id not_or.mp
  -- its one turn was skipped, so what is settled now was settled before
  have hcount : owned.zipIdx.countP (fun p => p.1.1 = agent ∧ p.1.2.id = link.id) ≤ 1 := by
    rw [countP_turns howned (fun p => decide (p.1 = agent ∧ p.2.id = link.id))]
    have hsame : t.workers.ownedLinks.countP (fun p => p.1 = agent ∧ p.2.id = link.id) =
        t.workers.ownedLinks.count (agent, link) := by
      refine List.countP_congr (fun p hp => ?_)
      rw [decide_eq_true_eq, beq_iff_eq]
      constructor
      · rintro ⟨rfl, hid⟩
        rw [← hids p.2 hp hid]
      · rintro rfl
        exact ⟨rfl, rfl⟩
    rw [hsame]
    exact not_lt.mp honce
  obtain ⟨v', hv', hsent, hretry, hflight⟩ :=
    Tick.skipped_all quality cfg kv draws hn hcount hv (not_not.mp hskip)
  obtain ⟨x, hx, hs⟩ := h
  obtain rfl := Option.some.inj (hv'.symm.trans hx)
  apply hunsettled
  unfold LinkView.Settled at hs ⊢
  rwa [hsent, hretry, hflight] at hs

end Main

/-! ### A cost that is not applied -/

/-- The good class asks for 10 Mbit/s. -/
def goodOnly : QualityCfg ℕ :=
  let unset := QualityClass.mk none none none none none none none
  ⟨⟨none, none, none, some 10, none, none, none, 10⟩, unset 20, unset 50, unset 100⟩

/-- A link whose traffic carried `rate`, with a derived cost of 20. -/
def measuredAt (rate : ℕ) : LwwStore ℕ :=
  let rec_ : QualityRecord ℕ := ⟨100, some 9, some 0, some 1, none, none, none, none, 0, .quiet,
    some .acceptable, some 20, none, some rate, none, none⟩
  (LwwStore.new.put ⟨"hub-a", "hub-b", "awg_a"⟩ rec_).1

/-- An agent that has just connected with one link. -/
def connected : Tick :=
  let workers := (WorkerRegistry.new.register "hub-a" [⟨"hub-a", "hub-b", "awg_a"⟩] none ∅ none).1
  ⟨(workers.attach "hub-a" 0 none).1, .new, [], 0⟩

/-- What the turns of a tick draw. -/
def drawn (n : ℕ) : Draws := ⟨fun _ => toString n, fun _ => none, toString n, 1000⟩

/-- **A skipped test skips the cost.** The test of the link is due and proven superfluous, and its
    first cost is not sent. -/
theorem skipped_test_skips_cost :
    let link : LinkKey := ⟨"hub-a", "hub-b", "awg_a"⟩
    let t := connected.planTick goodOnly ⟨15, 1800⟩ (measuredAt 12) 1000 drawn
      connected.workers.ownedLinks
    ("hub-a", link) ∈ connected.workers.ownedLinks ∧
      connected.workers.session "hub-a" = some 0 ∧ derivedCost (measuredAt 12) link = some 20 ∧
      ¬ t.workers.Settled "hub-a" link 20 1000 := by
  refine ⟨by decide, by decide, by decide, ?_⟩
  rintro ⟨v, hv, hs⟩
  have hcosts : ((connected.planTick goodOnly ⟨15, 1800⟩ (measuredAt 12) 1000 drawn
      connected.workers.ownedLinks).workers.view "hub-a" (LinkKey.id ⟨"hub-a", "hub-b", "awg_a"⟩)).map
        (fun v => (v.applied_sent, v.in_flight .apply, v.retry_at)) = some (none, false, none) := by
    decide
  rw [hv, Option.map_some, Option.some.injEq, Prod.mk.injEq, Prod.mk.injEq] at hcosts
  unfold LinkView.Settled at hs
  rw [hcosts.1, hcosts.2.1, hcosts.2.2] at hs
  simp at hs

/-- Without the proof, the cost goes out next to the test. -/
theorem unproven_test_keeps_cost :
    (connected.planTick goodOnly ⟨15, 1800⟩ (measuredAt 5) 1000 drawn
      connected.workers.ownedLinks).workers.Settled "hub-a" ⟨"hub-a", "hub-b", "awg_a"⟩ 20 1000 :=
  (planTick_settles goodOnly ⟨15, 1800⟩ (measuredAt 5) 1000 drawn connected _ (.refl _) "hub-a"
    ⟨"hub-a", "hub-b", "awg_a"⟩ (by decide) 0 (by decide) 20 (by decide)).1 (Or.inr (Or.inl (by decide)))

end Mielofon
