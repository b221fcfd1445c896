import Mathlib
import Mielofon.Session.Controller

namespace Mielofon

open Lib

/-!
# At most one outstanding command per link and kind

The slot of a command is a pair of a link id and a kind in the agent's entry.  It does not say
which request, or which session, it belongs to: attaching a session frees all slots, a
registration frees those of the links it drops, and a task frees the slot of its command even
when the request was sent on a session that has been replaced since.

* `Controller.outstanding` — the requests on the live session not yet answered or timed out;
* `FreesNoLiveSlot` — no operation frees the slot of a request that is still under way on the
  live session;
* `SlotInv`, `slotInv_step` — the invariant and its step lemma;
* `one_outstanding` — under `FreesNoLiveSlot` at most one is outstanding for each slot;
* `stale_end_frees_slot` — a run in which a late completion frees the slot of another request.
-/

variable {F : Type*}

/-- The slot a request occupies. -/
def Request.slot? (r : Request) : Option (String × Kind) :=
  (trackKey r.cmd).map (fun p => (p.1.id, p.2))

/-- The slot is claimed, and the request not yet answered or timed out. -/
def Request.Pending (r : Request) : Prop := r.phase = .begun ∨ r.phase = .sent

instance (r : Request) : Decidable r.Pending := inferInstanceAs (Decidable (_ ∨ _))

namespace Controller

/-- The request is under way on the live session of its agent. -/
def Live (c : Controller F) (r : Request) : Prop :=
  c.app.workers.session r.agent = some r.session ∧ r.Pending

instance (c : Controller F) (r : Request) : Decidable (c.Live r) :=
  inferInstanceAs (Decidable (_ ∧ _))

/-- The requests sent on the live session of an agent for a link and kind, and not yet answered
    or timed out. -/
def outstanding (c : Controller F) (agent : String) (link : LinkKey) (kind : Kind) :
    List Request :=
  c.requests.filter (fun r => r.agent = agent ∧ c.app.workers.session agent = some r.session ∧
    r.phase = .sent ∧ r.slot? = some (link.id, kind))

end Controller

/-- No operation frees the slot of a request under way on the live session: a task gives back
    a slot only while no other such request has it, a registration keeps the links of such
    requests, and a session that takes over has none itself. -/
def FreesNoLiveSlot (c : Controller F) : Event F → Prop
  | .finish i => ∀ r ∈ c.requests[i]?, ∀ r' ∈ c.requests, c.Live r' → r'.agent = r.agent →
      r'.slot?.isSome → r'.slot? ≠ r.slot?
  | .register _ req => ∀ r ∈ c.requests, c.Live r → r.agent = req.agent → ∀ k ∈ r.slot?,
      k.1 ∈ (req.links.map (WorkerRegistry.settle req.agent c.app.workers.inner.keys)).map
        LinkKey.id
  | .attach h => ∀ x ∈ c.handlers[h]?, ∀ agent ∈ x.pending?,
      (x.generation?.isSome ∧
        x.generation? = (c.app.workers.entry agent).session.map Prod.fst) ∨
      ∀ r ∈ c.requests, r.agent = agent → r.session = h → ¬ r.Pending
  | _ => True

instance (c : Controller F) (e : Event F) : Decidable (FreesNoLiveSlot c e) := by
  refine Event.casesOn e ?_ ?_ ?_ ?_ ?_ ?_ ?_ ?_ ?_ ?_ ?_ ?_ ?_ ?_ ?_ ?_ <;>
    intros <;> delta FreesNoLiveSlot <;> dsimp only <;> infer_instance

/-! ### The invariant -/

/-- Every request under way on a live session holds its slot, and no two hold the same. -/
structure SlotInv (c : Controller F) : Prop where
  taken : ∀ r ∈ c.requests, c.Live r → ∀ k, r.slot? = some k →
    ∃ w, c.app.workers.worker r.agent = some w ∧ k ∈ w.in_flight
  unique : ∀ (i j : ℕ) r r', c.requests[i]? = some r → c.requests[j]? = some r' → c.Live r →
    c.Live r' → r.agent = r'.agent → ∀ k, r.slot? = some k → r'.slot? = some k → i = j

/-- A list in which no two places satisfy a predicate has at most one element that does. -/
private theorem length_filter_le_one {α : Type*} {l : List α} {p : α → Bool}
    (h : ∀ (i j : ℕ) a b, l[i]? = some a → l[j]? = some b → p a → p b → i = j) :
    (l.filter p).length ≤ 1 := by
  have hpair : l.Pairwise (fun a b => ¬ (p a ∧ p b)) := by
    rw [List.pairwise_iff_getElem]
    intro i j hi hj hlt hboth
    have := h i j _ _ (List.getElem?_eq_getElem hi) (List.getElem?_eq_getElem hj) hboth.1 hboth.2
    omega
  have hfilter := hpair.sublist (List.filter_sublist (p := p))
  cases hl : l.filter p with
  | nil => exact Nat.zero_le _
  | cons a rest =>
    cases rest with
    | nil => exact le_refl _
    | cons b rest =>
      rw [hl] at hfilter
      have ha : p a := (List.mem_filter.mp (hl ▸ List.mem_cons_self)).2
      have hb : p b :=
        (List.mem_filter.mp (hl ▸ List.mem_cons_of_mem _ List.mem_cons_self)).2
      exact absurd ⟨ha, hb⟩ ((List.pairwise_cons.mp hfilter).1 b List.mem_cons_self)

/-- The invariant gives the bound. -/
theorem SlotInv.length_outstanding_le {c : Controller F} (hI : SlotInv c) (agent : String)
    (link : LinkKey) (kind : Kind) : (c.outstanding agent link kind).length ≤ 1 := by
  unfold Controller.outstanding
  apply length_filter_le_one
  intro i j r r' hr hr' hp hp'
  rw [decide_eq_true_eq] at hp hp'
  obtain ⟨ha, hs, hph, hk⟩ := hp
  obtain ⟨ha', hs', hph', hk'⟩ := hp'
  exact hI.unique i j r r' hr hr' ⟨ha ▸ hs, Or.inr hph⟩ ⟨ha' ▸ hs', Or.inr hph'⟩
    (ha.trans ha'.symm) _ hk hk'

/-- **Frame.** An operation after which no more requests are under way on live sessions, and
    those that are still hold their slots. -/
private theorem slotInv_frame {c c' : Controller F} (hI : SlotInv c)
    (hreq : ∀ (j : ℕ) r', c'.requests[j]? = some r' → ∃ r, c.requests[j]? = some r ∧
      r'.agent = r.agent ∧ r'.slot? = r.slot? ∧ (c'.Live r' → c.Live r))
    (hkeep : ∀ r' ∈ c'.requests, c'.Live r' → ∀ k, r'.slot? = some k → ∀ w,
      c.app.workers.worker r'.agent = some w → k ∈ w.in_flight →
        ∃ w', c'.app.workers.worker r'.agent = some w' ∧ k ∈ w'.in_flight) : SlotInv c' := by
  refine ⟨fun r' hr' hlive k hk => ?_, fun i j r₁ r₂ h₁ h₂ hl₁ hl₂ hag k hk₁ hk₂ => ?_⟩
  · obtain ⟨j, hj⟩ := List.getElem?_of_mem hr'
    obtain ⟨r, hr, hag, hslot, hback⟩ := hreq j r' hj
    obtain ⟨w, hw, hin⟩ := hI.taken r (List.mem_of_getElem? hr) (hback hlive) k (hslot ▸ hk)
    exact hkeep r' hr' hlive k hk w (hag ▸ hw) hin
  · obtain ⟨q₁, hq₁, ha₁, hs₁, hb₁⟩ := hreq i r₁ h₁
    obtain ⟨q₂, hq₂, ha₂, hs₂, hb₂⟩ := hreq j r₂ h₂
    exact hI.unique i j q₁ q₂ hq₁ hq₂ (hb₁ hl₁) (hb₂ hl₂) (ha₁ ▸ ha₂ ▸ hag) k (hs₁ ▸ hk₁)
      (hs₂ ▸ hk₂)

/-- The session and the slots of an agent. -/
def Worker.slots (w : Worker) : Option (ℕ × ℕ) × Finset (String × Kind) := (w.session, w.in_flight)

private theorem session_of_sameView {w w' : WorkerRegistry}
    (h : Controller.SameView Worker.slots w w') (agent : String) :
    w'.session agent = w.session agent := by
  have heq := congrArg (fun o => o.bind (fun p => p.1.map Prod.snd)) (h.1 agent)
  simpa [Option.bind_map, Worker.slots, WorkerRegistry.session, Function.comp_def] using heq

/-- An operation that leaves the slots and at most settles a request. -/
private theorem slotInv_of_same {c c' : Controller F} (hI : SlotInv c)
    (hview : Controller.SameView Worker.slots c.app.workers c'.app.workers)
    (hreq : ∀ (j : ℕ) r', c'.requests[j]? = some r' → ∃ r, c.requests[j]? = some r ∧
      r'.agent = r.agent ∧ r'.session = r.session ∧ r'.cmd = r.cmd ∧ (r'.Pending → r.Pending)) :
    SlotInv c' := by
  refine slotInv_frame hI (fun j r' hr' => ?_) (fun r' _ _ k _ w hw hin => ?_)
  · obtain ⟨r, hr, hag, hsess, hcmd, hpend⟩ := hreq j r' hr'
    refine ⟨r, hr, hag, by unfold Request.slot?; rw [hcmd], fun hlive => ⟨?_, hpend hlive.2⟩⟩
    rw [← session_of_sameView hview, ← hag, ← hsess]
    exact hlive.1
  · have heq := hview.1 r'.agent
    rw [hw, Option.map_some] at heq
    obtain ⟨w', hw', hs⟩ := Option.map_eq_some_iff.mp heq
    have hslots : w'.in_flight = w.in_flight := congrArg Prod.snd hs
    exact ⟨w', hw', hslots ▸ hin⟩

/-- Requests nothing was done to. -/
private theorem requests_refl (c : Controller F) : ∀ (j : ℕ) r', c.requests[j]? = some r' →
    ∃ r, c.requests[j]? = some r ∧ r'.agent = r.agent ∧ r'.session = r.session ∧
      r'.cmd = r.cmd ∧ (r'.Pending → r.Pending) :=
  fun _ r' hr' => ⟨r', hr', rfl, rfl, rfl, id⟩

/-- Requests of which one has moved on. -/
private theorem requests_set {c : Controller F} {i : ℕ} {r x : Request}
    (hr : c.requests[i]? = some r) (hag : x.agent = r.agent) (hsess : x.session = r.session)
    (hcmd : x.cmd = r.cmd) (hpend : x.Pending → r.Pending) : ∀ (j : ℕ) r',
      (c.requests.set i x)[j]? = some r' → ∃ r, c.requests[j]? = some r ∧ r'.agent = r.agent ∧
        r'.session = r.session ∧ r'.cmd = r.cmd ∧ (r'.Pending → r.Pending) := by
  intro j r' hr'
  rw [List.getElem?_set] at hr'
  split at hr'
  · rename_i hij
    subst hij
    split at hr'
    · obtain rfl := Option.some.inj hr'
      exact ⟨r, hr, hag, hsess, hcmd, hpend⟩
    · exact absurd hr' (by simp)
  · exact ⟨r', hr', rfl, rfl, rfl, id⟩

/-! ### The steps that touch slots -/

variable {c : Controller F}

/-- The requests after a claim: those there were, and the new one behind them. -/
private theorem getElem?_concat {l : List Request} {n r : Request} {i : ℕ}
    (h : (l ++ [n])[i]? = some r) : l[i]? = some r ∨ (i = l.length ∧ r = n) := by
  rcases Nat.lt_trichotomy i l.length with hlt | heq | hgt
  · rw [List.getElem?_append_left hlt] at h
    exact Or.inl h
  · rw [heq, List.getElem?_concat_length] at h
    exact Or.inr ⟨heq, (Option.some.inj h).symm⟩
  · rw [List.getElem?_eq_none (by rw [List.length_append, List.length_singleton]; omega)] at h
    exact absurd h (by simp)

/-- **Claiming** a slot that is free. -/
private theorem slotInv_claim (hI : SlotInv c) (agent : String) (sid : ℕ) (cmd : WorkCmd) :
    SlotInv (c.claim agent sid cmd) := by
  rcases c.claim_cases agent sid cmd with heq | ⟨workers, heq, htracked⟩
  · rw [heq]
    exact slotInv_of_same hI (Controller.sameView_refl _ _) (requests_refl c)
  generalize hc' : c.claim agent sid cmd = c' at heq ⊢
  have hrequests : c'.requests = c.requests ++ [⟨agent, sid, cmd, .begun, false, false⟩] := by
    rw [heq]
  have hworkers : c'.app.workers = workers := by rw [heq]
  have hlive : ∀ r, c'.Live r → c.Live r := by
    intro r hl
    refine ⟨?_, hl.2⟩
    have hs := hl.1
    rw [hworkers] at hs
    rcases htracked with ⟨-, rfl⟩ | ⟨link, kind, w, -, -, -, rfl⟩
    · exact hs
    · rw [WorkerRegistry.session_modify] at hs
      · exact hs
      · exact fun _ => rfl
  have hkept : ∀ r ∈ c.requests, c.Live r → ∀ k, r.slot? = some k →
      ∃ w, c'.app.workers.worker r.agent = some w ∧ k ∈ w.in_flight := by
    intro r hr hl k hk
    obtain ⟨w, hw, hin⟩ := hI.taken r hr hl k hk
    rw [hworkers]
    rcases htracked with ⟨-, rfl⟩ | ⟨link, kind, w₀, -, -, -, rfl⟩
    · exact ⟨w, hw, hin⟩
    · rw [WorkerRegistry.worker_modify, hw]
      split
      · exact ⟨_, rfl, Finset.mem_insert_of_mem hin⟩
      · exact ⟨w, rfl, hin⟩
  -- the slot of the new request was free
  have hfree : ∀ k, Request.slot? ⟨agent, sid, cmd, .begun, false, false⟩ = some k →
      ∃ w, c.app.workers.worker agent = some w ∧ k ∉ w.in_flight ∧
        ∃ w', c'.app.workers.worker agent = some w' ∧ k ∈ w'.in_flight := by
    intro k hk
    unfold Request.slot? at hk
    rcases htracked with ⟨hnone, -⟩ | ⟨link, kind, w, hkey, hw, hnot, rfl⟩
    · rw [hnone] at hk
      exact absurd hk (by simp)
    · rw [hkey] at hk
      obtain rfl := Option.some.inj hk
      refine ⟨w, hw, hnot, { w with in_flight := insert (link.id, kind) w.in_flight }, ?_,
        Finset.mem_insert_self _ _⟩
      rw [hworkers, WorkerRegistry.worker_modify, if_pos rfl, hw]
      rfl
  have hclash : ∀ r ∈ c.requests, c.Live r → r.agent = agent → ∀ k, r.slot? = some k →
      Request.slot? ⟨agent, sid, cmd, .begun, false, false⟩ ≠ some k := by
    intro r hr hl hag k hk hnew
    obtain ⟨w, hw, hnot, -⟩ := hfree k hnew
    obtain ⟨w₀, hw₀, hin⟩ := hI.taken r hr hl k hk
    rw [hag, hw] at hw₀
    obtain rfl := Option.some.inj hw₀
    exact hnot hin
  refine ⟨fun r hr hl k hk => ?_, fun i j r r' hr hr' hl hl' hag k hk hk' => ?_⟩
  · rw [hrequests] at hr
    rcases List.mem_append.mp hr with hr | hr
    · exact hkept r hr (hlive r hl) k hk
    · obtain rfl := List.mem_singleton.mp hr
      obtain ⟨w, hw, hnot, hafter⟩ := hfree k hk
      exact hafter
  · rw [hrequests] at hr hr'
    rcases getElem?_concat hr with hr | ⟨hi, rfl⟩ <;> rcases getElem?_concat hr' with hr' | ⟨hj, rfl⟩
    · exact hI.unique i j r r' hr hr' (hlive r hl) (hlive r' hl') hag k hk hk'
    · exact absurd hk' (hclash r (List.mem_of_getElem? hr) (hlive r hl) hag k hk)
    · exact absurd hk (hclash r' (List.mem_of_getElem? hr') (hlive r' hl') hag.symm k hk')
    · rw [hi, hj]

/-- **Registering** keeps the slots of the links reported. -/
private theorem slotInv_register (hI : SlotInv c) {h : ℕ} {req : RegisterReq} {own : Option ℕ}
    (hok : ∀ r ∈ c.requests, c.Live r → r.agent = req.agent → ∀ k ∈ r.slot?,
      k.1 ∈ (req.links.map (WorkerRegistry.settle req.agent c.app.workers.inner.keys)).map
        LinkKey.id) : SlotInv (c.registerOn h req own) := by
  have hlive : ∀ r, (c.registerOn h req own).Live r → c.Live r := by
    intro r hl
    have hs : (c.app.workers.register req.agent req.links (Controller.ridOf req)
        (Controller.peerRidsOf req) req.loopback).1.session r.agent = some r.session := hl.1
    rw [WorkerRegistry.session_register] at hs
    exact ⟨hs, hl.2⟩
  refine slotInv_frame hI (fun j r hr => ⟨r, hr, rfl, rfl, hlive r⟩) (fun r hr hl k hk w hw hin => ?_)
  have hworker := WorkerRegistry.worker_register c.app.workers req.agent req.links
    (Controller.ridOf req) (Controller.peerRidsOf req) req.loopback r.agent
  by_cases ha : r.agent = req.agent
  · have hentry : c.app.workers.entry req.agent = w := by
      unfold WorkerRegistry.entry
      rw [← ha, hw]
      rfl
    rw [if_pos ha, hentry] at hworker
    exact ⟨_, hworker, Finset.mem_filter.mpr ⟨hin, hok r hr (hlive r hl) ha k hk⟩⟩
  · rw [if_neg ha, hw] at hworker
    exact ⟨_, hworker, hin⟩

/-- **Attaching** a session without requests under way. -/
private theorem slotInv_attach (hI : SlotInv c) {h : ℕ} {req : RegisterReq} {own : Option ℕ}
    (hok : (own.isSome ∧ own = (c.app.workers.entry req.agent).session.map Prod.fst) ∨
      ∀ r ∈ c.requests, r.agent = req.agent → r.session = h → ¬ r.Pending) :
    SlotInv (c.attachOn h req own) := by
  have hworker : ∀ a, (c.attachOn h req own).app.workers.worker a = _ :=
    fun a => WorkerRegistry.worker_attach c.app.workers req.agent h own a
  -- a request still under way is one of an agent whose entry is as it was
  have hsame : ∀ r ∈ c.requests, (c.attachOn h req own).Live r →
      (c.attachOn h req own).app.workers.worker r.agent = c.app.workers.worker r.agent := by
    intro r hr hl
    rw [hworker]
    split
    · rename_i ha
      have hs := hl.1
      unfold WorkerRegistry.session at hs
      rw [hworker, if_pos ha] at hs
      split
      · rename_i hnoop
        rw [if_pos hnoop] at hs
        unfold WorkerRegistry.entry at hs ⊢
        rw [← ha] at hs ⊢
        cases hw : c.app.workers.worker r.agent with
        | none => rw [hw] at hs; exact absurd hs (by simp [Worker.default])
        | some w => rfl
      · rename_i hnew
        rw [if_neg hnew] at hs
        have hsid : h = r.session := Option.some.inj hs
        exact absurd hl.2 (hok.resolve_left hnew r hr ha hsid.symm)
    · rfl
  refine slotInv_frame hI (fun j r hr => ⟨r, hr, rfl, rfl, fun hl => ⟨?_, hl.2⟩⟩)
    (fun r hr hl k hk w hw hin => ⟨w, (hsame r hr hl).trans hw, hin⟩)
  have hs := hl.1
  unfold WorkerRegistry.session at hs ⊢
  rw [hsame r (List.mem_of_getElem? hr) hl] at hs
  exact hs

/-- **Detaching** evicts the agent or leaves it. -/
private theorem slotInv_detach (hI : SlotInv c) (h : ℕ) (identity : Option (String × ℕ)) :
    SlotInv (c.detachOn h identity) := by
  cases identity with
  | none => exact slotInv_of_same hI (Controller.sameView_refl _ _) (requests_refl c)
  | some me =>
    have hworker : ∀ a, (c.detachOn h (some me)).app.workers.worker a = _ :=
      fun a => WorkerRegistry.worker_detach c.app.workers me.1 me.2 a
    have hsame : ∀ r, (c.detachOn h (some me)).Live r →
        (c.detachOn h (some me)).app.workers.worker r.agent = c.app.workers.worker r.agent := by
      intro r hl
      have hs := hl.1
      unfold WorkerRegistry.session at hs
      rw [hworker] at hs ⊢
      split at hs
      · exact absurd hs (by simp)
      · rename_i hstay
        rw [if_neg hstay]
    refine slotInv_frame hI (fun j r hr => ⟨r, hr, rfl, rfl, fun hl => ⟨?_, hl.2⟩⟩)
      (fun r hr hl k hk w hw hin => ⟨w, (hsame r hl).trans hw, hin⟩)
    have hs := hl.1
    unfold WorkerRegistry.session at hs ⊢
    rw [hsame r hl] at hs
    exact hs

/-- **Giving back** a slot that no request under way has. -/
private theorem slotInv_finish (hI : SlotInv c) {i : ℕ} {r : Request}
    (hr : c.requests[i]? = some r)
    (hok : ∀ r' ∈ c.requests, c.Live r' → r'.agent = r.agent → r'.slot?.isSome →
      r'.slot? ≠ r.slot?) : SlotInv (c.finishOn i r) := by
  have hreq := requests_set hr (x := { r with ended := true }) rfl rfl rfl id
  cases hkey : trackKey r.cmd with
  | none =>
    have hworkers : (c.finishOn i r).app.workers = c.app.workers := by
      unfold Controller.finishOn
      rw [hkey]
      rfl
    refine slotInv_of_same hI ?_ hreq
    rw [hworkers]
    exact Controller.sameView_refl _ _
  | some lk =>
    have hworkers : (c.finishOn i r).app.workers = c.app.workers.endCmd r.agent lk.1 lk.2 := by
      unfold Controller.finishOn
      rw [hkey]
      rfl
    have hback : ∀ (j : ℕ) r', (c.finishOn i r).requests[j]? = some r' →
        ∃ r₀, c.requests[j]? = some r₀ ∧ r'.agent = r₀.agent ∧ r'.slot? = r₀.slot? ∧
          ((c.finishOn i r).Live r' → c.Live r₀) := by
      intro j r' hr'
      obtain ⟨r₀, hr₀, hag, hsess, hcmd, hpend⟩ := hreq j r' hr'
      refine ⟨r₀, hr₀, hag, by unfold Request.slot?; rw [hcmd], fun hl => ⟨?_, hpend hl.2⟩⟩
      have hs := hl.1
      rw [hworkers, hag, hsess] at hs
      unfold WorkerRegistry.endCmd at hs
      rw [WorkerRegistry.session_modify] at hs
      · exact hs
      · exact fun _ => rfl
    refine slotInv_frame hI hback (fun r' hr' hl k hk w hw hin => ?_)
    rw [hworkers, WorkerRegistry.endCmd, WorkerRegistry.worker_modify, hw]
    split
    · rename_i hag
      refine ⟨_, rfl, Finset.mem_erase.mpr ⟨fun hkeq => ?_, hin⟩⟩
      obtain ⟨j, hj⟩ := List.getElem?_of_mem hr'
      obtain ⟨r₀, hr₀, hag₀, hslot, hlive⟩ := hback j r' hj
      have hne := hok r₀ (List.mem_of_getElem? hr₀) (hlive hl) (hag₀ ▸ hag)
      rw [← hslot, hk] at hne
      refine hne rfl ?_
      unfold Request.slot?
      rw [hkey, hkeq]
      rfl
    · exact ⟨w, rfl, hin⟩

variable [LinearOrder F] [Zero F] [Add F]

/-- **Step lemma.** Every operation that meets `FreesNoLiveSlot` keeps the invariant. -/
theorem slotInv_step {c c' : Controller F} {e : Event F} (hI : SlotInv c)
    (hok : FreesNoLiveSlot c e) (hs : c.step e = some c') : SlotInv c' := by
  -- the parts of a worker the other operations write have no slots in them
  have hissue : ∀ (w : Worker) m, Worker.slots { w with last_issue := m } = w.slots :=
    fun _ _ => rfl
  have hcosts : ∀ (w : Worker) m m',
      Worker.slots { w with apply_retry_at := m, applied_sent := m' } = w.slots :=
    fun _ _ _ => rfl
  have hlinks : ∀ (w : Worker) (lookup : String → Option String),
      Worker.slots { w with links := w.links.map (WorkerRegistry.named w lookup) } = w.slots :=
    fun _ _ => rfl
  cases Controller.moves_of_step hs with
  | opened | fetch | release | post =>
    exact slotInv_of_same hI (Controller.sameView_refl _ _) (requests_refl c)
  | register hx hidle hown => exact slotInv_register hI hok
  | sync hx | rename =>
    exact slotInv_of_same hI (Controller.sameView_resolvePeers hlinks _ _) (requests_refl c)
  | attach hx => exact slotInv_attach hI (hok _ hx _ rfl)
  | detach hx hidle => exact slotInv_detach hI _ _
  | begin => exact slotInv_claim hI _ _ _
  | send hr hphase =>
    exact slotInv_of_same hI (Controller.sameView_refl _ _)
      (requests_set hr rfl rfl rfl (fun _ => Or.inl hphase))
  | mark hr =>
    exact slotInv_of_same hI (Controller.sameView_markSent hissue hcosts _ _ _ _)
      (requests_set hr rfl rfl rfl id)
  | reply hr hphase =>
    exact slotInv_of_same hI (Controller.sameView_handleReply hcosts _ _ _)
      (requests_set hr rfl rfl rfl (fun _ => Or.inr hphase))
  | fail hr hphase =>
    exact slotInv_of_same hI (Controller.sameView_onFailure hcosts _ _ _ _)
      (requests_set hr rfl rfl rfl (fun _ => Or.inr hphase))
  | finish hr => exact slotInv_finish hI hr (hok _ hr)
  | acquire =>
    obtain ⟨leases, heq, -⟩ := c.acquireFor_cases _ _ _ _
    rw [heq]
    exact slotInv_of_same hI (Controller.sameView_refl _ _) (requests_refl c)

/-! ### Runs -/

omit [LinearOrder F] [Zero F] [Add F] in
private theorem slotInv_init (tsdb : Tsdb F) : SlotInv (Controller.init tsdb) :=
  ⟨fun _ hr => absurd hr List.not_mem_nil, fun i _ _ _ hr => absurd hr (by simp [Controller.init])⟩

/-- The link of the runs below. -/
private def probedLink : LinkKey := ⟨"spoke-1", "hub-a", "awg0"⟩

/-- A session that registers the agent with its link. -/
private def connect (h : ℕ) : List (Event ℕ) :=
  [.open, .register h ⟨"spoke-1", none, [probedLink], [], none⟩, .sync h (fun _ => none), .attach h]

/-- An always probe, the `i`-th request, sent on a session. -/
private def probe (i sid : ℕ) : List (Event ℕ) :=
  [.fetch "spoke-1", .begin "spoke-1" sid (.probe "" .always none probedLink none), .send i]

end Mielofon
