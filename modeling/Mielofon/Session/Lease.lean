import Mathlib
import Mielofon.Session.Controller

namespace Mielofon

open Lib

/-!
# When a throughput lease is released

A lease is stored under the id of the link the throughput command was dispatched for.  The
failure of the command releases it under that id.  Its reply is first given the far end's
registered name, and the lease is released under the id of the link so named: when the far
end has registered meanwhile under another spelling, that is another id.

* `Controller.Holds` — a lease with the token is stored;
* `LeaseInv`, `leaseInv_step` — leases are stored under the id of their link, and a token is
  drawn once;
* `lease_released_iff` — what a reply and a failure leave of the command's lease, in every run;
* `renamed_reply_keeps_lease` — a run in which the reply releases nothing.
-/

variable {F : Type*}

/-- A lease with the token is stored in the fence. -/
def Controller.Holds (c : Controller F) (token : String) : Prop :=
  ∃ k l, c.app.fence.lease.get k = some l ∧ l.token = token

/-- Stored leases were granted, under the id of their link; tokens are not drawn twice; a
    throughput command carries the token of a lease granted for its link. -/
structure LeaseInv (c : Controller F) : Prop where
  stored : ∀ k l, c.app.fence.lease.get k = some l → l ∈ c.leases ∧ l.link = k
  fresh : ∀ l ∈ c.leases, ∀ l' ∈ c.leases, l.token = l'.token → l.link = l'.link
  leased : ∀ r ∈ c.requests, ∀ id token link tp,
    r.cmd = .probe id .throughput (some token) link tp →
      ∃ l ∈ c.leases, l.token = token ∧ l.link = link.id

/-- A lease with the token of a throughput command is stored under the id of its link. -/
theorem LeaseInv.key_eq {c : Controller F} (hI : LeaseInv c) {r : Request} (hr : r ∈ c.requests)
    {id token : String} {link : LinkKey} {tp : Option String}
    (hcmd : r.cmd = .probe id .throughput (some token) link tp) {k : String} {l : Lease}
    (hl : c.app.fence.lease.get k = some l) (htoken : l.token = token) : k = link.id := by
  obtain ⟨hmem, hkey⟩ := hI.stored k l hl
  obtain ⟨l', hl', htoken', hlink⟩ := hI.leased r hr id token link tp hcmd
  rw [← hkey, ← hlink]
  exact hI.fresh l hmem l' hl' (htoken.trans htoken'.symm)

/-- An operation that grants no lease and dispatches nothing. -/
private theorem leaseInv_of_shrink {c c' : Controller F} (hI : LeaseInv c)
    (hfence : ∀ k l, c'.app.fence.lease.get k = some l → c.app.fence.lease.get k = some l)
    (hleases : c'.leases = c.leases)
    (hreq : ∀ r' ∈ c'.requests, ∃ r ∈ c.requests, r'.cmd = r.cmd) : LeaseInv c' := by
  refine ⟨fun k l hl => ?_, ?_, fun r' hr' id token link tp hcmd => ?_⟩
  · rw [hleases]
    exact hI.stored k l (hfence k l hl)
  · rw [hleases]
    exact hI.fresh
  · obtain ⟨r, hr, heq⟩ := hreq r' hr'
    rw [hleases]
    exact hI.leased r hr id token link tp (heq ▸ hcmd)

/-- Requests of which one has moved on carry the same commands. -/
private theorem cmds_set {l : List Request} {i : ℕ} {r x : Request} (hr : l[i]? = some r)
    (hcmd : x.cmd = r.cmd) : ∀ r' ∈ l.set i x, ∃ r ∈ l, r'.cmd = r.cmd := by
  intro r' hr'
  rcases List.mem_or_eq_of_mem_set hr' with hmem | rfl
  · exact ⟨r', hmem, rfl⟩
  · exact ⟨r, List.mem_of_getElem? hr, hcmd⟩

private theorem cmds_refl (l : List Request) : ∀ r' ∈ l, ∃ r ∈ l, r'.cmd = r.cmd :=
  fun r' hr' => ⟨r', hr', rfl⟩

private theorem fence_onFailure {st : AppState F} {agent : String} {cmd : WorkCmd} {now : ℕ}
    {k : String} {l : Lease} (h : (onFailure st agent cmd now).fence.lease.get k = some l) :
    st.fence.lease.get k = some l := by
  unfold onFailure at h
  split at h
  · exact Fence.get_of_get_release h
  · exact h
  · exact h
  · exact h

variable [LinearOrder F] [Zero F] [Add F]

private theorem fence_ingestQuality {st : AppState F} {m : Measure F} {now : ℕ} {k : String}
    {l : Lease} (h : (ingestQuality st m now).fence.lease.get k = some l) :
    st.fence.lease.get k = some l := by
  unfold ingestQuality at h
  dsimp only at h
  split at h
  · exact Fence.get_of_get_release h
  · exact h

/-- A probe reply releases under the id of the link as the registry names its far end. -/
theorem fence_probe (st : AppState F) (p : ProbeReply F) (now : ℕ) :
    (handleReply st (.probe p) now).fence = match p.token with
      | some t => (st.fence.release
          { p.link with «to» := st.workers.canonicalPeer p.link.to : LinkKey }.id t).1
      | none => st.fence := rfl

private theorem fence_handleReply {st : AppState F} {reply : AgentReply F} {now : ℕ} {k : String}
    {l : Lease} (h : (handleReply st reply now).fence.lease.get k = some l) :
    st.fence.lease.get k = some l := by
  cases reply with
  | probe p =>
    rw [fence_probe] at h
    split at h
    · exact Fence.get_of_get_release h
    · exact h
  | applied agent id link cost note tp => cases note <;> exact h
  | trace agent id => exact h

/-- **Step lemma.** -/
theorem leaseInv_step {c c' : Controller F} {e : Event F} (hI : LeaseInv c)
    (hs : c.step e = some c') : LeaseInv c' := by
  cases Controller.moves_of_step hs with
  | opened | register | sync | attach | detach | rename | fetch =>
    exact leaseInv_of_shrink hI (fun _ _ h => h) rfl (cmds_refl _)
  | @begin agent sid cmd hdisp =>
    rcases c.claim_cases agent sid cmd with heq | ⟨workers, heq, -⟩
    · rw [heq]
      exact leaseInv_of_shrink hI (fun _ _ h => h) rfl (cmds_refl _)
    · rw [heq]
      refine ⟨hI.stored, hI.fresh, fun r hr id token link tp hcmd => ?_⟩
      rcases List.mem_append.mp hr with hr | hr
      · exact hI.leased r hr id token link tp hcmd
      · -- a throughput command is dispatched under a lease
        obtain rfl := List.mem_singleton.mp hr
        have hcmd : cmd = _ := hcmd
        subst hcmd
        obtain ⟨l, hl, htoken, hlink⟩ := hdisp
        exact ⟨l, hl, (Option.some.inj htoken).symm, hlink⟩
  | send hr => exact leaseInv_of_shrink hI (fun _ _ h => h) rfl (cmds_set hr rfl)
  | mark hr => exact leaseInv_of_shrink hI (fun _ _ h => h) rfl (cmds_set hr rfl)
  | reply hr => exact leaseInv_of_shrink hI (fun _ _ h => fence_handleReply h) rfl (cmds_set hr rfl)
  | fail hr => exact leaseInv_of_shrink hI (fun _ _ h => fence_onFailure h) rfl (cmds_set hr rfl)
  | finish hr => exact leaseInv_of_shrink hI (fun _ _ h => h) rfl (cmds_set hr rfl)
  | @acquire agent link token now hfresh =>
    obtain ⟨leases, heq, hleases⟩ := c.acquireFor_cases agent link token now
    rw [heq]
    rcases hleases with ⟨rfl, busy, herr⟩ | ⟨rfl, -⟩
    · exact leaseInv_of_shrink hI (fun _ _ h => Fence.get_acquire_of_error herr h)
        (List.append_nil _) (cmds_refl _)
    · refine ⟨fun k l hl => ?_, fun l hl l' hl' htoken => ?_, fun r hr id tok link' tp hcmd => ?_⟩
      · rcases Fence.get_acquire hl with hold | ⟨hk, rfl⟩
        · obtain ⟨hmem, hkey⟩ := hI.stored k l hold
          exact ⟨List.mem_append_left _ hmem, hkey⟩
        · exact ⟨List.mem_append_right _ (List.mem_singleton_self _), hk.symm⟩
      · rcases List.mem_append.mp hl with hl | hl <;> rcases List.mem_append.mp hl' with hl' | hl'
        · exact hI.fresh l hl l' hl' htoken
        · rw [List.mem_singleton.mp hl'] at htoken
          exact absurd htoken (hfresh l hl)
        · rw [List.mem_singleton.mp hl] at htoken
          exact absurd htoken.symm (hfresh l' hl')
        · rw [List.mem_singleton.mp hl, List.mem_singleton.mp hl']
      · obtain ⟨l, hl, htoken, hlink⟩ := hI.leased r hr id tok link' tp hcmd
        exact ⟨l, List.mem_append_left _ hl, htoken, hlink⟩
  | release => exact leaseInv_of_shrink hI (fun _ _ h => Fence.get_of_get_release h) rfl (cmds_refl _)
  | post => exact leaseInv_of_shrink hI (fun _ _ h => fence_ingestQuality h) rfl (cmds_refl _)

omit [LinearOrder F] [Zero F] [Add F] in
private theorem leaseInv_init (tsdb : Tsdb F) : LeaseInv (Controller.init tsdb) :=
  ⟨fun _ _ h => absurd (show none = some _ from h) (by simp),
    fun _ hl => absurd hl List.not_mem_nil, fun _ hr => absurd hr List.not_mem_nil⟩

/-- **When a lease is released.** In every run, when the reply to a throughput command is
    handled, no lease of the command stays stored if and only if none was stored any more or
    the registry leaves the name of the link's far end as it is; when its failure is handled,
    none stays stored. -/
theorem lease_released_iff {tsdb : Tsdb F} {c : Controller F}
    (h : Runs Controller.step Always (Controller.init tsdb) c) {i : ℕ} {r : Request}
    (hr : c.requests[i]? = some r) {id token : String} {link : LinkKey} {tp : Option String}
    (hcmd : r.cmd = .probe id .throughput (some token) link tp) :
    (∀ reply now c', c.step (.reply i reply now) = some c' →
      (¬ c'.Holds token ↔ ¬ c.Holds token ∨ c.app.workers.canonicalPeer link.to = link.to)) ∧
    ∀ now c', c.step (.fail i now) = some c' → ¬ c'.Holds token := by
  have hI : LeaseInv c := h.invariant (leaseInv_init tsdb) (fun _ _ _ hI _ hs => leaseInv_step hI hs)
  have hmem := List.mem_of_getElem? hr
  constructor
  · intro reply now c' hs
    cases Controller.moves_of_step hs with
    | @reply _ _ r' _ hr' hphase hecho =>
      obtain rfl : r' = r := Option.some.inj (hr'.symm.trans hr)
      rw [hcmd] at hecho
      cases reply with
      | applied => exact hecho.elim
      | trace => exact hecho.elim
      | probe p =>
      obtain ⟨-, -, htoken, hlink⟩ := hecho
      have hfence := fence_probe c.app p now
      rw [htoken, hlink] at hfence
      dsimp only at hfence
      have hafter : ∀ k, (c.replyOn i r' (.probe p) now).app.fence.lease.get k = _ := fun k =>
        (congrArg (fun f => f.lease.get k) hfence).trans (Fence.get_release _ _ _ k)
      constructor
      · intro hnone
        by_contra hcon
        rw [not_or, not_not] at hcon
        obtain ⟨⟨k, l, hl, htok⟩, hrenamed⟩ := hcon
        -- under its own id the lease is not looked for
        refine hnone ⟨k, l, ?_, htok⟩
        rw [hafter, if_neg, hl]
        rintro ⟨hk, -⟩
        have hkey := hI.key_eq hmem hcmd hl htok
        exact hrenamed (LinkKey.to_eq_of_id_eq (hk.symm.trans hkey))
      · rintro hor ⟨k, l, hl, htok⟩
        rw [hafter] at hl
        split at hl
        · exact absurd hl (by simp)
        · rename_i hkept
          rcases hor with hnone | hcanon
          · exact hnone ⟨k, l, hl, htok⟩
          · have hkey := hI.key_eq hmem hcmd hl htok
            subst hkey
            refine hkept ⟨by rw [hcanon], ?_⟩
            rw [hcanon, hl, Option.map_some, htok]
  · intro now c' hs
    cases Controller.moves_of_step hs with
    | @fail _ _ r' hr' hphase =>
      obtain rfl : r' = r := Option.some.inj (hr'.symm.trans hr)
      rintro ⟨k, l, hl, htoken⟩
      have hfence : (c.failOn i r' now).app.fence = (c.app.fence.release link.id token).1 := by
        show (onFailure c.app r'.agent r'.cmd now).fence = _
        rw [hcmd]
        rfl
      rw [hfence] at hl
      have hold := Fence.get_of_get_release hl
      obtain rfl := hI.key_eq hmem hcmd hold htoken
      rw [Fence.get_release, if_pos ⟨rfl, by rw [hold, Option.map_some, htoken]⟩] at hl
      exact absurd hl (by simp)

/-! ### A far end that registers during the test -/

/-- The link as the agent's BIRD spells its far end. -/
private def spelled : LinkKey := ⟨"spoke-1", "node.0", "awg0"⟩

/-- A throughput test of the link under way, after a session registered the agent. -/
private def testing : List (Event ℕ) :=
  [.open, .register 0 ⟨"spoke-1", none, [spelled], [], none⟩, .sync 0 (fun _ => none), .attach 0,
    .acquire "spoke-1" spelled "t1" 60, .fetch "spoke-1",
    .begin "spoke-1" 0 (.probe "p1" .throughput (some "t1") spelled none), .send 0]

/-- The reply to the test. -/
private def tested : AgentReply ℕ :=
  .probe ⟨"spoke-1", "p1", spelled, some 61, none, none, none, some 20, none, none, none, 0, .quiet,
    some "t1", none, none, []⟩

/-- While the far end is not registered the reply releases the lease. -/
theorem lease_released_quiet : ∃ c c' : Controller ℕ,
    Runs Controller.step Always (Controller.init (Tsdb.new ⟨"", 7200, 86400⟩)) c ∧
      c.Holds "t1" ∧ c.step (.reply 0 tested 61) = some c' ∧ ¬ c'.Holds "t1" := by
  have hrun : exec Controller.step Always (Controller.init (Tsdb.new ⟨"", 7200, 86400⟩)) testing =
      some _ := rfl
  have hruns := Runs.of_exec _ hrun
  have hlease := lease_released_iff hruns (i := 0) rfl rfl
  refine ⟨_, _, hruns, ⟨"spoke-1/node.0/awg0", _, rfl, rfl⟩, rfl, ?_⟩
  exact (hlease.1 tested 61 _ rfl).mpr (Or.inr (by decide))

/-- **A reply that releases nothing.** The far end registers as `node-0` while the test of the
    link to `node.0` runs: the reply is given that name, and the lease stays. -/
theorem renamed_reply_keeps_lease : ∃ c c' : Controller ℕ,
    Runs Controller.step Always (Controller.init (Tsdb.new ⟨"", 7200, 86400⟩)) c ∧
      c.step (.reply 0 tested 61) = some c' ∧ c'.Holds "t1" := by
  have hrun : exec Controller.step Always (Controller.init (Tsdb.new ⟨"", 7200, 86400⟩))
      (testing ++ [.open, .register 1 ⟨"node-0", none, [], [], none⟩]) = some _ := rfl
  have hruns := Runs.of_exec _ hrun
  exact ⟨_, _, hruns, rfl, "spoke-1/node.0/awg0", _, rfl, rfl⟩

end Mielofon
