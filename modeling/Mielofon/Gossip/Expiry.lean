import Mielofon.Gossip.Cluster

namespace Mielofon

open Lib

/-!
# Expiry under gossip

A prune removes a record and leaves no trace of it, so a merge that brings the record back
finds nothing newer to keep it out.  A pruned record therefore stays away from a member
exactly when no copy of it is left elsewhere.

* `Forgotten` — no later state of the member holds a record of the link as old as `t`;
* `Superseded` — every copy outside the member is newer than `t`;
* `forgotten_iff_superseded` — after a prune the two are equivalent;
* `gossip_restores_pruned` — two members, where the record comes back.
-/

variable {F M : Type*} [DecidableEq M] {grace : ℕ} {c c' : Cluster M F} {m : M} {k : LinkKey}
  {r : QualityRecord F}

/-- As long as no member derives a new record for `k`, member `m` never holds one that is as
    old as `t`. -/
def Forgotten (grace : ℕ) (m : M) (k : LinkKey) (t : ℕ) (c : Cluster M F) : Prop :=
  ∀ c', Runs (step grace) (NoPut k) c c' → ∀ r, (c'.kv m).get k = some r → t < r.ts

/-- Every record of `k` in another store or carried by an exchange is newer than `t`. -/
def Superseded (m : M) (k : LinkKey) (t : ℕ) (c : Cluster M F) : Prop :=
  (∀ p, p ≠ m → ∀ r, (c.kv p).get k = some r → t < r.ts) ∧
    ∀ msg ∈ c.flight, ∀ r, (k, r) ∈ msg.records → t < r.ts

/-! ### A copy anywhere reaches a member that holds nothing -/

/-- A member without a record of `k` stores the one a view brings. -/
theorem absorb_get_of_mem {kv : M → LwwStore F} {v : View F} {nodes : List (String × NodeEntry)}
    (hnone : (kv m).get k = none) (hr : (k, r) ∈ v.records) :
    (absorb kv m v nodes m).get k = some r := by
  rw [absorb_self_get, LwwStore.get_merge_of_nodup v.nodup hr, hnone]
  exact if_pos (Nat.zero_le _)

/-- An exchange that carries a record of `k` can bring it to its target, and to it alone. -/
theorem exists_run_deliver (grace : ℕ) {i : ℕ} {msg : Msg M F} (hi : c.flight[i]? = some msg)
    (hr : (k, r) ∈ msg.records) (hnone : (c.kv msg.target).get k = none) :
    ∃ c', Runs (step grace) (NoPut k) c c' ∧ (c'.kv msg.target).get k = some r ∧
      ∀ p, p ≠ msg.target → c'.kv p = c.kv p := by
  have hlt : i < c.flight.length := (List.getElem?_eq_some_iff.mp hi).1
  cases msg with
  | queued src dst v =>
    -- send the request, then let the responder merge it
    have h1 : step grace c (.advance i) =
        some ⟨c.kv, c.flight.set i (.request src dst v (c.kv src).allNodes)⟩ := by
      simp only [step, hi]; rfl
    have h2 : step grace ⟨c.kv, c.flight.set i (.request src dst v (c.kv src).allNodes)⟩
        (.advance i) = some ⟨absorb c.kv dst v (c.kv src).allNodes,
          (c.flight.set i (.request src dst v (c.kv src).allNodes)).set i (.merged src dst)⟩ := by
      simp only [step, List.getElem?_set_self hlt]; rfl
    exact ⟨_, Runs.cons (.advance i) trivial h1 (Runs.cons (.advance i) trivial h2 (Runs.refl _)),
      absorb_get_of_mem hnone hr, fun p hp => absorb_of_ne _ _ _ hp⟩
  | request src dst v nodes =>
    have h1 : step grace c (.advance i) =
        some ⟨absorb c.kv dst v nodes, c.flight.set i (.merged src dst)⟩ := by
      simp only [step, hi]; rfl
    exact ⟨_, Runs.cons (.advance i) trivial h1 (Runs.refl _), absorb_get_of_mem hnone hr,
      fun p hp => absorb_of_ne _ _ _ hp⟩
  | merged src dst => exact absurd hr List.not_mem_nil
  | reply src dst v nodes =>
    have h1 : step grace c (.advance i) = some ⟨absorb c.kv src v nodes, c.flight.eraseIdx i⟩ := by
      simp only [step, hi]; rfl
    exact ⟨_, Runs.cons (.advance i) trivial h1 (Runs.refl _), absorb_get_of_mem hnone hr,
      fun p hp => absorb_of_ne _ _ _ hp⟩

/-- Another member that holds a record of `k` can push it. -/
theorem exists_run_push (grace : ℕ) {p : M} (hpm : p ≠ m) (hr : (c.kv p).get k = some r)
    (hnone : (c.kv m).get k = none) :
    ∃ c', Runs (step grace) (NoPut k) c c' ∧ (c'.kv m).get k = some r := by
  have hpush : step grace c (.push p m) =
      some { c with flight := c.flight ++ [.queued p m (c.kv p).view] } := by
    simp only [step, if_neg hpm]
  obtain ⟨c', hrun, hc', -⟩ := exists_run_deliver grace
    (c := { c with flight := c.flight ++ [.queued p m (c.kv p).view] })
    List.getElem?_concat_length (mem_view.mpr hr) hnone
  exact ⟨c', Runs.cons (.push p m) trivial hpush hrun, hc'⟩

/-- A prune late enough leaves a member without a record of `k`. -/
theorem exists_prune_none (grace : ℕ) (s : LwwStore F) (k : LinkKey) :
    ∃ now, (s.prune now grace).get k = none := by
  cases hs : s.get k with
  | none => exact ⟨0, by rw [LwwStore.get_prune, hs]; rfl⟩
  | some r => exact ⟨r.ts + grace + 1, LwwStore.get_prune_of_expired hs (by omega)⟩

/-- Every copy of a record of `k` can reach a member that holds none. -/
theorem exists_run_of_copy (grace : ℕ) (hnone : (c.kv m).get k = none) (hcopy : c.Copy k r) :
    ∃ c', Runs (step grace) (NoPut k) c c' ∧ (c'.kv m).get k = some r := by
  rcases hcopy with ⟨p, hp⟩ | ⟨msg, hmsg, hr⟩
  · refine exists_run_push grace (fun hpm => ?_) hp hnone
    subst hpm
    rw [hnone] at hp
    exact absurd hp (by simp)
  obtain ⟨i, hi⟩ := List.mem_iff_getElem?.mp hmsg
  by_cases htm : msg.target = m
  · subst htm
    obtain ⟨c', hrun, hc', -⟩ := exists_run_deliver grace hi hr hnone
    exact ⟨c', hrun, hc'⟩
  -- the target expires what it holds, takes the record and pushes it on
  obtain ⟨now, hnow⟩ := exists_prune_none grace (c.kv msg.target) k
  let c₁ : Cluster M F :=
    { c with kv := Function.update c.kv msg.target ((c.kv msg.target).prune now grace) }
  have hprune : step grace c (.prune msg.target now) = some c₁ := rfl
  have htarget : (c₁.kv msg.target).get k = none := by
    simp only [c₁, Function.update_self]; exact hnow
  have hm₁ : (c₁.kv m).get k = none := by
    simp only [c₁, Function.update_of_ne (Ne.symm htm)]; exact hnone
  obtain ⟨c₂, hrun₂, hc₂, hframe⟩ := exists_run_deliver grace (c := c₁) hi hr htarget
  have hm₂ : (c₂.kv m).get k = none := by rw [hframe m (Ne.symm htm)]; exact hm₁
  obtain ⟨c₃, hrun₃, hc₃⟩ := exists_run_push grace htm hc₂ hm₂
  exact ⟨c₃, Runs.cons (.prune msg.target now) trivial hprune (hrun₂.trans hrun₃), hc₃⟩

/-! ### What keeps a record away -/

/-- Every record of `k` that a run without a put on `k` leads to was there at its start. -/
theorem copy_of_runs (h : Runs (step grace) (NoPut k) c c') (hcopy : c'.Copy k r) :
    c.Copy k r := by
  have hinv : ∀ r, c'.Copy k r → c.Copy k r :=
    h.invariant (I := fun c' => ∀ r, c'.Copy k r → c.Copy k r) (fun r hr => hr)
      (fun t a t' ih hok hs r hr => ih r (copy_of_step hok hs hr))
  exact hinv r hcopy

/-- A member that holds no record of `k` stays free of records as old as `t` exactly when
    every copy there is is newer. -/
theorem forgotten_iff_copy (hnone : (c.kv m).get k = none) {t : ℕ} :
    Forgotten grace m k t c ↔ ∀ r, c.Copy k r → t < r.ts := by
  constructor
  · intro hforgot r hr
    obtain ⟨c', hrun, hc'⟩ := exists_run_of_copy grace hnone hr
    exact hforgot c' hrun r hc'
  · intro hnewer c' hrun r hr
    exact hnewer r (copy_of_runs hrun (Or.inl ⟨m, hr⟩))

/-- **When a pruned record stays away.** After member `m` pruned the record `r` of `k` as
    older than the grace, no run brings a record of `k` as old as `r` back to `m`, if and only
    if every copy outside `m` was newer than `r` at that moment. -/
theorem forgotten_iff_superseded {now : ℕ} (hr : (c.kv m).get k = some r)
    (hold : grace < now - r.ts) (hprune : step grace c (.prune m now) = some c') :
    Forgotten grace m k r.ts c' ↔ Superseded m k r.ts c := by
  obtain rfl := Option.some.inj hprune
  have hnone : ((Function.update c.kv m ((c.kv m).prune now grace)) m).get k = none := by
    rw [Function.update_self]; exact LwwStore.get_prune_of_expired hr hold
  rw [forgotten_iff_copy hnone]
  constructor
  · intro hnewer
    refine ⟨fun p hp r' hr' => hnewer r' (Or.inl ⟨p, ?_⟩),
      fun msg hmsg r' hr' => hnewer r' (Or.inr ⟨msg, hmsg, hr'⟩)⟩
    simp only [Function.update_of_ne hp]
    exact hr'
  · rintro ⟨hstores, hflight⟩ r' (⟨p, hp⟩ | ⟨msg, hmsg, hr'⟩)
    · by_cases hpm : p = m
      · subst hpm
        rw [hnone] at hp
        exact absurd hp (by simp)
      · simp only [Function.update_of_ne hpm] at hp
        exact hstores p hpm r' hp
    · exact hflight msg hmsg r' hr'

/-! ### Two members -/

/-- A record of a link, dated 1. -/
def sampleRecord : QualityRecord ℕ :=
  { ts := 1, rtt_ms := some 10, loss_pct := none, jitter_ms := none, tcp_mbps := none,
    udp_mbps := none, udp_jitter_ms := none, udp_loss_pct := none, util_mbps := 0,
    state := .quiet, quality := some .good, ospf_cost := some 10, mark_loss_pct := none,
    mark_rate_mbps := none, implied_tcp_mbps := none, regime := none }

/-- Its link. -/
def sampleKey : LinkKey := ⟨"hub-a", "hub-b", "awg0"⟩

/-- A cluster of two in which only the second member holds a record. -/
def loneCopy : Cluster Bool ℕ :=
  ⟨Function.update (fun _ => LwwStore.new) true (LwwStore.new.put sampleKey sampleRecord).1, []⟩

/-- The only copy of the cluster, once pruned, is gone for good. -/
theorem loneCopy_forgotten :
    ∃ c', step 10 loneCopy (.prune true 20) = some c' ∧ Forgotten 10 true sampleKey 1 c' := by
  refine ⟨_, rfl, (forgotten_iff_superseded (r := sampleRecord) (by decide) (by decide)
    rfl).mpr ⟨?_, ?_⟩⟩
  · intro p hp r hr
    cases p with
    | false =>
      have hnone : (loneCopy.kv false).get sampleKey = none := rfl
      rw [hnone] at hr
      exact absurd hr (by simp)
    | true => exact absurd rfl hp
  · intro msg hmsg
    exact absurd hmsg List.not_mem_nil

/-- A run of two members: the second derives a record and pushes it to the first. -/
def shared : List (Action Bool ℕ) :=
  [.put true sampleKey sampleRecord, .push true false, .advance 0, .advance 0]

/-- **Gossip restores a pruned record.** The first member expires the record, the second has
    not pruned yet and pushes it back. -/
theorem gossip_restores_pruned :
    ∃ c c' : Cluster Bool ℕ, Runs (step 10) Always Cluster.init c ∧
      (c.kv false).get sampleKey = some sampleRecord ∧ 10 < 20 - sampleRecord.ts ∧
      step 10 c (.prune false 20) = some c' ∧ ¬ Forgotten 10 false sampleKey sampleRecord.ts c' := by
  refine ⟨_, _, Runs.of_exec shared rfl, by decide, by decide, rfl, fun hforgot => ?_⟩
  have hnewer := hforgot _ (Runs.of_exec [.push true false, .advance 1, .advance 1] rfl)
    sampleRecord (by decide)
  exact absurd hnewer (by decide)

end Mielofon
