import Mathlib
import Mielofon.Session.Lease

namespace Mielofon

open Lib

/-!
# What a reply touches

A reply comes back on the stream of its command, but `handle_reply` (`session.rs`) is given the
reply alone: the link, the agent and the token it names decide which history, which bookkeeping
and which lease are changed.

* `LinkHistory`, `Tsdb.historyOf` — all that the store holds about one link;
* `Worker.onLink`, `Worker.registered` — the bookkeeping of one link, and the rest of an agent;
* `Dispatched`, `Confined` — a command, and that only what is its own has changed;
* `historyOf_appendAll_iff` — samples change the history of a link unless its ring refuses them all;
* `AboutCommand`, `confined_iff` — a reply is confined to its command exactly if it is about it.
-/

variable {F : Type*}

/-! ### The history of a link -/

/-- What the store holds about one link: samples, buckets, log entries, and the rows and buckets
    that wait for the next flush. -/
structure LinkHistory (F : Type*) where
  ring : Ring F
  minutes : Minutes F
  log : List (Entry F)
  queued : List (LinkKey × RawSample F)
  dirty : ℕ → Option (Bucket F)

namespace Tsdb

def historyOf (t : Tsdb F) (l : LinkKey) : LinkHistory F :=
  { ring := t.ringOf l
    minutes := t.minutesOf l
    log := t.recent.filter (fun e => e.2.1 = l)
    queued := t.pending.filter (fun p => p.1 = l)
    dirty := fun ts => t.dirty.get (l, ts) }

section Append

variable [LinearOrder F] [Zero F] [Add F] {t : Tsdb F} {link l : LinkKey} {s : RawSample F}

/-- **Frame.** A sample of one link leaves the history of every other. -/
theorem historyOf_append_of_ne (t : Tsdb F) (s : RawSample F) (h : l ≠ link) :
    (t.append link s).historyOf l = t.historyOf l := by
  have hring : (t.append link s).ringOf l = t.ringOf l := by
    rw [append, ringOf_ingest, if_neg h]
  cases hacc : ((t.ringOf link).offer s).2 with
  | none =>
    rw [append, ingest_of_refused true hacc] at hring ⊢
    simp only [historyOf, hring]
    rfl
  | some acc =>
    rw [append, ingest_of_accepted true hacc] at hring ⊢
    -- what was written is stored under the other link
    have hminutes : (t.buckets.set link ((t.minutesOf link).update acc)).get l = t.buckets.get l :=
      Map.get_set_ne _ _ h
    have hlog : (t.recent ++ [(t.seq, link, acc.sample)]).filter (fun e => e.2.1 = l) =
        t.recent.filter (fun e => e.2.1 = l) := by simp [Ne.symm h]
    have hqueued : (t.pending ++ t.rowsFor link acc.sample true).filter (fun p => p.1 = l) =
        t.pending.filter (fun p => p.1 = l) := by
      unfold rowsFor
      split <;> simp [Ne.symm h]
    have hdirty : ∀ ts, (t.dirty.set (link, bucketTs acc.sample.ts) (Minutes.rolled
        ((t.minutesOf link).bucketAt (bucketTs acc.sample.ts)) acc)).get (l, ts) =
          t.dirty.get (l, ts) := fun ts => Map.get_set_ne _ _ (by simp [h])
    exact LinkHistory.mk.injEq .. ▸
      ⟨hring, congrArg (·.getD Minutes.empty) hminutes, hlog, hqueued, funext hdirty⟩

/-- A sample the ring refuses leaves every history. -/
theorem historyOf_append_of_refused (h : ((t.ringOf link).offer s).2 = none) (l : LinkKey) :
    (t.append link s).historyOf l = t.historyOf l := by
  have hring : (t.append link s).ringOf l = t.ringOf l := by
    have hspec := t.ringOf_offer_spec link s
    rw [h] at hspec
    rw [append, ringOf_ingest, hspec.eq_of_none]
    split
    · rename_i hl
      rw [hl]
    · rfl
  rw [append, ingest_of_refused true h] at hring ⊢
  simp only [historyOf, hring]
  rfl

/-- A sample the ring accepts is logged. -/
theorem length_log_append (t : Tsdb F) (link : LinkKey) (s : RawSample F) :
    ((t.append link s).historyOf link).log.length =
      (t.historyOf link).log.length + if ((t.ringOf link).offer s).2 = none then 0 else 1 := by
  split
  · rename_i hnone
    rw [historyOf_append_of_refused hnone, Nat.add_zero]
  · rename_i hsome
    obtain ⟨acc, hacc⟩ := Option.ne_none_iff_exists'.mp hsome
    rw [append, ingest_of_accepted true hacc]
    simp [historyOf]

/-- Samples appended to one link, in order. -/
def appendAll (t : Tsdb F) (link : LinkKey) (samples : List (RawSample F)) : Tsdb F :=
  samples.foldl (fun t s => t.append link s) t

theorem historyOf_appendAll_of_ne (t : Tsdb F) (samples : List (RawSample F)) (h : l ≠ link) :
    (t.appendAll link samples).historyOf l = t.historyOf l := by
  induction samples generalizing t with
  | nil => rfl
  | cons s samples ih => exact (ih (t.append link s)).trans (historyOf_append_of_ne t s h)

theorem length_log_appendAll_le (t : Tsdb F) (link : LinkKey) (samples : List (RawSample F)) :
    (t.historyOf link).log.length ≤ ((t.appendAll link samples).historyOf link).log.length := by
  induction samples generalizing t with
  | nil => exact le_refl _
  | cons s samples ih =>
    have hlog := length_log_append t link s
    have hrest := ih (t.append link s)
    calc (t.historyOf link).log.length
        ≤ ((t.append link s).historyOf link).log.length := by omega
      _ ≤ (((t.append link s).appendAll link samples).historyOf link).log.length := hrest

/-- **Samples leave the history of their link** exactly if its ring refuses every one of them. -/
theorem historyOf_appendAll_iff (t : Tsdb F) (link : LinkKey) (samples : List (RawSample F)) :
    (t.appendAll link samples).historyOf link = t.historyOf link ↔
      ∀ s ∈ samples, ((t.ringOf link).offer s).2 = none := by
  induction samples generalizing t with
  | nil => simp [appendAll]
  | cons s samples ih =>
    rw [List.forall_mem_cons]
    by_cases hs : ((t.ringOf link).offer s).2 = none
    · -- a refused sample leaves the ring, and so what it does with the others
      have hsame := historyOf_append_of_refused hs link
      have hring : (t.append link s).ringOf link = t.ringOf link := congrArg LinkHistory.ring hsame
      have hrest := ih (t.append link s)
      rw [hsame, hring] at hrest
      exact hrest.trans ⟨fun h => ⟨hs, h⟩, fun h => h.2⟩
    · -- an accepted one is in the log for good
      have hlog := length_log_append t link s
      have hle := length_log_appendAll_le (t.append link s) link samples
      rw [if_neg hs] at hlog
      refine ⟨fun h => ?_, fun h => absurd h.1 hs⟩
      have hlen : (((t.append link s).appendAll link samples).historyOf link).log.length =
          (t.historyOf link).log.length := congrArg (fun x => x.log.length) h
      omega

end Append

end Tsdb

/-! ### The bookkeeping of an agent -/

/-- What is kept about an agent under one link id: cost sent, retry, last issues, slots taken. -/
def Worker.onLink (w : Worker) (id : String) :
    Option ℕ × Option ℕ × (Tier → Option ℕ) × (Kind → Bool) :=
  (w.applied_sent.get id, w.apply_retry_at.get id, fun tier => w.last_issue.get (id, tier),
    fun kind => decide ((id, kind) ∈ w.in_flight))

/-- The rest of what is kept about an agent. -/
def Worker.registered (w : Worker) :
    List LinkKey × Option String × Map String String × Option String × Option (ℕ × ℕ) :=
  (w.links, w.router_id, w.peer_rids, w.loopback, w.session)

/-- What settling a cost apply leaves under its link id: the cost sent, or with a note the
    second it may be retried from. -/
def settledApply (cost : ℕ) (note : Option String) (now : ℕ) : Option ℕ × Option ℕ :=
  match note with
  | none => (some cost, none)
  | some _ => (none, some (now + applyRetrySecs))

/-- The worker after a cost apply of the link id was settled. -/
def Worker.settle (w : Worker) (id : String) (cost : ℕ) (note : Option String) (now : ℕ) : Worker :=
  match note with
  | none => { w with
      apply_retry_at := w.apply_retry_at.erase id
      applied_sent := w.applied_sent.set id cost }
  | some _ => { w with
      applied_sent := w.applied_sent.erase id
      apply_retry_at := w.apply_retry_at.set id (now + applyRetrySecs) }

/-- Settling an apply changes what is kept under its link id. -/
theorem Worker.onLink_settle (w : Worker) (id : String) (cost : ℕ) (note : Option String)
    (now : ℕ) (k : String) : (w.settle id cost note now).onLink k =
      if k = id then
        ((settledApply cost note now).1, (settledApply cost note now).2, (w.onLink k).2.2)
      else w.onLink k := by
  unfold Worker.settle Worker.onLink settledApply
  cases note with
  | none =>
    dsimp only
    rw [Map.get_set, Map.get_erase]
    split <;> rfl
  | some n =>
    dsimp only
    rw [Map.get_set, Map.get_erase]
    split <;> rfl

theorem Worker.registered_settle (w : Worker) (id : String) (cost : ℕ) (note : Option String)
    (now : ℕ) : (w.settle id cost note now).registered = w.registered := by
  cases note <;> rfl

/-! ### A reply and its command -/

/-- A dispatched command: the agent whose session it went out on, its link, and the token of
    the lease it holds. -/
structure Dispatched where
  agent : String
  link : LinkKey
  token : Option String

/-- What a command for one link is dispatched as; a trace is not for a link. -/
def dispatched? (agent : String) : WorkCmd → Option Dispatched
  | .probe _ _ token link _ => some ⟨agent, link, token⟩
  | .applyCost _ link _ _ => some ⟨agent, link, none⟩
  | .trace .. => none

namespace WorkerRegistry

/-- A link under the registry's spelling of its far end. -/
def canonicalLink (r : WorkerRegistry) (l : LinkKey) : LinkKey :=
  { l with «to» := r.canonicalPeer l.to }

end WorkerRegistry

/-- **Nothing but the command's own has changed**: the history of its link, the lease it holds,
    and what is kept about its agent under its link id. -/
structure Confined (st st' : AppState F) (d : Dispatched) : Prop where
  history : ∀ l, l ≠ st.workers.canonicalLink d.link → st'.tsdb.historyOf l = st.tsdb.historyOf l
  lease : ∀ k, st'.fence.lease.get k ≠ st.fence.lease.get k →
    k = d.link.id ∧ ∃ l, st.fence.lease.get k = some l ∧ d.token = some l.token
  bookkeeping : ∀ a id, ¬(a = d.agent ∧ id = d.link.id) →
    (st'.workers.worker a).map (·.onLink id) = (st.workers.worker a).map (·.onLink id)
  registered : ∀ a,
    (st'.workers.worker a).map Worker.registered = (st.workers.worker a).map Worker.registered

section Reply

variable [LinearOrder F] [Zero F] [Add F]

/-- The samples a probe reply is ingested as: its blocks, then the measurement. -/
def ProbeReply.samples (r : ProbeReply F) (now : ℕ) : List (RawSample F) :=
  r.blocks.filterMap RawSample.fromBlock ++
    [(RawSample.fromDims r.state (r.ts.getD now) r.rtt_ms r.loss_pct r.jitter_ms r.tcp_mbps
      r.util_mbps).withUdp r.udp_mbps r.udp_jitter_ms r.udp_loss_pct]

/-- **The reply is about its command**: it reports on the command's link, or nothing that its
    link's ring does not have already; a lease its token releases is the command's; and an
    apply it settles is the command's, or was settled so before. -/
def AboutCommand (st : AppState F) (d : Dispatched) (now : ℕ) : AgentReply F → Prop
  | .probe r =>
    let link := st.workers.canonicalLink r.link
    (link = st.workers.canonicalLink d.link ∨
      ∀ s ∈ r.samples now, ((st.tsdb.ringOf link).offer s).2 = none) ∧
    ∀ l, st.fence.lease.get link.id = some l → r.token = some l.token →
      link.id = d.link.id ∧ d.token = some l.token
  | .applied agent _ link cost note _ =>
    (agent = d.agent ∧ link.id = d.link.id) ∨
      ∀ w, st.workers.worker agent = some w →
        (w.applied_sent.get link.id, w.apply_retry_at.get link.id) = settledApply cost note now
  | .trace .. => True

/-- A probe reply appends its samples to the link it names. -/
theorem tsdb_probe (st : AppState F) (r : ProbeReply F) (now : ℕ) :
    (handleReply st (.probe r) now).tsdb =
      st.tsdb.appendAll (st.workers.canonicalLink r.link) (r.samples now) := by
  rw [Tsdb.appendAll, ProbeReply.samples, List.foldl_append]
  rfl

/-- A reply to an apply settles it in the bookkeeping of the agent it names. -/
theorem workers_applied (st : AppState F) (agent id : String) (link : LinkKey) (cost : ℕ)
    (note tp : Option String) (now : ℕ) :
    (handleReply st (.applied agent id link cost note tp) now).workers =
      st.workers.modify agent (·.settle link.id cost note now) := by
  cases note <;> rfl

/-- A probe reply is confined exactly if it is about its command. -/
theorem confined_probe_iff (st : AppState F) (d : Dispatched) (r : ProbeReply F) (now : ℕ) :
    Confined st (handleReply st (.probe r) now) d ↔ AboutCommand st d now (.probe r) := by
  have hfence : ∀ k, (handleReply st (.probe r) now).fence.lease.get k =
      if k = (st.workers.canonicalLink r.link).id ∧
          ∃ l, st.fence.lease.get k = some l ∧ r.token = some l.token then none
      else st.fence.lease.get k := by
    intro k
    rw [fence_probe]
    cases htok : r.token with
    | none => simp
    | some t =>
      dsimp only
      rw [Fence.get_release]
      refine if_congr (and_congr_right fun hk => ?_) rfl rfl
      rw [hk, Option.map_eq_some_iff]
      exact exists_congr fun l => and_congr_right fun _ =>
        ⟨fun h => congrArg some h.symm, fun h => (Option.some.inj h).symm⟩
  constructor
  · intro hc
    refine ⟨?_, fun l hl htok => ?_⟩
    · by_cases hlink : st.workers.canonicalLink r.link = st.workers.canonicalLink d.link
      · exact Or.inl hlink
      · -- the link's history is not to change
        have hsame := hc.history _ hlink
        rw [tsdb_probe] at hsame
        exact Or.inr ((Tsdb.historyOf_appendAll_iff _ _ _).mp hsame)
    · have hgone := hfence (st.workers.canonicalLink r.link).id
      rw [if_pos ⟨rfl, l, hl, htok⟩] at hgone
      obtain ⟨hid, l', hl', htok'⟩ := hc.lease (st.workers.canonicalLink r.link).id
        (by rw [hgone, hl]; simp)
      rw [hl] at hl'
      exact ⟨hid, Option.some.inj hl' ▸ htok'⟩
  · rintro ⟨hlink, hlease⟩
    refine ⟨fun l hl => ?_, fun k hk => ?_, fun _ _ _ => rfl, fun _ => rfl⟩
    · rw [tsdb_probe]
      by_cases hname : l = st.workers.canonicalLink r.link
      · subst hname
        exact (Tsdb.historyOf_appendAll_iff _ _ _).mpr (hlink.resolve_left hl)
      · exact Tsdb.historyOf_appendAll_of_ne _ _ hname
    · rw [hfence] at hk
      split at hk
      · rename_i hreleased
        obtain ⟨rfl, l, hl, htok⟩ := hreleased
        obtain ⟨hid, hown⟩ := hlease l hl htok
        exact ⟨hid, l, hl, hown⟩
      · exact absurd rfl hk

/-- So is a reply to an apply. -/
theorem confined_applied_iff (st : AppState F) (d : Dispatched) (agent id : String)
    (link : LinkKey) (cost : ℕ) (note tp : Option String) (now : ℕ) :
    Confined st (handleReply st (.applied agent id link cost note tp) now) d ↔
      AboutCommand st d now (.applied agent id link cost note tp) := by
  have hstores : (handleReply st (.applied agent id link cost note tp) now).tsdb = st.tsdb ∧
      (handleReply st (.applied agent id link cost note tp) now).fence = st.fence := by
    cases note <;> exact ⟨rfl, rfl⟩
  have hworker : ∀ a, (handleReply st (.applied agent id link cost note tp) now).workers.worker a =
      if a = agent then (st.workers.worker a).map (·.settle link.id cost note now)
      else st.workers.worker a := by
    intro a
    rw [workers_applied]
    exact WorkerRegistry.worker_modify _ _ _ _
  constructor
  · intro hc
    by_cases hown : agent = d.agent ∧ link.id = d.link.id
    · exact Or.inl hown
    · refine Or.inr fun w hw => ?_
      -- what is kept under the link id is not to change
      have hkept := hc.bookkeeping agent link.id hown
      rw [hworker, if_pos rfl, hw] at hkept
      simp only [Option.map_some, Option.some.injEq] at hkept
      rw [Worker.onLink_settle, if_pos rfl] at hkept
      have hpair := Prod.mk.inj hkept
      exact Prod.ext hpair.1.symm (Prod.mk.inj hpair.2).1.symm
  · intro habout
    refine ⟨fun l _ => ?_, fun k hk => ?_, fun a k hother => ?_, fun a => ?_⟩
    · rw [hstores.1]
    · rw [hstores.2] at hk
      exact absurd rfl hk
    · rw [hworker]
      split
      · rename_i ha
        subst ha
        cases hw : st.workers.worker a with
        | none => rfl
        | some w =>
          simp only [Option.map_some, Option.some.injEq]
          rw [Worker.onLink_settle]
          split
          · rename_i hk
            subst hk
            have hsettled := habout.resolve_left hother w hw
            rw [← hsettled]
            rfl
          · rfl
      · rfl
    · rw [hworker]
      split
      · rw [Option.map_map]
        exact congrArg (Option.map · _) (funext fun w => Worker.registered_settle w _ _ _ _)
      · rfl

/-- **A reply is confined to its command** exactly if it is about it. -/
theorem confined_iff (st : AppState F) (d : Dispatched) (reply : AgentReply F) (now : ℕ) :
    Confined st (handleReply st reply now) d ↔ AboutCommand st d now reply := by
  cases reply with
  | probe r => exact confined_probe_iff st d r now
  | applied agent id link cost note tp => exact confined_applied_iff st d agent id link cost note tp now
  | trace agent id =>
    exact ⟨fun _ => trivial, fun _ => ⟨fun _ _ => rfl, fun _ hk => absurd rfl hk, fun _ _ _ => rfl,
      fun _ => rfl⟩⟩

end Reply

/-! ### Two spokes -/

/-- The link of a spoke to `hub-a`. -/
private def spokeLink (spoke : String) : LinkKey := ⟨spoke, "hub-a", "awg0"⟩

/-- `spoke-1` and `spoke-2` are registered, each with a link and a session; nothing was measured. -/
private def twoSpokes : AppState ℕ :=
  let one := (WorkerRegistry.new.register "spoke-1" [spokeLink "spoke-1"] none ∅ none).1
  let two := (one.register "spoke-2" [spokeLink "spoke-2"] none ∅ none).1
  { workers := ((two.attach "spoke-1" 0 none).1.attach "spoke-2" 1 none).1
    fence := Fence.new
    tsdb := Tsdb.new ⟨"", 10800, 604800⟩ }

/-- A reply of `spoke-1` that reports on the link of `spoke-2`. -/
private def strayReport : AgentReply ℕ :=
  .probe ⟨"spoke-1", "always/spoke-1/1", spokeLink "spoke-2", some 100, some 900, some 80, none, none,
    none, none, none, 0, .quiet, none, none, none, []⟩

/-- **Another agent's link.** `spoke-1` is asked about its own link and reports on the one of
    `spoke-2`; asked to apply a cost, it answers in the name of `spoke-2`. -/
theorem stray_reply_reaches_others :
    (twoSpokes.workers.session "spoke-1").isSome ∧
      ((twoSpokes.workers.worker "spoke-1").map Worker.links) = some [spokeLink "spoke-1"] ∧
      dispatched? "spoke-1" (.probe "always/spoke-1/1" .always none (spokeLink "spoke-1") none) =
        some ⟨"spoke-1", spokeLink "spoke-1", none⟩ ∧
      ¬ Confined twoSpokes (handleReply twoSpokes strayReport 100)
        ⟨"spoke-1", spokeLink "spoke-1", none⟩ ∧
      dispatched? "spoke-1" (.applyCost "apply/spoke-1/2" (spokeLink "spoke-1") 50 none) =
        some ⟨"spoke-1", spokeLink "spoke-1", none⟩ ∧
      ¬ Confined twoSpokes (handleReply twoSpokes
          (.applied "spoke-2" "apply/spoke-1/2" (spokeLink "spoke-2") 50 none none) 100)
        ⟨"spoke-1", spokeLink "spoke-1", none⟩ := by
  refine ⟨by decide, by decide, rfl, fun h => ?_, rfl, fun h => ?_⟩
  · -- the report is in the log of the other link
    have hlog := congrArg (fun x => x.log.length) (h.history (spokeLink "spoke-2") (by decide))
    exact absurd hlog (by decide)
  · have hsent := h.bookkeeping "spoke-2" (spokeLink "spoke-2").id (by decide)
    have hcost := congrArg (Option.map Prod.fst) hsent
    rw [Option.map_map, Option.map_map] at hcost
    exact absurd hcost (by decide)

end Mielofon
