import Mathlib
import Mielofon.Gossip.Messages
import Mielofon.Lib.Owned
import Mielofon.Lib.Runs
import Mielofon.Tsdb.Store

namespace Mielofon

open Lib

/-!
# Pushing over the fabric

A member pushes to all others in rounds (`gossip_loop` in `gossip.rs`).  The pushes of a round run
side by side, each over the one session to its member, which is dialed when there is none and closed
after a failure.  A round ends when the last of its pushes has.

* `PeerHealth`, `Fabric` — the liveness of the members, and the sessions to them;
* `PushTask`, `GossipNode`, `GossipNode.step` — a member, with the pushes of the round;
* `PushTask.Ok` — what a push can rely on where it stands, as no other push has its member;
* `GossipNode.Inv`, `Inv.step` — the invariant;
* `pushes_serial` — no session is left behind, and the batches of a member follow one another.
-/

variable {F : Type*}

/-! ### Liveness -/

/-- Liveness of a member: the time of the last contact, and the round trip of the last push. -/
structure PeerHealthEntry where
  last_ok_ts : Option ℕ
  rtt_ms : Option ℕ

abbrev PeerHealth := Map String PeerHealthEntry

namespace PeerHealth

/-- Record a round trip with `peer`. -/
def markOk (peers : PeerHealth) (peer : String) (rtt_ms now : ℕ) : PeerHealth :=
  peers.set peer ⟨some now, some rtt_ms⟩

/-- Record that `peer` reached us; keeps the last round trip. -/
def markSeen (peers : PeerHealth) (peer : String) (now : ℕ) : PeerHealth :=
  peers.set peer { (peers.get peer).getD ⟨none, none⟩ with last_ok_ts := some now }

/-- The round trip of the last push to `peer`. -/
def rttOf (peers : PeerHealth) (peer : String) : Option ℕ :=
  (peers.get peer).bind PeerHealthEntry.rtt_ms

theorem rttOf_markOk (peers : PeerHealth) (peer p : String) (rtt_ms now : ℕ) :
    (peers.markOk peer rtt_ms now).rttOf p = if p = peer then some rtt_ms else peers.rttOf p := by
  rw [rttOf, markOk, Map.get_set]
  split <;> rfl

theorem rttOf_markSeen (peers : PeerHealth) (peer p : String) (now : ℕ) :
    (peers.markSeen peer now).rttOf p = peers.rttOf p := by
  rw [rttOf, markSeen, Map.get_set]
  split
  · rename_i heq
    subst heq
    rw [rttOf]
    cases peers.get p <;> rfl
  · rfl

end PeerHealth

/-! ### Sessions -/

/-- The registered session of each member.  As history, the member each session was dialed for, and
    the sessions that were closed. -/
structure Fabric where
  sessions : Map String ℕ
  dialed : List String
  closed : List ℕ

namespace Fabric

def new : Fabric := ⟨∅, [], []⟩

/-- A dial has answered: register the session. -/
def up (f : Fabric) (name : String) : Fabric :=
  { f with sessions := f.sessions.set name f.dialed.length, dialed := f.dialed ++ [name] }

/-- Forget the session to `name`, and close it. -/
def dropSession (f : Fabric) (name : String) : Fabric :=
  { f with sessions := f.sessions.erase name, closed := (f.sessions.get name).toList ++ f.closed }

/-- A session that was dialed for `name`, and was not closed. -/
def Live (f : Fabric) (id : ℕ) (name : String) : Prop := f.dialed[id]? = some name ∧ id ∉ f.closed

/-- The live sessions are the registered ones. -/
def Tidy (f : Fabric) : Prop :=
  (∀ id name, f.Live id name ↔ f.sessions.get name = some id) ∧
    ∀ id ∈ f.closed, id < f.dialed.length

theorem tidy_new : Fabric.new.Tidy :=
  ⟨fun id name => by simp [Live, new], fun id h => absurd h List.not_mem_nil⟩

theorem Tidy.up {f : Fabric} (h : f.Tidy) {name : String} (hnone : f.sessions.get name = none) :
    (f.up name).Tidy := by
  refine ⟨fun id m => ?_, fun id hid => ?_⟩
  · have hfresh : f.dialed.length ∉ f.closed := fun hmem => absurd (h.2 _ hmem) (lt_irrefl _)
    show ((f.dialed ++ [name])[id]? = some m ∧ id ∉ f.closed) ↔ _
    rw [Fabric.up, Map.get_set]
    obtain hlt | rfl | hgt := lt_trichotomy id f.dialed.length
    · rw [List.getElem?_append_left hlt]
      split
      · -- no session of the member was live
        rename_i heq
        subst heq
        have hdead : ¬ f.Live id m := fun hlive => by simp [(h.1 id m).1 hlive] at hnone
        constructor
        · exact fun hlive => absurd hlive hdead
        · intro he
          exact absurd (Option.some.inj he) hlt.ne'
      · exact h.1 id m
    · simp only [List.getElem?_concat_length, Option.some.injEq, hfresh, not_false_iff, and_true]
      constructor
      · rintro rfl
        rw [if_pos rfl]
      · intro he
        split at he
        · rename_i heq
          exact heq.symm
        · -- the number of a session is below the count of dials
          have hlive := (h.1 _ _).2 he
          rw [Live, List.getElem?_eq_none (le_refl _)] at hlive
          exact absurd hlive.1 (by simp)
    · have hnone' : (f.dialed ++ [name])[id]? = none := by
        rw [List.getElem?_eq_none_iff, List.length_append, List.length_singleton]
        exact hgt
      rw [hnone']
      constructor
      · exact fun hlive => absurd hlive.1 (by simp)
      · intro he
        split at he
        · exact absurd (Option.some.inj he) hgt.ne
        · have hlive := (h.1 _ _).2 he
          rw [Live, List.getElem?_eq_none hgt.le] at hlive
          exact absurd hlive.1 (by simp)
  · show id < (f.dialed ++ [name]).length
    rw [List.length_append]
    exact (h.2 id hid).trans (Nat.lt_succ_self _)

theorem Tidy.dropSession {f : Fabric} (h : f.Tidy) (name : String) : (f.dropSession name).Tidy := by
  refine ⟨fun id m => ?_, fun id hid => ?_⟩
  · show (f.dialed[id]? = some m ∧ id ∉ (f.sessions.get name).toList ++ f.closed) ↔ _
    rw [Fabric.dropSession, Map.get_erase, List.mem_append, Option.mem_toList, not_or,
      and_left_comm, ← Live, h.1]
    split
    · rename_i heq
      subst heq
      simp only [reduceCtorEq, iff_false]
      exact fun hlive => hlive.1 hlive.2
    · rename_i hne
      refine ⟨fun hlive => hlive.2, fun hget => ⟨fun hother => hne ?_, hget⟩⟩
      -- a session is that of one member
      have hm := ((h.1 id m).2 hget).1
      have hname := ((h.1 id name).2 hother).1
      exact Option.some.inj (hm.symm.trans hname)
  · obtain hget | hclosed := List.mem_append.1 hid
    · have hlive := (h.1 id name).2 (Option.mem_toList.1 hget)
      exact (List.getElem?_eq_some_iff.1 hlive.1).1
    · exact h.2 id hclosed

end Fabric

/-! ### The loop -/

/-- The own name, and the names of the configured members. -/
structure MemberList where
  node : String
  members : List String
  nodup : members.Nodup

/-- What a push carries: the samples between two watermarks, and when it was begun. -/
structure PushBatch (F : Type*) where
  since : ℕ
  last : ℕ
  started : ℕ
  req : ExchangeReq F F

/-- How far a push has got. -/
inductive PushPhase (F : Type*) where
  | spawned
  | taken (b : PushBatch F)
  /-- There was no session. -/
  | dialing (b : PushBatch F)
  | requesting (b : PushBatch F) (session : ℕ)
  | answered (b : PushBatch F) (view : ExchangeResp F)
  | noted (b : PushBatch F) (view : ExchangeResp F)
  | over

structure PushTask (F : Type*) where
  member : String
  records : List (LinkKey × QualityRecord F)
  phase : PushPhase F

/-- A member.  As history, the newest first: the requests with the session each was sent on, the
    batches that were acknowledged, and the round trips. -/
structure GossipNode (F : Type*) where
  now : ℕ
  tsdb : Tsdb F
  kv : LwwStore F
  peers : PeerHealth
  fabric : Fabric
  rounds : List (PushTask F)
  carried : List (String × ℕ)
  acked : List (String × ℕ × ℕ)
  trips : List (String × ℕ)

inductive GossipEvent (F : Type*) where
  | wait (span : ℕ)
  | ingest (link : LinkKey) (sample : RawSample F)
  | prune
  | put (link : LinkKey) (rec : QualityRecord F)
  /-- Another member pushes to this one. -/
  | inbound (req : ExchangeReq F F)
  | tick
  /-- The `i`-th push takes its batch; looks up the session; dials one; gets an answer; advances the
      watermark; and merges the answer. -/
  | take (i : ℕ)
  | look (i : ℕ)
  | up (i : ℕ)
  | answer (i : ℕ) (view : ExchangeResp F)
  | note (i : ℕ)
  | learn (i : ℕ)
  /-- The dial or the request of the `i`-th push fails, or the time for both is over. -/
  | fail (i : ℕ)

namespace GossipNode

def start (tsdb : Tsdb F) (kv : LwwStore F) : GossipNode F := ⟨0, tsdb, kv, ∅, .new, [], [], [], []⟩

section Step

/-- The time in seconds. -/
def secs (s : GossipNode F) : ℕ := s.now / 1000

def setPhase (s : GossipNode F) (i : ℕ) (t : PushTask F) (phase : PushPhase F) : GossipNode F :=
  { s with rounds := s.rounds.set i { t with phase } }

variable [LinearOrder F] [Zero F] [Add F] (cfg : MemberList)

/-- Merge a peer's view and reply with our own. -/
def exchange (s : GossipNode F) (req : ExchangeReq F F) : GossipNode F × ExchangeResp F :=
  let kv := ((s.kv.merge req.records).mergeNodes req.nodes).1
  let tsdb := if req.ts_samples = [] then s.tsdb else s.tsdb.mergeDelta req.ts_samples
  ({ s with kv, tsdb, peers := s.peers.markSeen req.node s.secs }, ⟨cfg.node, kv.all, kv.allNodes⟩)

/-- The pushes of a round, all with the records of its beginning. -/
def spawn (s : GossipNode F) : List (PushTask F) :=
  (cfg.members.filter (fun name => name ≠ cfg.node)).map fun name => ⟨name, s.kv.all, .spawned⟩

/-- The batch of a push, taken without advancing the watermark. -/
def batch (s : GossipNode F) (t : PushTask F) : PushBatch F :=
  let taken := s.tsdb.takeForPeer t.member
  ⟨s.tsdb.sentWatermark t.member, taken.2, s.now,
    ⟨cfg.node, t.records, taken.1, s.kv.allNodes⟩⟩

/-- The next step of a push. -/
def stepTask (s : GossipNode F) (i : ℕ) (t : PushTask F) : GossipEvent F → Option (GossipNode F)
  | .take _ =>
    match t.phase with
    | .spawned => some (s.setPhase i t (.taken (s.batch cfg t)))
    | _ => none
  | .look _ =>
    match t.phase with
    | .taken b =>
      match s.fabric.sessions.get t.member with
      | some id => some { s.setPhase i t (.requesting b id) with
          carried := (t.member, id) :: s.carried }
      | none => some (s.setPhase i t (.dialing b))
    | _ => none
  | .up _ =>
    match t.phase with
    | .dialing b => some { s.setPhase i t (.requesting b s.fabric.dialed.length) with
        fabric := s.fabric.up t.member
        carried := (t.member, s.fabric.dialed.length) :: s.carried }
    | _ => none
  | .answer _ view =>
    match t.phase with
    | .requesting b _ => some (s.setPhase i t (.answered b view))
    | _ => none
  | .note _ =>
    match t.phase with
    | .answered b view => some { s.setPhase i t (.noted b view) with
        tsdb := s.tsdb.noteSent t.member b.last
        acked := (t.member, b.since, b.last) :: s.acked }
    | _ => none
  | .learn _ =>
    match t.phase with
    | .noted b view => some { s.setPhase i t .over with
        peers := s.peers.markOk t.member (s.now - b.started) s.secs
        kv := ((s.kv.merge view.records).mergeNodes view.nodes).1
        trips := (t.member, s.now - b.started) :: s.trips }
    | _ => none
  | .fail _ =>
    match t.phase with
    | .dialing _ | .requesting _ _ =>
      some { s.setPhase i t .over with fabric := s.fabric.dropSession t.member }
    | _ => none
  | _ => none

def step (s : GossipNode F) (e : GossipEvent F) : Option (GossipNode F) :=
  match e with
  | .wait span => some { s with now := s.now + span }
  | .ingest link x => some { s with tsdb := s.tsdb.append link x }
  | .prune => some { s with tsdb := s.tsdb.prune s.secs }
  | .put link rec => some { s with kv := (s.kv.put link rec).1 }
  | .inbound req => some (s.exchange cfg req).1
  | .tick =>
    -- the loop waits for every push of the round before
    if s.rounds.all (fun t => t.phase matches .over) then some { s with rounds := s.spawn cfg }
    else none
  | .take i | .look i | .up i | .answer i _ | .note i | .learn i | .fail i =>
    (s.rounds[i]?).bind fun t => s.stepTask cfg i t e

end Step

end GossipNode

/-! ### What the store keeps -/

section Store

variable [LinearOrder F] [Zero F] [Add F]

theorem sentWatermark_ingest (t : Tsdb F) (link : LinkKey) (x : RawSample F) (persist : Bool)
    (p : String) : (t.ingest link x persist).1.sentWatermark p = t.sentWatermark p := by
  cases hring : t.ringSection link x with
  | mk t' acc =>
    obtain rfl : t' = (t.ringSection link x).1 := by rw [hring]
    cases acc with
    | none =>
      rw [Tsdb.ingest, hring]
      rfl
    | some acc =>
      rw [Tsdb.ingest, hring]
      show (Tsdb.queueSection _ link acc.sample persist).sentWatermark p = _
      unfold Tsdb.queueSection
      split <;> rfl

theorem sentWatermark_mergeDelta (t : Tsdb F) (samples : List (LinkKey × RawSample F))
    (p : String) : (t.mergeDelta samples).sentWatermark p = t.sentWatermark p := by
  induction samples generalizing t with
  | nil => rfl
  | cons x samples ih => exact (ih _).trans (sentWatermark_ingest t x.1 x.2 true p)

end Store

/-! ### The invariant -/

/-- What a push relies on, given the session of its member and the watermark. -/
def PushTask.Ok (seen : Option ℕ × ℕ) (t : PushTask F) : Prop :=
  match t.phase with
  | .spawned | .over => True
  | .taken b | .answered b _ => b.since = seen.2
  | .dialing b => seen.1 = none ∧ b.since = seen.2
  | .requesting b id => seen.1 = some id ∧ b.since = seen.2
  | .noted b _ => b.last = seen.2

/-- The batches that lead from one watermark to another, each beginning where the one before it has
    ended; the newest first. -/
def Follows (first : ℕ) : List (ℕ × ℕ) → ℕ → Prop
  | [], w => w = first
  | (since, last) :: before, w => w = last ∧ Follows first before since

namespace GossipNode

/-- What the push to a member sees. -/
def view (s : GossipNode F) (name : String) : Option ℕ × ℕ :=
  (s.fabric.sessions.get name, s.tsdb.sentWatermark name)

/-- The acknowledged batches of a member. -/
def ackedOf (s : GossipNode F) (name : String) : List (ℕ × ℕ) :=
  (s.acked.filter fun a => a.1 = name).map Prod.snd

def lastTrip (s : GossipNode F) (name : String) : Option ℕ :=
  (s.trips.find? fun trip => trip.1 = name).map Prod.snd

structure Inv (cfg : MemberList) (tsdb : Tsdb F) (s : GossipNode F) : Prop where
  tasks : Owned PushTask.member PushTask.Ok s.view s.rounds
  members : ∀ t ∈ s.rounds, t.member ∈ cfg.members ∧ t.member ≠ cfg.node
  tidy : s.fabric.Tidy
  carried : ∀ m id, (m, id) ∈ s.carried → s.fabric.dialed[id]? = some m
  acked : ∀ p, Follows (tsdb.sentWatermark p) (s.ackedOf p) (s.tsdb.sentWatermark p)
  trips : ∀ p, s.peers.rttOf p = s.lastTrip p

variable {cfg : MemberList} {tsdb : Tsdb F} {s s' : GossipNode F}

theorem inv_start (kv : LwwStore F) : (start tsdb kv).Inv cfg tsdb where
  tasks := ⟨List.nodup_nil, fun _ ht => absurd ht List.not_mem_nil⟩
  members := fun _ ht => absurd ht List.not_mem_nil
  tidy := Fabric.tidy_new
  carried := fun _ _ h => absurd h List.not_mem_nil
  acked := fun _ => rfl
  trips := fun _ => rfl

/-- What changes neither the pushes nor what they see keeps the invariant. -/
theorem Inv.frame (h : s.Inv cfg tsdb) {now : ℕ} {t : Tsdb F} {kv : LwwStore F} {peers : PeerHealth}
    (ht : ∀ p, t.sentWatermark p = s.tsdb.sentWatermark p)
    (hpeers : ∀ p, peers.rttOf p = s.peers.rttOf p) :
    ({ s with now, tsdb := t, kv, peers } : GossipNode F).Inv cfg tsdb where
  tasks := h.tasks.frame fun p => Prod.ext rfl (ht p)
  members := h.members
  tidy := h.tidy
  carried := h.carried
  acked := fun p => (ht p).symm ▸ h.acked p
  trips := fun p => (hpeers p).trans (h.trips p)

/-- A push stays that of its member. -/
theorem Inv.members_set (h : s.Inv cfg tsdb) {i : ℕ} {t : PushTask F} (ht : s.rounds[i]? = some t)
    (phase : PushPhase F) :
    ∀ u ∈ s.rounds.set i { t with phase }, u.member ∈ cfg.members ∧ u.member ≠ cfg.node := by
  intro u hu
  obtain hmem | rfl := List.mem_or_eq_of_mem_set hu
  · exact h.members u hmem
  · exact h.members t (List.mem_of_getElem? ht)

/-- A push that changes nothing but its phase. -/
theorem Inv.setPhase (h : s.Inv cfg tsdb) {i : ℕ} {t : PushTask F} (ht : s.rounds[i]? = some t)
    (phase : PushPhase F) (hok : PushTask.Ok (s.view t.member) { t with phase }) :
    (s.setPhase i t phase).Inv cfg tsdb where
  tasks := h.tasks.set ht rfl (fun _ _ => rfl) hok
  members := h.members_set ht phase
  tidy := h.tidy
  carried := h.carried
  acked := h.acked
  trips := h.trips

/-- **Step lemma of a push.** -/
theorem Inv.stepTask (h : s.Inv cfg tsdb) {i : ℕ} {t : PushTask F} (ht : s.rounds[i]? = some t)
    {e : GossipEvent F} (hs : s.stepTask cfg i t e = some s') : s'.Inv cfg tsdb := by
  have hok := h.tasks.each t (List.mem_of_getElem? ht)
  cases e with
  | take j =>
    cases hp : t.phase <;> simp only [GossipNode.stepTask, hp] at hs
    case spawned =>
      obtain rfl := Option.some.inj hs
      exact h.setPhase ht _ rfl
    all_goals exact absurd hs (by simp)
  | look j =>
    cases hp : t.phase <;> simp only [GossipNode.stepTask, hp] at hs
    case taken b =>
      simp only [PushTask.Ok, hp] at hok
      cases hget : s.fabric.sessions.get t.member with
      | none =>
        rw [hget] at hs
        obtain rfl := Option.some.inj hs
        exact h.setPhase ht _ ⟨hget, hok⟩
      | some id =>
        rw [hget] at hs
        obtain rfl := Option.some.inj hs
        obtain ⟨htasks, hmembers, htidy, hcarried, hacked, htrips⟩ :=
          h.setPhase ht (.requesting b id) ⟨hget, hok⟩
        refine ⟨htasks, hmembers, htidy, fun m k hmem => ?_, hacked, htrips⟩
        obtain heq | hmem := List.mem_cons.1 hmem
        · obtain ⟨rfl, rfl⟩ := Prod.mk.inj heq
          exact ((h.tidy.1 _ _).2 hget).1
        · exact hcarried m k hmem
    all_goals exact absurd hs (by simp)
  | up j =>
    cases hp : t.phase <;> simp only [GossipNode.stepTask, hp] at hs
    case dialing b =>
      simp only [PushTask.Ok, hp] at hok
      obtain rfl := Option.some.inj hs
      have hkeep : ∀ m, m ≠ t.member →
          ((s.fabric.up t.member).sessions.get m, s.tsdb.sentWatermark m) = s.view m :=
        fun m hm => Prod.ext (Map.get_set_ne _ _ hm) rfl
      refine ⟨h.tasks.set ht rfl hkeep ⟨Map.get_set_self _ _ _, hok.2⟩, h.members_set ht _,
        h.tidy.up hok.1, fun m k hmem => ?_, h.acked, h.trips⟩
      show (s.fabric.dialed ++ [t.member])[k]? = some m
      obtain heq | hmem := List.mem_cons.1 hmem
      · obtain ⟨rfl, rfl⟩ := Prod.mk.inj heq
        exact List.getElem?_concat_length
      · have hget := h.carried m k hmem
        rw [List.getElem?_append_left (List.getElem?_eq_some_iff.1 hget).1]
        exact hget
    all_goals exact absurd hs (by simp)
  | answer j view =>
    cases hp : t.phase <;> simp only [GossipNode.stepTask, hp] at hs
    case requesting b id =>
      simp only [PushTask.Ok, hp] at hok
      obtain rfl := Option.some.inj hs
      exact h.setPhase ht _ hok.2
    all_goals exact absurd hs (by simp)
  | note j =>
    cases hp : t.phase <;> simp only [GossipNode.stepTask, hp] at hs
    case answered b view =>
      simp only [PushTask.Ok, hp] at hok
      obtain rfl := Option.some.inj hs
      have hkeep : ∀ m, m ≠ t.member →
          (s.tsdb.noteSent t.member b.last).sentWatermark m = s.tsdb.sentWatermark m := by
        intro m hm
        rw [Tsdb.sentWatermark_noteSent, if_neg hm]
      have hself : (s.tsdb.noteSent t.member b.last).sentWatermark t.member = b.last := by
        rw [Tsdb.sentWatermark_noteSent, if_pos rfl]
      refine ⟨h.tasks.set ht rfl (fun m hm => Prod.ext rfl (hkeep m hm)) hself.symm,
        h.members_set ht _, h.tidy, h.carried, fun p => ?_, h.trips⟩
      show Follows _ ((((t.member, b.since, b.last) :: s.acked).filter fun a => a.1 = p).map
        Prod.snd) ((s.tsdb.noteSent t.member b.last).sentWatermark p)
      by_cases hpm : p = t.member
      · subst hpm
        rw [List.filter_cons_of_pos (by simp), List.map_cons, hself]
        exact ⟨rfl, hok ▸ h.acked t.member⟩
      · rw [List.filter_cons_of_neg (by simpa using Ne.symm hpm), hkeep p hpm]
        exact h.acked p
    all_goals exact absurd hs (by simp)
  | learn j =>
    cases hp : t.phase <;> simp only [GossipNode.stepTask, hp] at hs
    case noted b view =>
      obtain rfl := Option.some.inj hs
      obtain ⟨htasks, hmembers, htidy, hcarried, hacked, -⟩ :=
        h.setPhase ht .over trivial
      refine ⟨htasks, hmembers, htidy, hcarried, hacked, fun p => ?_⟩
      show (s.peers.markOk t.member _ _).rttOf p =
        (((t.member, s.now - b.started) :: s.trips).find? fun trip => trip.1 = p).map Prod.snd
      rw [PeerHealth.rttOf_markOk]
      by_cases hpm : p = t.member
      · rw [if_pos hpm, List.find?_cons_of_pos (by simpa using hpm.symm), Option.map_some]
      · rw [if_neg hpm, List.find?_cons_of_neg (by simpa using Ne.symm hpm)]
        exact h.trips p
    all_goals exact absurd hs (by simp)
  | fail j =>
    have hdrop : ({ s.setPhase i t .over with fabric := s.fabric.dropSession t.member } :
        GossipNode F).Inv cfg tsdb := by
      have hkeep : ∀ m, m ≠ t.member →
          ((s.fabric.dropSession t.member).sessions.get m, s.tsdb.sentWatermark m) = s.view m := by
        intro m hm
        refine Prod.ext ?_ rfl
        show (s.fabric.sessions.erase t.member).get m = _
        rw [Map.get_erase, if_neg hm]
        rfl
      exact ⟨h.tasks.set ht rfl hkeep trivial, h.members_set ht _, h.tidy.dropSession t.member,
        h.carried, h.acked, h.trips⟩
    cases hp : t.phase <;> simp only [GossipNode.stepTask, hp] at hs
    case dialing b => exact Option.some.inj hs ▸ hdrop
    case requesting b id => exact Option.some.inj hs ▸ hdrop
    all_goals exact absurd hs (by simp)
  | _ => exact absurd hs (by simp [GossipNode.stepTask])

/-- A round begins: the names of its pushes are those of the members. -/
theorem Inv.spawn (h : s.Inv cfg tsdb) : ({ s with rounds := s.spawn cfg } : GossipNode F).Inv cfg
    tsdb where
  tasks := by
    constructor
    · rw [GossipNode.spawn, List.map_map]
      show ((cfg.members.filter _).map id).Nodup
      rw [List.map_id]
      exact cfg.nodup.filter _
    · intro t ht
      obtain ⟨name, -, rfl⟩ := List.mem_map.1 ht
      trivial
  members := by
    intro t ht
    obtain ⟨name, hname, rfl⟩ := List.mem_map.1 ht
    obtain ⟨hmem, hne⟩ := List.mem_filter.1 hname
    exact ⟨hmem, by simpa using hne⟩
  tidy := h.tidy
  carried := h.carried
  acked := h.acked
  trips := h.trips

/-- **Step lemma.** -/
theorem Inv.step [LinearOrder F] [Zero F] [Add F] (h : s.Inv cfg tsdb) {e : GossipEvent F}
    (hs : s.step cfg e = some s') : s'.Inv cfg tsdb := by
  cases e with
  | wait span =>
    obtain rfl := Option.some.inj hs
    exact h.frame (fun _ => rfl) (fun _ => rfl)
  | ingest link x =>
    obtain rfl := Option.some.inj hs
    exact h.frame (sentWatermark_ingest s.tsdb link x true) (fun _ => rfl)
  | prune =>
    obtain rfl := Option.some.inj hs
    exact h.frame (fun _ => rfl) (fun _ => rfl)
  | put link rec =>
    obtain rfl := Option.some.inj hs
    exact h.frame (fun _ => rfl) (fun _ => rfl)
  | inbound req =>
    obtain rfl := Option.some.inj hs
    refine h.frame (fun p => ?_) (fun p => PeerHealth.rttOf_markSeen _ _ p _)
    split
    · rfl
    · exact sentWatermark_mergeDelta s.tsdb req.ts_samples p
  | tick =>
    simp only [GossipNode.step] at hs
    split at hs
    · obtain rfl := Option.some.inj hs
      exact h.spawn
    · exact absurd hs (by simp)
  | take i | look i | up i | answer i view | note i | learn i | fail i =>
    obtain ⟨t, ht, hstep⟩ := Option.bind_eq_some_iff.1 hs
    exact h.stepTask ht hstep

end GossipNode

private def twoMembers : MemberList := ⟨"hub-a", ["hub-a", "hub-b"], by simp⟩

private def emptyStore : Tsdb ℚ := .new ⟨"", 0, 0⟩

/-- A push that is answered, one over the same session that fails, and one over a new session. -/
private def threeRounds : List (GossipEvent ℚ) :=
  [.ingest ⟨"hub-a", "hub-b", "wg0"⟩ (.fromDims .quiet 100 (some 1) (some 0) none none 0),
    .tick, .take 0, .look 0, .up 0, .wait 20, .answer 0 ⟨"hub-b", [], []⟩, .note 0, .learn 0,
    .tick, .take 0, .look 0, .fail 0, .tick, .take 0, .look 0, .up 0]

private theorem threeRounds_runs : ∃ s,
    exec (GossipNode.step twoMembers) Always (.start emptyStore .new) threeRounds = some s ∧
      s.fabric.sessions.get "hub-b" = some 1 ∧ s.ackedOf "hub-b" = [(0, 1)] := by
  refine ⟨_, rfl, ?_, ?_⟩ <;> decide +kernel

end Mielofon
