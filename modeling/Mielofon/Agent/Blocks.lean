import Mathlib
import Mielofon.Agent.Node
import Mielofon.Lib.Runs

namespace Mielofon

open Lib

/-!
# Marking blocks on the way to the controller

The reply to an always probe carries the finished blocks of its interface, which it takes from
the queue.  A reply is written on the session its command came from; it is lost when that
session has dropped, or on the way.

* `BlockAgent.step` — a finished block, a command, its answer, and what becomes of the reply;
* `BlockAgent.accounted` — the blocks queued, on the way, received, or dropped for room;
* `count_pushed` — with those in lost replies these are the blocks that were pushed;
* `BlockAgent.LosesNoBlock` — no reply that is lost carries a block;
* `nothingLost_iff` — no block is lost exactly under this;
* `lost_reply_loses_blocks` — a session that drops under a reply takes its blocks with it.
-/

variable {F : Type*}

/-- A probe command under way, with the session it came from. -/
structure ProbeTask where
  session : ℕ
  id : String
  tier : Tier
  token : Option String
  link : LinkKey
  traceparent : Option String
deriving DecidableEq

/-- The agent, the replies on the way over the session that is up, and as history: the replies
    the controller received, the lost ones, the blocks pushed and those dropped for room. -/
structure BlockAgent (F : Type*) where
  agent : String
  quiet_max_mbps : F
  node : NodeState
  queue : BlockQueue
  session : Option ℕ
  connects : ℕ
  tasks : List ProbeTask
  flight : List (ProbeReply F)
  received : List (ProbeReply F)
  lost : List (ProbeReply F)
  pushed : List (String × MarkBlock)
  dropped : List (String × MarkBlock)

inductive BlockEvent (F : Type*) where
  | refresh (links : List Link)
  /-- The block task has read a block. -/
  | push (iface : String) (b : MarkBlock)
  | connect
  | drop
  | command (id : String) (tier : Tier) (token : Option String) (link : LinkKey)
      (traceparent : Option String)
  /-- The `i`-th command under way is answered. -/
  | answer (i : ℕ) (m : Measured F)
  /-- The `j`-th reply on the way is received. -/
  | deliver (j : ℕ)
  /-- The `j`-th reply on the way is lost: it could not be written, or came too late. -/
  | lose (j : ℕ)

/-- The blocks a reply carries, with their interface. -/
def carried (r : ProbeReply F) : List (String × MarkBlock) :=
  r.blocks.map (fun b => (r.link.interface, b))

/-- What a full queue drops for the next block. -/
def overflow (queue : BlockQueue) (iface : String) : List (String × MarkBlock) :=
  if queueCap ≤ (queue.of iface).length then ((queue.of iface).take 1).map (fun b => (iface, b))
  else []

/-! ### Counting -/

theorem count_tagged (iface : String) (bs : List MarkBlock) (x : String × MarkBlock) :
    (bs.map (fun b => (iface, b))).count x = if x.1 = iface then bs.count x.2 else 0 := by
  obtain ⟨iface', b⟩ := x
  split
  · rename_i heq
    obtain rfl : iface' = iface := heq
    apply List.count_map_of_injective
    intro a b hab
    exact (Prod.mk.inj hab).2
  · rename_i hne
    apply List.count_eq_zero_of_not_mem
    intro hmem
    obtain ⟨b', -, heq⟩ := List.mem_map.mp hmem
    exact hne (Prod.mk.inj heq).1.symm

theorem count_carried (r : ProbeReply F) (x : String × MarkBlock) :
    (carried r).count x = if x.1 = r.link.interface then r.blocks.count x.2 else 0 :=
  count_tagged _ _ _

/-- A reply without blocks carries none, and only such a reply. -/
theorem count_carried_eq_zero {r : ProbeReply F} :
    (∀ x, (carried r).count x = 0) ↔ r.blocks = [] := by
  constructor
  · intro h
    rw [List.eq_nil_iff_forall_not_mem]
    intro b hb
    have hpos : 0 < r.blocks.count b := List.count_pos_iff.mpr hb
    have hzero := h (r.link.interface, b)
    rw [count_carried, if_pos rfl] at hzero
    exact hpos.ne' hzero
  · intro h x
    simp [count_carried, h]

/-- A reply taken out of the list takes its blocks with it. -/
theorem count_eraseIdx {rs : List (ProbeReply F)} {j : ℕ} {r : ProbeReply F}
    (h : rs[j]? = some r) (x : String × MarkBlock) :
    (rs.flatMap carried).count x =
      (carried r).count x + ((rs.eraseIdx j).flatMap carried).count x := by
  obtain ⟨hlt, hr⟩ := List.getElem?_eq_some_iff.mp h
  have hperm : rs.Perm (r :: rs.eraseIdx j) := hr ▸ (List.getElem_cons_eraseIdx_perm hlt).symm
  rw [(hperm.flatMap_right carried).count_eq, List.flatMap_cons, List.count_append]

theorem count_concat (rs : List (ProbeReply F)) (r : ProbeReply F) (x : String × MarkBlock) :
    ((rs ++ [r]).flatMap carried).count x =
      (rs.flatMap carried).count x + (carried r).count x := by
  simp [List.flatMap_append]

/-- A block goes into the queue, and the one that makes room for it is dropped. -/
theorem count_pushBlock (queue : BlockQueue) (iface : String) (b : MarkBlock)
    (x : String × MarkBlock) :
    ((pushBlock queue iface b).of x.1).count x.2 + (overflow queue iface).count x =
      (queue.of x.1).count x.2 + [(iface, b)].count x := by
  obtain ⟨iface', b'⟩ := x
  have hone : [(iface, b)].count (iface', b') = if iface' = iface then [b].count b' else 0 :=
    count_tagged iface [b] (iface', b')
  rw [hone, of_pushBlock, overflow]
  split
  · rename_i heq
    obtain rfl : iface' = iface := heq
    rw [List.count_append, apply_ite (List.count (iface', b')), count_tagged, if_pos rfl]
    split
    · -- the queue is its oldest block and the rest
      have hsplit : (queue.of iface').take 1 ++ (queue.of iface').tail = queue.of iface' := by
        rw [← List.drop_one, List.take_append_drop]
      have hcount := congrArg (List.count b') hsplit
      rw [List.count_append] at hcount
      simp only at hcount ⊢
      omega
    · simp
  · rename_i hne
    rw [apply_ite (List.count (iface', b')), count_tagged, if_neg hne]
    simp

/-- What the queue loses to a reply is what the reply carries. -/
theorem count_takeBlocks {queue : BlockQueue} {r : ProbeReply F}
    (h : r.blocks = queue.of r.link.interface) (x : String × MarkBlock) :
    (queue.of x.1).count x.2 =
      ((takeBlocks queue r.link.interface).1.of x.1).count x.2 + (carried r).count x := by
  rw [count_carried, of_takeBlocks, h]
  split
  · rename_i heq
    rw [heq]
    simp
  · rfl

namespace BlockAgent

/-- An agent that has done nothing yet. -/
def init (agent : String) (quiet_max_mbps : F) : BlockAgent F :=
  ⟨agent, quiet_max_mbps, ⟨[], ∅⟩, ∅, none, 0, [], [], [], [], [], []⟩

/-- A reply is written on the session its command came from. -/
def send (c : BlockAgent F) (session : ℕ) : Option (ProbeReply F) → BlockAgent F
  | none => c
  | some r =>
    if c.session = some session then { c with flight := c.flight ++ [r] }
    else { c with lost := c.lost ++ [r] }

variable [LinearOrder F] [Zero F]

/-- The answer to a command. -/
def replyTo (c : BlockAgent F) (task : ProbeTask) (m : Measured F) :
    BlockQueue × Option (ProbeReply F) :=
  probeReply c.agent c.quiet_max_mbps c.node c.queue task.id task.tier task.token task.link
    task.traceparent m

/-- One event. -/
def step (c : BlockAgent F) : BlockEvent F → Option (BlockAgent F)
  | .refresh links => some { c with node := (c.node.refreshed links).1 }
  | .push iface b =>
    some { c with
      queue := pushBlock c.queue iface b
      pushed := c.pushed ++ [(iface, b)]
      dropped := c.dropped ++ overflow c.queue iface }
  | .connect =>
    match c.session with
    | none => some { c with session := some c.connects, connects := c.connects + 1 }
    | some _ => none
  | .drop =>
    match c.session with
    | none => none
    | some _ => some { c with session := none, flight := [], lost := c.lost ++ c.flight }
  | .command id tier token link traceparent =>
    match c.session with
    | none => none
    | some session =>
      some { c with tasks := c.tasks ++ [⟨session, id, tier, token, link, traceparent⟩] }
  | .answer i m =>
    match c.tasks[i]? with
    | none => none
    | some task =>
      let res := c.replyTo task m
      some ({ c with queue := res.1, tasks := c.tasks.eraseIdx i }.send task.session res.2)
  | .deliver j =>
    match c.flight[j]? with
    | none => none
    | some r => some { c with flight := c.flight.eraseIdx j, received := c.received ++ [r] }
  | .lose j =>
    match c.flight[j]? with
    | none => none
    | some r => some { c with flight := c.flight.eraseIdx j, lost := c.lost ++ [r] }

/-! ### Where the blocks are -/

/-- How often a block is queued, on the way, received, or dropped for room. -/
def accounted (c : BlockAgent F) (x : String × MarkBlock) : ℕ :=
  (c.queue.of x.1).count x.2 + (c.flight.flatMap carried).count x +
    (c.received.flatMap carried).count x + c.dropped.count x

/-- Every block pushed is queued, on the way, received, or dropped for room. -/
def NothingLost (c : BlockAgent F) : Prop := ∀ x, c.pushed.count x = c.accounted x

/-- Every block pushed is accounted for, or in a reply that was lost. -/
def Conserved (c : BlockAgent F) : Prop :=
  ∀ x, c.pushed.count x = c.accounted x + (c.lost.flatMap carried).count x

/-- The command whose answer takes the blocks of a queue: an always probe of a known
    interface. -/
def Takes (c : BlockAgent F) (task : ProbeTask) : Prop :=
  task.tier = .always ∧ (c.node.find task.link.interface).isSome

instance (c : BlockAgent F) (task : ProbeTask) : Decidable (c.Takes task) :=
  inferInstanceAs (Decidable (_ ∧ _))

/-- No reply that is lost in this event carries a block. -/
def LosesNoBlock (c : BlockAgent F) : BlockEvent F → Prop
  | .drop => ∀ r ∈ c.flight, r.blocks = []
  | .answer i _ =>
    ∀ task ∈ c.tasks[i]?, c.session ≠ some task.session → c.Takes task →
      c.queue.of task.link.interface = []
  | .lose j => ∀ r ∈ c.flight[j]?, r.blocks = []
  | _ => True

instance (c : BlockAgent F) (e : BlockEvent F) : Decidable (c.LosesNoBlock e) := by
  unfold LosesNoBlock
  split <;> infer_instance

/-! ### What an event does to the blocks -/

variable {c c' : BlockAgent F} {e : BlockEvent F}

omit [LinearOrder F] [Zero F] in
@[simp] theorem pushed_send (c : BlockAgent F) (session : ℕ) (r : Option (ProbeReply F)) :
    (c.send session r).pushed = c.pushed := by
  cases r with
  | none => rfl
  | some r =>
    simp only [send]
    split <;> rfl

omit [LinearOrder F] [Zero F] in
/-- Writing a reply adds its blocks to those on the way or to the lost ones. -/
theorem count_send (c : BlockAgent F) (session : ℕ) (r : ProbeReply F) (x : String × MarkBlock) :
    (c.send session (some r)).accounted x + ((c.send session (some r)).lost.flatMap carried).count x =
      c.accounted x + (c.lost.flatMap carried).count x + (carried r).count x := by
  simp only [send, accounted]
  split <;> simp only [count_concat] <;> omega

theorem replyTo_cases (c : BlockAgent F) (task : ProbeTask) (m : Measured F) :
    (∃ r, c.replyTo task m = ((takeBlocks c.queue r.link.interface).1, some r) ∧ c.Takes task ∧
      r.link = task.link ∧ r.blocks = c.queue.of r.link.interface) ∨
    ∃ r, c.replyTo task m = (c.queue, r) ∧ ¬ c.Takes task ∧ ∀ x ∈ r, x.blocks = [] := by
  unfold replyTo
  rcases probeReply_cases c.agent c.quiet_max_mbps c.node c.queue task.id task.tier task.token
    task.link task.traceparent m with ⟨r, hreply, htakes, hlink, hblocks⟩ | hkeep
  · refine Or.inl ⟨r, ?_, htakes, hlink, ?_⟩
    · rw [hreply, hlink]
    · rw [hblocks, hlink]
  · exact Or.inr hkeep

/-- An answer moves blocks from the queue into its reply, or none at all. -/
theorem conserved_answer {i : ℕ} {m : Measured F} (hc : c.Conserved)
    (h : c.step (.answer i m) = some c') : c'.Conserved := by
  simp only [step] at h
  split at h
  · exact absurd h (by simp)
  rename_i task htask
  obtain rfl := Option.some.inj h
  intro x
  have hx := hc x
  rw [pushed_send]
  rcases replyTo_cases c task m with ⟨r, hreply, -, -, hblocks⟩ | ⟨r, hreply, -, hblocks⟩
  · -- the blocks of the queue are the ones in the reply
    rw [hreply, count_send]
    have hqueue := count_takeBlocks hblocks x
    simp only [accounted] at hx ⊢
    omega
  · rw [hreply]
    cases r with
    | none => exact hx
    | some r =>
      rw [count_send, count_carried_eq_zero.mpr (hblocks r rfl) x]
      exact hx

/-- Every event keeps the blocks. -/
theorem conserved_step (hc : c.Conserved) (h : c.step e = some c') : c'.Conserved := by
  cases e with
  | refresh links =>
    obtain rfl := Option.some.inj h
    exact hc
  | push iface b =>
    obtain rfl := Option.some.inj h
    intro x
    have hx := hc x
    have hpush := count_pushBlock c.queue iface b x
    simp only [accounted, List.count_append] at hx ⊢
    omega
  | connect =>
    simp only [step] at h
    split at h
    · obtain rfl := Option.some.inj h
      exact hc
    · exact absurd h (by simp)
  | drop =>
    simp only [step] at h
    split at h
    · exact absurd h (by simp)
    · obtain rfl := Option.some.inj h
      intro x
      have hx := hc x
      simp only [accounted, List.flatMap_append, List.count_append, List.flatMap_nil,
        List.count_nil] at hx ⊢
      omega
  | command id tier token link traceparent =>
    simp only [step] at h
    split at h
    · exact absurd h (by simp)
    · obtain rfl := Option.some.inj h
      exact hc
  | answer i m => exact conserved_answer hc h
  | deliver j =>
    simp only [step] at h
    split at h
    · exact absurd h (by simp)
    · rename_i r hr
      obtain rfl := Option.some.inj h
      -- the blocks of the reply go from the ones on the way to the ones received
      intro x
      have hx := hc x
      have hout := count_eraseIdx hr x
      simp only [accounted, count_concat] at hx ⊢
      omega
  | lose j =>
    simp only [step] at h
    split at h
    · exact absurd h (by simp)
    · rename_i r hr
      obtain rfl := Option.some.inj h
      intro x
      have hx := hc x
      have hout := count_eraseIdx hr x
      simp only [accounted, count_concat] at hx ⊢
      omega

/-- **No block vanishes**: every block pushed is queued, on the way, received, dropped for room,
    or in a reply that was lost. -/
theorem count_pushed {agent : String} {quiet_max_mbps : F}
    (hrun : Runs step Always (init agent quiet_max_mbps) c) : c.Conserved := by
  refine hrun.invariant (fun x => ?_) fun _ _ _ hc _ h => conserved_step hc h
  simp [init, accounted, BlockQueue.of]

/-! ### The replies that are lost -/

/-- The replies an event adds to the lost ones, and the condition that none carries a block. -/
theorem step_lost (h : c.step e = some c') :
    ∃ added, c'.lost = c.lost ++ added ∧ (c.LosesNoBlock e ↔ ∀ r ∈ added, r.blocks = []) := by
  -- most events lose nothing, and nothing is asked of them
  have hsame : c'.lost = c.lost → c.LosesNoBlock e →
      ∃ added, c'.lost = c.lost ++ added ∧ (c.LosesNoBlock e ↔ ∀ r ∈ added, r.blocks = []) := by
    intro hlost hno
    exact ⟨[], by simp [hlost], by simp [hno]⟩
  cases e with
  | refresh links =>
    obtain rfl := Option.some.inj h
    exact hsame rfl trivial
  | push iface b =>
    obtain rfl := Option.some.inj h
    exact hsame rfl trivial
  | connect =>
    simp only [step] at h
    split at h
    · obtain rfl := Option.some.inj h
      exact hsame rfl trivial
    · exact absurd h (by simp)
  | drop =>
    simp only [step] at h
    split at h
    · exact absurd h (by simp)
    · obtain rfl := Option.some.inj h
      exact ⟨c.flight, rfl, Iff.rfl⟩
  | command id tier token link traceparent =>
    simp only [step] at h
    split at h
    · exact absurd h (by simp)
    · obtain rfl := Option.some.inj h
      exact hsame rfl trivial
  | answer i m =>
    simp only [step] at h
    split at h
    · exact absurd h (by simp)
    rename_i task htask
    obtain rfl := Option.some.inj h
    have hno : c.LosesNoBlock (.answer i m) ↔
        (c.session ≠ some task.session → c.Takes task → c.queue.of task.link.interface = []) := by
      simp [LosesNoBlock, htask]
    -- the reply takes the queue of the interface, or carries no block
    rcases replyTo_cases c task m with
      ⟨r, hreply, htakes, hlink, hblocks⟩ | ⟨r, hreply, htakes, hblocks⟩
    · rw [hreply, hno]
      simp only [send]
      split
      · rename_i hup
        exact ⟨[], by simp, by simp [hup]⟩
      · -- the session has dropped, and the reply carries the queue of the interface
        rename_i hdown
        refine ⟨[r], rfl, ?_⟩
        simp [hdown, htakes, hblocks, hlink]
    · rw [hreply, hno]
      cases r with
      | none => exact ⟨[], by simp [send], by simp [htakes]⟩
      | some r =>
        have hempty := hblocks r rfl
        simp only [send]
        split
        · exact ⟨[], by simp, by simp [htakes]⟩
        · exact ⟨[r], rfl, by simp [htakes, hempty]⟩
  | deliver j =>
    simp only [step] at h
    split at h
    · exact absurd h (by simp)
    · obtain rfl := Option.some.inj h
      exact hsame rfl trivial
  | lose j =>
    simp only [step] at h
    split at h
    · exact absurd h (by simp)
    · rename_i r hr
      obtain rfl := Option.some.inj h
      refine ⟨[r], rfl, ?_⟩
      simp [LosesNoBlock, hr]

/-- The replies a run loses, and the condition that none carries a block. -/
theorem exec_lost {es : List (BlockEvent F)} (h : exec step Always c es = some c') :
    ∃ added, c'.lost = c.lost ++ added ∧
      (exec step LosesNoBlock c es = some c' ↔ ∀ r ∈ added, r.blocks = []) := by
  induction es generalizing c with
  | nil =>
    obtain rfl := Option.some.inj h
    exact ⟨[], by simp, by simp [exec]⟩
  | cons e es ih =>
    obtain ⟨-, t, ht, hrest⟩ := exec_cons_eq_some_iff.mp h
    obtain ⟨first, hfirst, hno⟩ := step_lost ht
    obtain ⟨later, hlater, hiff⟩ := ih hrest
    refine ⟨first ++ later, by rw [hlater, hfirst, List.append_assoc], ?_⟩
    rw [exec_cons_eq_some_iff, hno]
    constructor
    · rintro ⟨hempty, t', ht', hrest'⟩ r hr
      obtain rfl := Option.some.inj (ht.symm.trans ht')
      rcases List.mem_append.mp hr with hr | hr
      · exact hempty r hr
      · exact hiff.mp hrest' r hr
    · intro hempty
      refine ⟨fun r hr => hempty r (List.mem_append_left _ hr), t, ht, ?_⟩
      exact hiff.mpr fun r hr => hempty r (List.mem_append_right _ hr)

omit [LinearOrder F] [Zero F] in
/-- No block is lost exactly if the lost replies carry none. -/
theorem Conserved.lost_empty_iff (hc : c.Conserved) :
    c.NothingLost ↔ ∀ r ∈ c.lost, r.blocks = [] := by
  constructor
  · intro hnone r hr
    apply count_carried_eq_zero.mp
    intro x
    have hzero : (c.lost.flatMap carried).count x = 0 := by
      have hx := hc x
      rw [hnone x] at hx
      omega
    apply List.count_eq_zero.mpr
    intro hmem
    exact List.count_eq_zero.mp hzero (List.mem_flatMap.mpr ⟨r, hr, hmem⟩)
  · intro hempty x
    have hzero : (c.lost.flatMap carried).count x = 0 := by
      apply List.count_eq_zero.mpr
      intro hmem
      obtain ⟨r, hr, hmem⟩ := List.mem_flatMap.mp hmem
      simp [carried, hempty r hr] at hmem
    rw [hc x, hzero, add_zero]

/-- **Finished blocks are not lost on the way** in exactly the runs in which no reply that is
    lost carries a block. -/
theorem nothingLost_iff {agent : String} {quiet_max_mbps : F} {es : List (BlockEvent F)}
    (hrun : exec step Always (init agent quiet_max_mbps) es = some c) :
    c.NothingLost ↔ exec step LosesNoBlock (init agent quiet_max_mbps) es = some c := by
  obtain ⟨added, hlost, hiff⟩ := exec_lost hrun
  rw [(count_pushed (Runs.of_exec es hrun)).lost_empty_iff, hlost, hiff]
  simp [init]

/-! ### A report under which the session drops -/

private def markedLink : LinkKey := ⟨"spoke-1", "hub", "awg_hub"⟩

private def countedBlock : MarkBlock :=
  { n := 7, secs := 10, tx_pkts_s := 8, tx_pkts_l := 4, tx_bytes := 600, rx_pkts_s := 7
    rx_pkts_l := 3, rx_bytes := 500, reset := false, under_test := false }

private def measured : Measured ℕ := ⟨⟨some 20, some 1, some 0⟩, 0, ⟨false, 0, none, none, none⟩⟩

/-- A block is queued, and an always probe answered. -/
private def reported : List (BlockEvent ℕ) :=
  [.refresh [⟨"awg_hub", "hub", none⟩], .connect, .push "awg_hub" countedBlock,
    .command "probe" .always none markedLink none, .answer 0 measured]

/-- The reply is received, and the next one, without blocks, is lost. -/
theorem nothing_lost_in_empty_reply : ∃ c : BlockAgent ℕ, c.NothingLost ∧
    c.received.flatMap carried = [("awg_hub", countedBlock)] ∧ c.lost.length = 1 := by
  have hrun : exec step Always (init "spoke-1" 1 : BlockAgent ℕ)
      (reported ++ [.deliver 0, .command "probe" .always none markedLink none,
        .answer 0 measured, .lose 0]) = some _ := rfl
  exact ⟨_, (nothingLost_iff hrun).mpr rfl, rfl, rfl⟩

/-- **Blocks lost on the way.**  The session drops under the reply: the block has left the queue,
    and neither did the controller receive it nor was it dropped for room. -/
theorem lost_reply_loses_blocks : ∃ c : BlockAgent ℕ,
    Runs step Always (init "spoke-1" 1) c ∧ c.pushed = [("awg_hub", countedBlock)] ∧
      c.queue.of "awg_hub" = [] ∧ c.flight = [] ∧ c.received = [] ∧ c.dropped = [] ∧
      ¬ c.NothingLost := by
  have hrun : exec step Always (init "spoke-1" 1 : BlockAgent ℕ) (reported ++ [.drop]) = some _ :=
    rfl
  refine ⟨_, Runs.of_exec _ hrun, rfl, rfl, rfl, rfl, rfl, fun h => ?_⟩
  exact absurd (h ("awg_hub", countedBlock)) (by decide)

end BlockAgent

end Mielofon
