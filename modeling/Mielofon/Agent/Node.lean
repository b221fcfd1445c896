import Mielofon.Lib.Map
import Mielofon.Proto

namespace Mielofon

open Lib

/-!
# The node of an agent

What an agent knows of its node: the discovered links, the costs it was told to apply and the
marking blocks waiting for the next report.

* `NodeState.find`, `NodeState.refreshed` — the link of an interface, and a refresh;
* `takeBlocks`, `pushBlock` — the queue of finished blocks;
* `probeReply` — the answer to a probe command.
-/

/-! ### Links and costs -/

/-- A discovered outgoing link, with the cost the snapshot reports for its interface. -/
structure Link where
  interface : String
  «to» : String
  cost : Option ℕ
deriving DecidableEq, Repr

/-- The links in use, and the last cost the controller told the agent to apply, per interface. -/
structure NodeState where
  links : List Link
  desired : Map String ℕ

namespace NodeState

def find (st : NodeState) (iface : String) : Option Link :=
  st.links.find? (fun l => l.interface = iface)

/-- The interfaces at another cost than the desired one: interface, cost, desired cost. -/
def drifted (st : NodeState) (links : List Link) : List (String × ℕ × ℕ) :=
  links.filterMap fun l =>
    (st.desired.get l.interface).bind fun want =>
      l.cost.bind fun has =>
        if has ≠ want then some (l.interface, has, want) else none

/-- The section of a refresh under the state lock: costs of interfaces that are gone are
    forgotten, the drifted ones are collected, the links are replaced. -/
def refreshed (st : NodeState) (links : List Link) : NodeState × List (String × ℕ × ℕ) :=
  let desired := st.desired.retain (fun iface _ => links.any (fun l => l.interface = iface))
  let kept := { st with desired }
  ({ kept with links }, kept.drifted links)

def recordCost (st : NodeState) (iface : String) (cost : ℕ) : NodeState :=
  { st with desired := st.desired.set iface cost }

variable {iface : String}

theorem interface_of_find {st : NodeState} {l : Link} (h : st.find iface = some l) :
    l.interface = iface := by
  simpa using List.find?_some h

/-- A refresh forgets no cost of a link it has found. -/
theorem desired_refreshed {st : NodeState} {links : List Link}
    (h : ∃ l ∈ links, l.interface = iface) :
    (st.refreshed links).1.desired.get iface = st.desired.get iface := by
  have hany : links.any (fun l => l.interface = iface) = true := by simpa using h
  rw [refreshed, Map.get_retain, hany]
  cases st.desired.get iface <;> rfl

end NodeState

/-! ### Finished marking blocks -/

/-- Finished blocks per interface, oldest first. -/
abbrev BlockQueue := Map String (List MarkBlock)

/-- Blocks kept per interface while no always probe picks them up. -/
def queueCap : ℕ := 64

/-- The blocks of an interface. -/
def BlockQueue.of (queue : BlockQueue) (iface : String) : List MarkBlock :=
  (queue.get iface).getD []

/-- Drain the finished blocks of `iface`, oldest first. -/
def takeBlocks (queue : BlockQueue) (iface : String) : BlockQueue × List MarkBlock :=
  match queue.get iface with
  | none => (queue, [])
  | some q => (queue.set iface [], q)

/-- Queue a block; a full queue makes room by dropping the oldest. -/
def pushBlock (queue : BlockQueue) (iface : String) (b : MarkBlock) : BlockQueue :=
  let q := queue.of iface
  queue.set iface ((if queueCap ≤ q.length then q.tail else q) ++ [b])

theorem takeBlocks_snd (queue : BlockQueue) (iface : String) :
    (takeBlocks queue iface).2 = queue.of iface := by
  unfold takeBlocks BlockQueue.of
  split <;> simp_all

theorem of_takeBlocks (queue : BlockQueue) (iface iface' : String) :
    (takeBlocks queue iface).1.of iface' = if iface' = iface then [] else queue.of iface' := by
  unfold takeBlocks BlockQueue.of
  split
  · rename_i hnone
    split
    · rename_i heq
      simp [heq, hnone]
    · rfl
  · rw [Map.get_set]
    split <;> rfl

theorem of_pushBlock (queue : BlockQueue) (iface : String) (b : MarkBlock) (iface' : String) :
    (pushBlock queue iface b).of iface' =
      if iface' = iface then
        (if queueCap ≤ (queue.of iface).length then (queue.of iface).tail else queue.of iface) ++ [b]
      else queue.of iface' := by
  rw [BlockQueue.of, pushBlock, Map.get_set]
  split <;> rfl

/-! ### Answering a probe -/

variable {F : Type*}

/-- The live ping window of a link. -/
structure Snapshot (F : Type*) where
  rtt_ms : Option F
  jitter_ms : Option F
  loss_pct : Option F

/-- What the peer's server received from the fixed-rate UDP stream. -/
structure UdpResult (F : Type*) where
  mbps : F
  jitter_ms : Option F
  loss_pct : Option F

/-- One throughput run. -/
structure Outcome (F : Type*) where
  busy : Bool
  util_mbps : F
  tcp_mbps : Option F
  udp : Option (UdpResult F)
  error : Option String

/-- What the agent measures for a probe: the ping window, the utilisation since the last always
    probe, and the throughput run. -/
structure Measured (F : Type*) where
  snapshot : Snapshot F
  util_mbps : F
  outcome : Outcome F

/-- Answer a probe command: the queue after it, and the reply, if any. -/
def probeReply [LinearOrder F] [Zero F] (agent : String) (quiet_max_mbps : F) (node : NodeState)
    (queue : BlockQueue) (id : String) (tier : Tier) (token : Option String) (link : LinkKey)
    (traceparent : Option String) (m : Measured F) : BlockQueue × Option (ProbeReply F) :=
  match node.find link.interface, tier with
  | none, .always => (queue, none)
  | none, .throughput =>
    -- the command holds the fence: answered, so that the lease is released now
    (queue, some {
      agent, id, link, token, traceparent
      ts := none, rtt_ms := none, loss_pct := none, jitter_ms := none, tcp_mbps := none
      udp_mbps := none, udp_jitter_ms := none, udp_loss_pct := none, util_mbps := 0
      state := .busy, note := some ("unknown interface " ++ link.interface), blocks := [] })
  | some _, .throughput =>
    (queue, some {
      agent, id, link, token, traceparent
      ts := none, rtt_ms := m.snapshot.rtt_ms, loss_pct := m.snapshot.loss_pct
      jitter_ms := m.snapshot.jitter_ms, tcp_mbps := m.outcome.tcp_mbps
      udp_mbps := m.outcome.udp.map UdpResult.mbps
      udp_jitter_ms := m.outcome.udp.bind UdpResult.jitter_ms
      udp_loss_pct := m.outcome.udp.bind UdpResult.loss_pct
      util_mbps := m.outcome.util_mbps
      state := if m.outcome.busy then .busy else .quiet
      note := m.outcome.error, blocks := [] })
  | some l, .always =>
    let taken := takeBlocks queue l.interface
    (taken.1, some {
      agent, id, link, traceparent
      ts := none, rtt_ms := m.snapshot.rtt_ms, loss_pct := m.snapshot.loss_pct
      jitter_ms := m.snapshot.jitter_ms, tcp_mbps := none
      udp_mbps := none, udp_jitter_ms := none, udp_loss_pct := none
      util_mbps := m.util_mbps
      state := if quiet_max_mbps < m.util_mbps then .busy else .quiet
      token := none, note := none, blocks := taken.2 })

section Reply

variable [LinearOrder F] [Zero F] (agent : String) (quiet_max_mbps : F) (node : NodeState)
variable (queue : BlockQueue) (id : String) (tier : Tier) (token : Option String) (link : LinkKey)
variable (traceparent : Option String) (m : Measured F)

/-- Only the reply to an always probe of a known interface takes the blocks of its queue. -/
theorem probeReply_cases :
    (∃ r, probeReply agent quiet_max_mbps node queue id tier token link traceparent m =
        ((takeBlocks queue link.interface).1, some r) ∧
      (tier = .always ∧ (node.find link.interface).isSome) ∧ r.link = link ∧
      r.blocks = queue.of link.interface) ∨
    ∃ r, probeReply agent quiet_max_mbps node queue id tier token link traceparent m = (queue, r) ∧
      ¬ (tier = .always ∧ (node.find link.interface).isSome) ∧ ∀ x ∈ r, x.blocks = [] := by
  unfold probeReply
  split
  · rename_i hfind
    exact Or.inr ⟨_, rfl, by simp [hfind], by simp⟩
  · exact Or.inr ⟨_, rfl, by simp, by simp⟩
  · exact Or.inr ⟨_, rfl, by simp, by simp⟩
  · rename_i l hfind
    rw [NodeState.interface_of_find hfind]
    exact Or.inl ⟨_, rfl, ⟨rfl, by simp [hfind]⟩, rfl, takeBlocks_snd queue link.interface⟩

end Reply

end Mielofon
