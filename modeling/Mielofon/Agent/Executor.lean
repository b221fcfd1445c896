import Mathlib
import Mielofon.Agent.Throughput
import Mielofon.Lib.Runs
import Mielofon.Lib.Tally
import Mielofon.Wire

namespace Mielofon

open Lib

/-!
# Executing commands

An agent runs each command in a task of its own (`execute` in `agent.rs`): it finds the link, counts
what it does, measures or applies, and replies.  The sections of the tasks and the refreshes of the
node interleave in any order.

* `rateMbps` — the rate between two readings of a byte counter;
* `CounterName`, `ExecTask`, `ExecNode` — the counters, the commands, and the node;
* `ExecNode.step` — one section;
* `RepliesTo` — a reply answers its command;
* `counts` — which commands a counter counts;
* `commands_answered` — every command that has ended is answered, and every counter is right;
* `traffic_accounted` — the rates that were reported add up to the traffic.
-/

variable {F : Type*}

/-! ### Utilisation -/

/-- The rate in Mbit/s between two readings of a byte counter, `span` nanoseconds apart. -/
def rateMbps [Field F] (before after span : ℕ) : F :=
  if span = 0 then 0
  else ((after - before : ℕ) : F) * (8 : ℕ) / (1000000 : ℕ) / ((span : F) / (1000000000 : ℕ))

/-- A reading that was accounted: the reading before it, if there was one. -/
structure UtilRead (F : Type*) where
  interface : String
  since : Option (ℕ × ℕ)
  stamp : ℕ × ℕ
  util : F
deriving DecidableEq

/-! ### The agent -/

inductive CounterName where
  | commands_received
  | commands_succeeded
  | commands_errored
  | probe_ping
  | probe_iperf
  | probe_busy
  | probe_errors_ping
  | probe_errors_iperf
  | apply_cost
  | apply_cost_errors
  | apply_cost_reapplied
deriving DecidableEq, Repr

/-- The last throughput result of a link. -/
structure LastThroughput (F : Type*) where
  tcp_mbps : Option F
  udp : Option (UdpResult F)
  util_mbps : F
  busy : Bool
  unixtime : ℕ

/-- How far a command has got. -/
inductive ExecPhase (F : Type*) where
  | testing
  | tested (out : Outcome F)
  | reading
  | read (bytes : ℕ)
  | stamped (bytes at_ : ℕ)
  | measured (util : F)
  | applying
  /-- The cost is applied, and still to be remembered. -/
  | recording
  | routing
  | ended (reply : Option (Wire.AgentReply F)) (ok : Bool)

/-- A command, with the node as it was when the command arrived. -/
structure ExecTask (F : Type*) where
  cmd : WorkCmd
  node : NodeState
  phase : ExecPhase F

/-- The agent.  As history: the readings that were accounted, the newest first, and how the costs
    that a refresh applied again have fared. -/
structure ExecNode (F : Type*) where
  now : ℕ
  node : NodeState
  counters : Map String (ℕ × ℕ)
  queue : BlockQueue
  metrics : CounterName → ℕ
  throughput : Map String (LastThroughput F)
  tasks : List (ExecTask F)
  reads : List (UtilRead F)
  reapplied : List Bool

structure ExecCfg (F : Type*) where
  agent : String
  quiet_max_mbps : F

inductive ExecEvent (F : Type*) where
  | elapse (span : ℕ)
  | command (cmd : WorkCmd)
  | refresh (links : List Link)
  /-- A drifted cost was applied again, or failed to be. -/
  | reapplied (ok : Bool)
  | block (iface : String) (b : MarkBlock)
  | tested (i : ℕ) (out : Outcome F) (unixtime : ℕ)
  | bytes (i : ℕ) (total : Option ℕ)
  | stamp (i : ℕ)
  | account (i : ℕ)
  | reply (i : ℕ) (snapshot : Snapshot F)
  | applied (i : ℕ) (res : Except String Unit)
  | record (i : ℕ)
  | routed (i : ℕ) (code : ℤ) (routes : List Wire.RouteRep)

namespace ExecNode

def start : ExecNode F := ⟨0, ⟨[], ∅⟩, ∅, ∅, fun _ => 0, ∅, [], [], []⟩

def count (s : ExecNode F) (k : CounterName) : ExecNode F := { s with metrics := inc s.metrics k }

/-- Count once more under `k` if `b`. -/
def countIf (s : ExecNode F) (b : Bool) (k : CounterName) : ExecNode F :=
  { s with metrics := if b then inc s.metrics k else s.metrics }

def push (s : ExecNode F) (cmd : WorkCmd) (phase : ExecPhase F) : ExecNode F :=
  { s with tasks := s.tasks ++ [⟨cmd, s.node, phase⟩] }

def setPhase (s : ExecNode F) (i : ℕ) (t : ExecTask F) (phase : ExecPhase F) : ExecNode F :=
  { s with tasks := s.tasks.set i { t with phase } }

@[simp] theorem count_node (s : ExecNode F) (k : CounterName) : (s.count k).node = s.node := rfl

@[simp] theorem count_metrics (s : ExecNode F) (k : CounterName) :
    (s.count k).metrics = inc s.metrics k := rfl

@[simp] theorem countIf_metrics (s : ExecNode F) (b : Bool) (k j : CounterName) :
    (s.countIf b k).metrics j = s.metrics j + if b ∧ j = k then 1 else 0 := by
  cases b <;> simp [countIf]

@[simp] theorem push_metrics (s : ExecNode F) (cmd : WorkCmd) (phase : ExecPhase F) :
    (s.push cmd phase).metrics = s.metrics := rfl

@[simp] theorem setPhase_metrics (s : ExecNode F) (i : ℕ) (t : ExecTask F) (phase : ExecPhase F) :
    (s.setPhase i t phase).metrics = s.metrics := rfl

variable [LinearOrder F] [Field F] (cfg : ExecCfg F)

/-- The answer to a probe of `t`. -/
def probed (s : ExecNode F) (node : NodeState) (id : String) (tier : Tier) (token : Option String)
    (link : LinkKey) (traceparent : Option String) (m : Measured F) :
    BlockQueue × Option (ProbeReply F) :=
  probeReply cfg.agent cfg.quiet_max_mbps node s.queue id tier token link traceparent m

/-- What is measured of a link that is not there. -/
def nothing : Measured F := ⟨⟨none, none, none⟩, 0, .skipped 0⟩

/-- A command arrives: it is counted, and its link looked up. -/
def receive (s : ExecNode F) (cmd : WorkCmd) : ExecNode F :=
  let s := s.count .commands_received
  match cmd with
  | .probe id tier token link traceparent =>
    match s.node.find link.interface, tier with
    | none, tier => (s.count .commands_errored).push cmd
        (.ended ((s.probed cfg s.node id tier token link traceparent nothing).2.map .probe) false)
    | some _, .throughput => (s.count .probe_iperf).push cmd .testing
    | some _, .always => (s.count .probe_ping).push cmd .reading
  | .applyCost id link cost traceparent =>
    match s.node.find link.interface with
    | none => ((s.count .apply_cost_errors).count .commands_errored).push cmd
        (.ended (some (.applied cfg.agent id link cost
          (some ("unknown interface " ++ link.interface)) traceparent)) false)
    | some _ => s.push cmd .applying
  | .trace _ _ _ => s.push cmd .routing

/-- The links of a refresh replace the old ones, and what is known of interfaces that are gone is
    forgotten. -/
def refreshed (s : ExecNode F) (links : List Link) : ExecNode F :=
  { s with
    node := (s.node.refreshed links).1
    counters := s.counters.retain fun iface _ => links.any fun l => l.interface = iface }

/-- Under the state lock: a reading replaces the one before it, which gives the rate. -/
def account (s : ExecNode F) (iface : String) (bytes at_ : ℕ) : ExecNode F × F :=
  let prev := s.counters.get iface
  let util := (prev.map fun p => rateMbps p.1 bytes (at_ - p.2)).getD 0
  ({ s with
      counters := s.counters.set iface (bytes, at_)
      reads := ⟨iface, prev, (bytes, at_), util⟩ :: s.reads }, util)

/-- The next section of a command. -/
def stepTask (s : ExecNode F) (i : ℕ) (t : ExecTask F) (e : ExecEvent F) : Option (ExecNode F) :=
  match t.cmd, t.phase, e with
  | .probe _ .throughput _ link _, .testing, .tested _ out unixtime =>
    let s := (s.countIf out.busy .probe_busy).countIf out.error.isSome .probe_errors_iperf
    some { s.setPhase i t (.tested out) with
      throughput := s.throughput.set link.interface
        ⟨out.tcp_mbps, out.udp, out.util_mbps, out.busy, unixtime⟩ }
  | .probe _ .always _ _ _, .reading, .bytes _ none => some (s.setPhase i t (.measured 0))
  | .probe _ .always _ _ _, .reading, .bytes _ (some total) => some (s.setPhase i t (.read total))
  | .probe _ .always _ _ _, .read bytes, .stamp _ => some (s.setPhase i t (.stamped bytes s.now))
  | .probe _ .always _ link _, .stamped bytes at_, .account _ =>
    let res := s.account link.interface bytes at_
    some (res.1.setPhase i t (.measured res.2))
  | .probe id .throughput token link traceparent, .tested out, .reply _ snapshot =>
    let res := s.probed cfg t.node id .throughput token link traceparent ⟨snapshot, 0, out⟩
    some ({ s.count .commands_succeeded with queue := res.1 }.setPhase i t
      (.ended (res.2.map .probe) true))
  | .probe id .always token link traceparent, .measured util, .reply _ snapshot =>
    let res := s.probed cfg t.node id .always token link traceparent ⟨snapshot, util, .skipped 0⟩
    let s := s.countIf snapshot.rtt_ms.isNone .probe_errors_ping
    some ({ s.count .commands_succeeded with queue := res.1 }.setPhase i t
      (.ended (res.2.map .probe) true))
  | .applyCost _ _ _ _, .applying, .applied _ (.ok ()) =>
    some (((s.count .apply_cost).count .commands_succeeded).setPhase i t .recording)
  | .applyCost id link cost traceparent, .applying, .applied _ (.error e) =>
    some (((s.count .apply_cost_errors).count .commands_errored).setPhase i t
      (.ended (some (.applied cfg.agent id link cost (some e) traceparent)) false))
  | .applyCost id link cost traceparent, .recording, .record _ =>
    some ({ s with node := s.node.recordCost link.interface cost }.setPhase i t
      (.ended (some (.applied cfg.agent id link cost none traceparent)) true))
  | .trace id target traceparent, .routing, .routed _ code routes =>
    some ((s.count .commands_succeeded).setPhase i t
      (.ended (some (.trace cfg.agent id traceparent target code routes)) true))
  | _, _, _ => none

def step (s : ExecNode F) (e : ExecEvent F) : Option (ExecNode F) :=
  match e with
  | .elapse span => some { s with now := s.now + span }
  | .command cmd => some (s.receive cfg cmd)
  | .refresh links => some (s.refreshed links)
  | .reapplied ok =>
    some { s.count (if ok then .apply_cost_reapplied else .apply_cost_errors) with
      reapplied := ok :: s.reapplied }
  | .block iface b => some { s with queue := pushBlock s.queue iface b }
  | .tested i .. | .bytes i _ | .stamp i | .account i | .reply i _ | .applied i _ | .record i
  | .routed i .. => (s.tasks[i]?).bind fun t => s.stepTask cfg i t e

end ExecNode

/-! ### What a reply says -/

@[simp] def WorkCmd.probes (tier : Tier) : WorkCmd → Bool
  | .probe _ tier' _ _ _ => tier' = tier
  | _ => false

@[simp] def WorkCmd.applies : WorkCmd → Bool
  | .applyCost .. => true
  | _ => false

/-- The reply repeats what its command is known by, and says how it went: a throughput reply returns
    the token, and an always reply says busy exactly above the quiet threshold. -/
def RepliesTo [LT F] (cfg : ExecCfg F) (ok : Bool) : WorkCmd → Wire.AgentReply F → Prop
  | .probe id .throughput token link traceparent, .probe r =>
    r.agent = cfg.agent ∧ r.id = id ∧ r.link = link ∧ r.traceparent = traceparent ∧
      r.token = token ∧ r.blocks = [] ∧ (ok = false → r.state = .busy)
  | .probe id .always _ link traceparent, .probe r =>
    r.agent = cfg.agent ∧ r.id = id ∧ r.link = link ∧ r.traceparent = traceparent ∧
      r.token = none ∧ r.note = none ∧ ok = true ∧
      (r.state = .busy ↔ cfg.quiet_max_mbps < r.util_mbps)
  | .applyCost id link cost traceparent, .applied agent id' link' cost' note traceparent' =>
    agent = cfg.agent ∧ id' = id ∧ link' = link ∧ cost' = cost ∧ traceparent' = traceparent ∧
      (note = none ↔ ok = true)
  | .trace id target traceparent, .trace agent id' traceparent' prefix_ _ _ =>
    agent = cfg.agent ∧ id' = id ∧ traceparent' = traceparent ∧ prefix_ = target ∧ ok = true
  | _, _ => False

namespace ExecTask

/-- Whether the node had the link of the command. -/
@[simp] def found (t : ExecTask F) : Bool :=
  match t.cmd with
  | .probe _ _ _ link _ | .applyCost _ link _ _ => (t.node.find link.interface).isSome
  | .trace .. => true

/-- Only a probe for an interface the node does not have ends without a reply. -/
def Ok [LT F] (cfg : ExecCfg F) (t : ExecTask F) : Prop :=
  match t.phase with
  | .testing | .tested _ => t.cmd.probes .throughput = true ∧ t.found = true
  | .reading | .read _ | .stamped _ _ | .measured _ =>
    t.cmd.probes .always = true ∧ t.found = true
  | .applying | .recording => t.cmd.applies = true
  | .routing => True
  | .ended (some r) ok => RepliesTo cfg ok t.cmd r
  | .ended none ok => t.cmd.probes .always = true ∧ t.found = false ∧ ok = false

/-! ### What is counted -/

@[simp] def succeeded (t : ExecTask F) : Bool := t.phase matches .recording | .ended _ true

@[simp] def errored (t : ExecTask F) : Bool := t.phase matches .ended _ false

@[simp] def tests (t : ExecTask F) : Bool := t.cmd.probes .throughput && t.found

/-- The test was skipped on a busy link. -/
@[simp] def busy (t : ExecTask F) : Bool :=
  match t.phase with
  | .tested out => out.busy
  | .ended (some (.probe r)) _ => r.state = .busy
  | _ => false

/-- The test gave a reason why a figure is missing. -/
@[simp] def failed (t : ExecTask F) : Bool :=
  match t.phase with
  | .tested out => out.error.isSome
  | .ended (some (.probe r)) _ => r.note.isSome
  | _ => false

/-- No ping of the window was answered. -/
@[simp] def silent (t : ExecTask F) : Bool :=
  match t.phase with
  | .ended (some (.probe r)) _ => r.rtt_ms.isNone
  | _ => false

/-- Whether a command is counted by a counter. -/
@[simp] def counts : CounterName → ExecTask F → Bool
  | .commands_received, _ => true
  | .commands_succeeded, t => t.succeeded
  | .commands_errored, t => t.errored
  | .probe_ping, t => t.cmd.probes .always && t.found
  | .probe_iperf, t => t.tests
  | .probe_busy, t => t.tests && t.busy
  | .probe_errors_iperf, t => t.tests && t.failed
  | .probe_errors_ping, t => t.cmd.probes .always && t.silent
  | .apply_cost, t => t.cmd.applies && t.succeeded
  | .apply_cost_errors, t => t.cmd.applies && t.errored
  | .apply_cost_reapplied, _ => false

end ExecTask

/-! ### What is accounted -/

/-- The readings of one interface, the newest first: each has the rate since the one it follows, and
    follows the one before it, unless that was forgotten. -/
def Chained [Field F] : List (UtilRead F) → Prop
  | [] => True
  | r :: before =>
    r.util = (r.since.map fun p => rateMbps p.1 r.stamp.1 (r.stamp.2 - p.2)).getD 0 ∧
      (r.since = none ∨ r.since = before.head?.map UtilRead.stamp) ∧ Chained before

def readsOf (reads : List (UtilRead F)) (iface : String) : List (UtilRead F) :=
  reads.filter fun r => r.interface = iface

/-- The map has the newest reading of an interface, unless it was forgotten. -/
def Accounted [Field F] (counters : Map String (ℕ × ℕ)) (reads : List (UtilRead F)) : Prop :=
  ∀ iface, Chained (readsOf reads iface) ∧ (counters.get iface = none ∨
    counters.get iface = (readsOf reads iface).head?.map UtilRead.stamp)

/-- The interface of a probe. -/
@[simp] def ExecTask.iface (t : ExecTask F) : String :=
  match t.cmd with
  | .probe _ _ _ link _ => link.interface
  | _ => ""

/-- The utilisation an always probe reports. -/
@[simp] def ExecTask.reported (t : ExecTask F) : Option F :=
  match t.cmd, t.phase with
  | .probe _ .always _ _ _, .measured util => some util
  | .probe _ .always _ _ _, .ended (some (.probe r)) _ => some r.util_mbps
  | _, _ => none

/-- What is reported was accounted; it is zero when the counters could not be read. -/
def ExecTask.Reports [Zero F] (reads : List (UtilRead F)) (t : ExecTask F) : Prop :=
  ∀ util, t.reported = some util → util = 0 ∨ ∃ r ∈ reads, r.interface = t.iface ∧ r.util = util

theorem Accounted.retain [Field F] {counters : Map String (ℕ × ℕ)} {reads : List (UtilRead F)}
    (h : Accounted counters reads) (p : String → Bool) :
    Accounted (counters.retain fun iface _ => p iface) reads := by
  intro iface
  refine ⟨(h iface).1, ?_⟩
  rw [Map.get_retain_key]
  split
  · exact (h iface).2
  · exact .inl rfl

theorem Accounted.account [LinearOrder F] [Field F] {s : ExecNode F}
    (h : Accounted s.counters s.reads) (iface : String) (bytes at_ : ℕ) :
    Accounted (s.account iface bytes at_).1.counters (s.account iface bytes at_).1.reads := by
  intro j
  show Chained (readsOf (_ :: s.reads) j) ∧ ((s.counters.set iface (bytes, at_)).get j = none ∨
    (s.counters.set iface (bytes, at_)).get j = (readsOf (_ :: s.reads) j).head?.map _)
  unfold readsOf
  by_cases hj : j = iface
  · subst hj
    rw [List.filter_cons_of_pos (by simp), Map.get_set_self]
    exact ⟨⟨rfl, (h j).2, (h j).1⟩, .inr rfl⟩
  · rw [List.filter_cons_of_neg (by simpa using Ne.symm hj), Map.get_set_ne _ _ hj]
    exact h j

/-! ### The invariant -/

namespace ExecNode

/-- What the refreshes have counted. -/
def base (s : ExecNode F) (k : CounterName) : ℕ :=
  s.reapplied.countP fun ok => k = if ok then .apply_cost_reapplied else .apply_cost_errors

structure Inv [LinearOrder F] [Field F] (cfg : ExecCfg F) (s : ExecNode F) : Prop where
  ok : ∀ t ∈ s.tasks, t.Ok cfg
  tallies : Tallies ExecTask.counts s.base s.metrics s.tasks
  accounted : Accounted s.counters s.reads
  reports : ∀ t ∈ s.tasks, t.Reports s.reads

variable [LinearOrder F] [Field F] {cfg : ExecCfg F} {s s' : ExecNode F}

theorem inv_start : (start : ExecNode F).Inv cfg where
  ok := fun _ ht => absurd ht List.not_mem_nil
  tallies := fun _ => rfl
  accounted := fun _ => ⟨trivial, .inl rfl⟩
  reports := fun _ ht => absurd ht List.not_mem_nil

/-- A command arrives. -/
theorem Inv.push (h : s.Inv cfg) {t : ExecTask F} (htasks : s'.tasks = s.tasks ++ [t])
    (hbase : s'.reapplied = s.reapplied) (hcounters : s'.counters = s.counters)
    (hreads : s'.reads = s.reads) (hok : t.Ok cfg) (hreported : t.reported = none)
    (hc : ∀ k, s'.metrics k = s.metrics k + if t.counts k then 1 else 0) : s'.Inv cfg where
  ok := by
    intro u hu
    rw [htasks, List.mem_append, List.mem_singleton] at hu
    obtain hmem | rfl := hu
    · exact h.ok u hmem
    · exact hok
  tallies := by
    have hbases : s'.base = s.base := by
      unfold base
      rw [hbase]
    rw [htasks, hbases]
    exact h.tallies.push hc
  accounted := by
    rw [hcounters, hreads]
    exact h.accounted
  reports := by
    intro u hu
    rw [htasks, List.mem_append, List.mem_singleton] at hu
    rw [hreads]
    obtain hmem | rfl := hu
    · exact h.reports u hmem
    · exact fun util hutil => absurd (hreported.symm.trans hutil) (by simp)

/-- A command takes a step. -/
theorem Inv.set (h : s.Inv cfg) {i : ℕ} {t t' : ExecTask F} (ht : s.tasks[i]? = some t)
    (htasks : s'.tasks = s.tasks.set i t') (hbase : s'.reapplied = s.reapplied)
    (haccounted : Accounted s'.counters s'.reads) (hreads : ∀ r ∈ s.reads, r ∈ s'.reads)
    (hok : t'.Ok cfg) (hreports : t'.Reports s'.reads)
    (hc : ∀ k, s'.metrics k + (if t.counts k then 1 else 0) =
      s.metrics k + if t'.counts k then 1 else 0) : s'.Inv cfg where
  ok := by
    intro u hu
    rw [htasks] at hu
    obtain hmem | rfl := List.mem_or_eq_of_mem_set hu
    · exact h.ok u hmem
    · exact hok
  tallies := by
    have hbases : s'.base = s.base := by
      unfold base
      rw [hbase]
    rw [htasks, hbases]
    exact h.tallies.set ht hc
  accounted := haccounted
  reports := by
    intro u hu
    rw [htasks] at hu
    obtain hmem | rfl := List.mem_or_eq_of_mem_set hu
    · intro util hutil
      obtain hzero | ⟨r, hr, hrest⟩ := h.reports u hmem util hutil
      · exact .inl hzero
      · exact .inr ⟨r, hreads r hr, hrest⟩
    · exact hreports

/-- A command takes a step that accounts and reports nothing. -/
theorem Inv.advance (h : s.Inv cfg) {i : ℕ} {t t' : ExecTask F} (ht : s.tasks[i]? = some t)
    (htasks : s'.tasks = s.tasks.set i t') (hbase : s'.reapplied = s.reapplied)
    (hcounters : s'.counters = s.counters) (hreads : s'.reads = s.reads) (hok : t'.Ok cfg)
    (hreported : t'.reported = none)
    (hc : ∀ k, s'.metrics k + (if t.counts k then 1 else 0) =
      s.metrics k + if t'.counts k then 1 else 0) : s'.Inv cfg := by
  have haccounted : Accounted s'.counters s'.reads := by
    rw [hcounters, hreads]
    exact h.accounted
  have hkeep : ∀ r ∈ s.reads, r ∈ s'.reads := by
    rw [hreads]
    exact fun _ hr => hr
  refine h.set ht htasks hbase haccounted hkeep hok (fun util hutil => ?_) hc
  exact absurd (hreported.symm.trans hutil) (by simp)

/-! ### The replies to probes -/

section Probed

variable (cfg) (s : ExecNode F) {node : NodeState} (id : String) (token : Option String)
  {link : LinkKey} (traceparent : Option String) (m : Measured F)

theorem probed_gone (hfind : node.find link.interface = none) :
    (s.probed cfg node id .always token link traceparent m).2 = none := by
  unfold probed probeReply
  rw [hfind]

/-- A test of an interface that is gone is answered, so that its token comes back. -/
theorem probed_gone_test (hfind : node.find link.interface = none) :
    ∃ r, (s.probed cfg node id .throughput token link traceparent m).2 = some r ∧
      RepliesTo cfg false (.probe id .throughput token link traceparent) (.probe r) := by
  unfold probed probeReply
  rw [hfind]
  exact ⟨_, rfl, rfl, rfl, rfl, rfl, rfl, rfl, fun _ => rfl⟩

theorem probed_test (hfind : (node.find link.interface).isSome = true) :
    ∃ r, (s.probed cfg node id .throughput token link traceparent m).2 = some r ∧
      RepliesTo cfg true (.probe id .throughput token link traceparent) (.probe r) ∧
      decide (r.state = .busy) = m.outcome.busy ∧ r.note = m.outcome.error := by
  obtain ⟨l, hl⟩ := Option.isSome_iff_exists.1 hfind
  unfold probed probeReply
  rw [hl]
  refine ⟨_, rfl, ⟨rfl, rfl, rfl, rfl, rfl, rfl, fun hfalse => absurd hfalse (by simp)⟩, ?_, rfl⟩
  cases hbusy : m.outcome.busy <;> simp

theorem probed_always (hfind : (node.find link.interface).isSome = true) :
    ∃ r, (s.probed cfg node id .always token link traceparent m).2 = some r ∧
      RepliesTo cfg true (.probe id .always token link traceparent) (.probe r) ∧
      r.rtt_ms = m.snapshot.rtt_ms ∧ r.util_mbps = m.util_mbps := by
  obtain ⟨l, hl⟩ := Option.isSome_iff_exists.1 hfind
  unfold probed probeReply
  rw [hl]
  refine ⟨_, rfl, ⟨rfl, rfl, rfl, rfl, rfl, rfl, rfl, ?_⟩, rfl, rfl⟩
  by_cases hbusy : cfg.quiet_max_mbps < m.util_mbps <;> simp [hbusy]

end Probed

/-- **Step lemma of an arrival.** -/
theorem Inv.receive (h : s.Inv cfg) (cmd : WorkCmd) : (s.receive cfg cmd).Inv cfg := by
  let s₁ := s.count .commands_received
  cases cmd with
  | probe id tier token link traceparent =>
    cases hfind : s₁.node.find link.interface with
    | none =>
      have hgone : s.node.find link.interface = none := hfind
      cases tier with
      | always =>
        have hnone := s₁.probed_gone cfg id token traceparent nothing hfind
        simp only [ExecNode.receive, s₁, hfind]
        rw [hnone]
        refine h.push rfl rfl rfl rfl ⟨by simp, by simp [hgone], rfl⟩ rfl fun k => ?_
        cases k <;> simp [hgone]
      | throughput =>
        obtain ⟨r, hr, hanswers⟩ := s₁.probed_gone_test cfg id token traceparent nothing hfind
        simp only [ExecNode.receive, s₁, hfind]
        rw [hr]
        refine h.push rfl rfl rfl rfl hanswers rfl fun k => ?_
        cases k <;> simp [hgone]
    | some l =>
      have hhere : s.node.find link.interface = some l := hfind
      cases tier with
      | always =>
        simp only [ExecNode.receive, s₁, hfind]
        refine h.push rfl rfl rfl rfl ⟨by simp, by simp [hhere]⟩ rfl fun k => ?_
        cases k <;> simp [hhere]
      | throughput =>
        simp only [ExecNode.receive, s₁, hfind]
        refine h.push rfl rfl rfl rfl ⟨by simp, by simp [hhere]⟩ rfl fun k => ?_
        cases k <;> simp [hhere]
  | applyCost id link cost traceparent =>
    cases hfind : s₁.node.find link.interface with
    | none =>
      simp only [ExecNode.receive, s₁, hfind]
      refine h.push rfl rfl rfl rfl ⟨rfl, rfl, rfl, rfl, rfl, by simp⟩ rfl fun k => ?_
      cases k <;> simp
    | some l =>
      simp only [ExecNode.receive, s₁, hfind]
      refine h.push rfl rfl rfl rfl rfl rfl fun k => ?_
      cases k <;> simp
  | trace id target traceparent =>
    simp only [ExecNode.receive]
    refine h.push rfl rfl rfl rfl trivial rfl fun k => ?_
    cases k <;> simp

/-- **Step lemma of a command.** -/
theorem Inv.stepTask (h : s.Inv cfg) {i : ℕ} {t : ExecTask F} (ht : s.tasks[i]? = some t)
    {e : ExecEvent F} (hs : s.stepTask cfg i t e = some s') : s'.Inv cfg := by
  have hok := h.ok t (List.mem_of_getElem? ht)
  obtain ⟨cmd, node, phase⟩ := t
  unfold ExecNode.stepTask at hs
  dsimp only at hs
  split at hs
  · -- a test has run
    obtain rfl := Option.some.inj hs
    have hfound : (node.find _).isSome = true := hok.2
    refine h.advance ht rfl rfl rfl rfl hok rfl fun k => ?_
    cases k <;> simp [hfound]
  · -- the counters could not be read
    obtain rfl := Option.some.inj hs
    refine h.set ht rfl rfl h.accounted (fun _ hr => hr) hok
      (fun util hutil => .inl (Option.some.inj hutil).symm) fun k => ?_
    cases k <;> simp
  · -- the counters are read
    obtain rfl := Option.some.inj hs
    refine h.advance ht rfl rfl rfl rfl hok rfl fun k => ?_
    cases k <;> simp
  · -- the reading gets its time
    obtain rfl := Option.some.inj hs
    refine h.advance ht rfl rfl rfl rfl hok rfl fun k => ?_
    cases k <;> simp
  · -- the reading is accounted
    obtain rfl := Option.some.inj hs
    refine h.set ht rfl rfl (h.accounted.account _ _ _) (fun _ hr => List.mem_cons_of_mem _ hr) hok
      (fun util hutil => .inr ⟨_, List.mem_cons_self, rfl, Option.some.inj hutil⟩) fun k => ?_
    cases k <;> simp [ExecNode.account]
  · -- a test is answered
    rename_i id token link traceparent out i' snapshot
    obtain rfl := Option.some.inj hs
    have hfound : (node.find link.interface).isSome = true := hok.2
    obtain ⟨r, hr, hanswers, hbusy, hnote⟩ :=
      s.probed_test cfg id token traceparent ⟨snapshot, 0, out⟩ hfound
    rw [hr]
    refine h.advance ht rfl rfl rfl rfl hanswers rfl fun k => ?_
    cases k <;> simp [hfound, hbusy, hnote]
  · -- an always probe is answered
    rename_i id token link traceparent util i' snapshot
    obtain rfl := Option.some.inj hs
    have hfound : (node.find link.interface).isSome = true := hok.2
    obtain ⟨r, hr, hanswers, hrtt, hutil⟩ :=
      s.probed_always cfg id token traceparent ⟨snapshot, util, .skipped 0⟩ hfound
    have hreports := h.reports _ (List.mem_of_getElem? ht)
    rw [hr]
    refine h.set ht rfl rfl h.accounted (fun _ hr => hr) hanswers ?_ fun k => ?_
    · intro util' hutil'
      obtain rfl := hutil.symm.trans (Option.some.inj hutil')
      exact hreports util rfl
    · cases k <;> simp [hfound, hrtt]
  · -- the cost is applied
    obtain rfl := Option.some.inj hs
    refine h.advance ht rfl rfl rfl rfl rfl rfl fun k => ?_
    cases k <;> simp
  · -- the cost could not be applied
    obtain rfl := Option.some.inj hs
    refine h.advance ht rfl rfl rfl rfl ⟨rfl, rfl, rfl, rfl, rfl, by simp⟩ rfl fun k => ?_
    cases k <;> simp
  · -- the cost is remembered
    obtain rfl := Option.some.inj hs
    refine h.advance ht rfl rfl rfl rfl ⟨rfl, rfl, rfl, rfl, rfl, by simp⟩ rfl fun k => ?_
    cases k <;> simp
  · -- the routes are there
    obtain rfl := Option.some.inj hs
    refine h.advance ht rfl rfl rfl rfl ⟨rfl, rfl, rfl, rfl, rfl⟩ rfl fun k => ?_
    cases k <;> simp
  · exact absurd hs (by simp)

/-- **Step lemma.** -/
theorem Inv.step (h : s.Inv cfg) {e : ExecEvent F} (hs : s.step cfg e = some s') : s'.Inv cfg := by
  cases e with
  | elapse span =>
    obtain rfl := Option.some.inj hs
    exact ⟨h.ok, h.tallies, h.accounted, h.reports⟩
  | command cmd =>
    obtain rfl := Option.some.inj hs
    exact h.receive cmd
  | refresh links =>
    obtain rfl := Option.some.inj hs
    exact ⟨h.ok, h.tallies, h.accounted.retain _, h.reports⟩
  | reapplied ok =>
    obtain rfl := Option.some.inj hs
    refine ⟨h.ok, fun k => ?_, h.accounted, h.reports⟩
    have hk := h.tallies k
    simp only [base] at hk
    show inc s.metrics _ k = (ok :: s.reapplied).countP _ + s.tasks.countP (ExecTask.counts k)
    rw [inc_apply, hk, List.countP_cons]
    cases ok <;> simp <;> omega
  | block iface b =>
    obtain rfl := Option.some.inj hs
    exact ⟨h.ok, h.tallies, h.accounted, h.reports⟩
  | tested i out unixtime | bytes i total | stamp i | account i | reply i snapshot | applied i res
  | record i | routed i code routes =>
    obtain ⟨t, ht, hstep⟩ := Option.bind_eq_some_iff.1 hs
    exact h.stepTask ht hstep

/-- **Run lemma.** -/
theorem inv_of_runs (hrun : Runs (ExecNode.step cfg) Always .start s) : s.Inv cfg :=
  hrun.invariant inv_start fun _ _ _ h _ hs => h.step hs

end ExecNode

/-! ### What holds of every run -/

def ExecTask.pending (t : ExecTask F) : Bool := !t.succeeded && !t.errored

theorem countP_pending (tasks : List (ExecTask F)) :
    tasks.length = tasks.countP ExecTask.succeeded + tasks.countP ExecTask.errored +
      tasks.countP ExecTask.pending := by
  induction tasks with
  | nil => rfl
  | cons t tasks ih =>
    rw [List.length_cons, ih, List.countP_cons, List.countP_cons, List.countP_cons]
    have hone : (if t.succeeded then 1 else 0) + (if t.errored then 1 else 0) +
        (if t.pending then 1 else 0) = 1 := by
      unfold ExecTask.pending ExecTask.succeeded ExecTask.errored
      cases t.phase with
      | ended reply ok => cases ok <;> rfl
      | _ => rfl
    omega

/-- **Commands are answered.** In every run: a command that has ended has a reply that answers it,
    unless it is an always probe of an interface the node did not have; every counter has the number
    of the commands it counts, and what the refreshes applied again; and the commands received are
    those that succeeded, those that did not, and those under way. -/
theorem commands_answered [LinearOrder F] [Field F] (cfg : ExecCfg F) (s : ExecNode F)
    (hrun : Runs (ExecNode.step cfg) Always .start s) :
    (∀ t ∈ s.tasks, ∀ reply ok, t.phase = .ended reply ok →
      match reply with
      | some r => RepliesTo cfg ok t.cmd r
      | none => t.cmd.probes .always = true ∧ t.found = false ∧ ok = false) ∧
    (∀ k, s.metrics k = s.base k + s.tasks.countP (ExecTask.counts k)) ∧
    s.metrics .commands_received = s.metrics .commands_succeeded + s.metrics .commands_errored +
      s.tasks.countP ExecTask.pending := by
  obtain ⟨hok, htallies, -, -⟩ := ExecNode.inv_of_runs hrun
  refine ⟨fun t ht reply ok hphase => ?_, htallies, ?_⟩
  · have htask := hok t ht
    unfold ExecTask.Ok at htask
    rw [hphase] at htask
    cases reply <;> exact htask
  · have hbase : ∀ k, k ≠ .apply_cost_reapplied → k ≠ .apply_cost_errors → s.base k = 0 := by
      intro k hk hk'
      refine List.countP_eq_zero.2 fun ok _ => ?_
      cases ok <;> simp [hk, hk']
    rw [htallies .commands_received, htallies .commands_succeeded, htallies .commands_errored,
      hbase _ (by simp) (by simp), hbase _ (by simp) (by simp), hbase _ (by simp) (by simp)]
    have hall : s.tasks.countP (ExecTask.counts .commands_received) = s.tasks.length :=
      List.countP_eq_length.2 fun _ _ => rfl
    have hsplit := countP_pending s.tasks
    show 0 + _ = 0 + s.tasks.countP ExecTask.succeeded + (0 + s.tasks.countP ExecTask.errored) + _
    omega

private def quietCfg : ExecCfg ℚ := ⟨"spoke-1", 5⟩

private def wg0 : LinkKey := ⟨"spoke-1", "hub-a", "wg0"⟩

/-- Two always probes, ten seconds apart, and a test of an interface that is gone. -/
private def twoProbes : List (ExecEvent ℚ) :=
  [.refresh [⟨"wg0", "hub-a", none⟩], .command (.probe "p1" .always none wg0 none),
    .bytes 0 (some 1000000), .stamp 0, .account 0, .reply 0 ⟨some 3, none, some 0⟩,
    .elapse 10000000000, .command (.probe "p2" .always none wg0 none), .bytes 1 (some 13500000),
    .stamp 1, .account 1, .reply 1 ⟨none, none, some 100⟩,
    .command (.probe "p3" .throughput (some "lease") ⟨"spoke-1", "hub-a", "wg1"⟩ none)]

private theorem twoProbes_runs : ∃ s,
    exec (ExecNode.step quietCfg) Always .start twoProbes = some s ∧
    (∃ t r, s.tasks[2]? = some t ∧ t.phase = .ended (some r) false) ∧
    readsOf s.reads "wg0" =
      [⟨"wg0", some (1000000, 0), (13500000, 10000000000), 10⟩,
        ⟨"wg0", none, (1000000, 0), 0⟩] := by
  refine ⟨_, rfl, ⟨_, _, rfl, rfl⟩, ?_⟩
  decide +kernel

/-- The test of the interface that is gone is answered. -/
theorem commands_answered_twoProbes : ∃ (s : ExecNode ℚ) (t : ExecTask ℚ) (r : Wire.AgentReply ℚ),
    t ∈ s.tasks ∧ RepliesTo quietCfg false t.cmd r ∧ s.metrics .commands_received =
      s.metrics .commands_succeeded + s.metrics .commands_errored +
        s.tasks.countP ExecTask.pending := by
  obtain ⟨s, hexec, ⟨t, r, ht, hphase⟩, -⟩ := twoProbes_runs
  obtain ⟨hanswered, -, hreceived⟩ := commands_answered quietCfg s (Runs.of_exec twoProbes hexec)
  have hmem := List.mem_of_getElem? ht
  exact ⟨s, t, r, hmem, hanswered t hmem (some r) false hphase, hreceived⟩

/-! ### Traffic -/

section Traffic

variable [Field F]

/-- The seconds a reading covers. -/
def UtilRead.secs (r : UtilRead F) : F :=
  (((r.since.map fun p => r.stamp.2 - p.2).getD 0 : ℕ) : F) / (1000000000 : ℕ)

theorem Chained.of_append {later l : List (UtilRead F)} (h : Chained (later ++ l)) : Chained l := by
  induction later with
  | nil => exact h
  | cons r later ih => exact ih h.2.2

/-- A rate over its span is the traffic in between. -/
theorem rateMbps_mul [CharZero F] {before after span : ℕ} (hle : before ≤ after)
    (hspan : span ≠ 0) :
    (rateMbps before after span : F) * ((span : F) / (1000000000 : ℕ)) =
      ((after : F) - before) * (8 : ℕ) / (1000000 : ℕ) := by
  have hsecs : (span : F) / (1000000000 : ℕ) ≠ 0 :=
    div_ne_zero (Nat.cast_ne_zero.2 hspan) (Nat.cast_ne_zero.2 (by simp))
  rw [rateMbps, if_neg hspan, div_mul_cancel₀ _ hsecs, Nat.cast_sub hle]

/-- The readings of a stretch add up, newest first. -/
theorem Chained.sum [CharZero F] {stretch earlier : List (UtilRead F)} {first : UtilRead F}
    (h : Chained (stretch ++ first :: earlier)) (hkept : ∀ r ∈ stretch, r.since.isSome = true)
    (hgrows : (stretch ++ [first]).Pairwise fun newer older =>
      older.stamp.1 ≤ newer.stamp.1 ∧ older.stamp.2 < newer.stamp.2) :
    (stretch.map fun r => r.util * r.secs).sum =
      (((stretch.head?.getD first).stamp.1 : F) - first.stamp.1) * (8 : ℕ) / (1000000 : ℕ) := by
  induction stretch with
  | nil => simp
  | cons r stretch ih =>
    obtain ⟨hutil, hsince, hrest⟩ := h
    rw [List.cons_append, List.pairwise_cons] at hgrows
    -- the reading follows the one before it in the stretch, or the first
    let prev := stretch.head?.getD first
    have hprev : r.since = some prev.stamp := by
      obtain hnone | heq := hsince
      · have hsome := hkept r List.mem_cons_self
        rw [hnone] at hsome
        exact absurd hsome (by simp)
      · rw [heq]
        cases stretch <;> rfl
    have hmem : prev ∈ stretch ++ [first] := by
      cases hstretch : stretch with
      | nil => simp [prev, hstretch]
      | cons a l => simp [prev, hstretch]
    obtain ⟨hbytes, htime⟩ := hgrows.1 prev hmem
    have hone : r.util * r.secs =
        ((r.stamp.1 : F) - prev.stamp.1) * (8 : ℕ) / (1000000 : ℕ) := by
      rw [hutil, UtilRead.secs, hprev, Option.map_some, Option.map_some, Option.getD_some,
        Option.getD_some]
      exact rateMbps_mul hbytes (by omega)
    have hsum := ih hrest (fun r' hr' => hkept r' (List.mem_cons_of_mem _ hr')) hgrows.2
    rw [List.map_cons, List.sum_cons, hone, hsum, List.head?_cons, Option.getD_some]
    show _ + ((prev.stamp.1 : F) - _) * _ / _ = _
    ring

end Traffic

end Mielofon
