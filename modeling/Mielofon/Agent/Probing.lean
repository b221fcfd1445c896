import Mathlib
import Mielofon.Agent.Discover
import Mielofon.Agent.Gate
import Mielofon.Agent.Throughput
import Mielofon.Agent.Window

namespace Mielofon

open Lib

/-!
# Pings and throughput tests on one node

Every managed link has a task that pings it once an interval and records the outcome in the link's
window (`icmp.rs`); throughput tests run beside them, one at a time, and pause them through the gate
(`throughput.rs`).  A refresh starts and stops the ping tasks.  The tasks share the windows, the gate
and the lock of the tests, and their sections between two awaits can interleave in any way.

* `TestPhase`, `PingPhase` — how far a test and a ping have got;
* `Probing.reconcile` — the ping tasks after a refresh;
* `Probing.stats` — what is reported of a link;
* `Probing.step` — one section of a task, or the time that passes;
* `step_cases`, `step_pings` — what a section can do.
-/

/-- How far a throughput request has got, with what it has measured. -/
inductive TestPhase (F : Type*) where
  /-- It holds the lock, and samples the utilisation of the link. -/
  | sampling
  /-- The link is quiet, and the gate is about to be told. -/
  | quiet (util_mbps : F)
  | tcp (begun : ℕ) (util_mbps : F)
  | udp (begun : ℕ) (util_mbps : F) (tcp : Except String (Doc F))
  /-- The legs are over, and the gate is about to be told. -/
  | measured (begun : ℕ) (util_mbps : F) (tcp : Except String (Doc F))
      (udp : Option (Except String (Doc F)))
  /-- The lock is about to be released. -/
  | closing (out : Outcome F)
  | done (out : Outcome F)

namespace TestPhase

variable {F : Type*}

/-- The test holds the lock. -/
def holds : TestPhase F → Bool
  | done _ => false
  | _ => true

/-- When the gate was told of the test's begin, if it has not been told of its end. -/
def begun : TestPhase F → Option ℕ
  | tcp b _ => some b
  | udp b _ _ => some b
  | measured b _ _ _ => some b
  | _ => none

end TestPhase

/-- What the socket of a ping has to say. -/
inductive Heard where
  | datagram (bytes : List UInt8) (stamp : Option ℤ)
  | error (e : String)
  | timeout

/-- When a ping found the gate open, when its wait ends, and when it was sent by the monotonic and
    by the realtime clock. -/
structure Ping where
  checked : ℕ
  deadline : ℕ
  sent : ℕ
  sent_rt : ℤ

/-- How far a ping task has got. -/
inductive PingPhase where
  /-- It waits for its next tick, or for its socket to be opened again. -/
  | ticking
  /-- The gate was open; the echo is about to be sent. -/
  | allowed (checked deadline : ℕ)
  /-- The echo could not be sent. -/
  | failed (checked deadline : ℕ)
  | awaiting (p : Ping)
  /-- The wait is over; the gate has not been asked again. -/
  | heard (p : Ping) (reply : Except String (Option (Option ℤ)))
  /-- The gate was still open at `asked`. -/
  | recording (p : Ping) (asked : ℕ) (reply : Except String (Option (Option ℤ)))

namespace PingPhase

/-- An echo was counted as sent, and its outcome is not settled. -/
def pending : PingPhase → Bool
  | ticking => false
  | allowed _ _ => false
  | _ => true

end PingPhase

/-- One `ping_loop`: its link, the window it records in, its echo id, and its last sequence
    number. -/
structure PingTask where
  link : DiscoveredLink
  window : ℕ
  id : ℕ
  seq : ℕ
  aborted : Bool
  phase : PingPhase

/-- A probed link: its window and its task. -/
structure Prober.Entry where
  link : DiscoveredLink
  window : ℕ
  task : ℕ

/-- Per-link statistics exposed to replies and metrics. -/
structure LinkStats (F : Type*) where
  snapshot : Snapshot F
  sent : ℕ
  received : ℕ
  lost : ℕ

/-- An outcome as it was recorded; `awaited` holds the ping when its echo was sent. -/
structure Recorded (F : Type*) where
  interface : String
  window : ℕ
  outcome : Option F
  awaited : Option Ping
  asked : ℕ

/-- The configuration of the probes, and the time for which pings stay paused after a test. -/
structure ProbeCfg (F : Type*) where
  ping_interval : ℕ
  ping_window : ℕ
  quiet_max_mbps : F
  udp_rate_mbps : F

/-- Let the queue the test built up drain before sampling resumes. -/
def ProbeCfg.grace {F : Type*} (cfg : ProbeCfg F) : ℕ := max (cfg.ping_interval * 2) 2000000000

/-- The clock, the gate and the lock of the tests, the requests for one, and the probes: the entry
    of each interface, the windows and the tasks.  As history: the tests that ended, the outcomes
    in the order they were recorded, and the windows of the pings that were discarded. -/
structure Probing (F : Type*) where
  now : ℕ
  gate : Gate
  locked : Bool
  tests : List (TestPhase F)
  links : Map String Prober.Entry
  windows : List (Window F)
  tasks : List PingTask
  next_id : ℕ
  finished : List (ℕ × ℕ)
  log : List (Recorded F)
  discarded : List ℕ

/-- The sections. -/
inductive ProbeEvent (F : Type*) where
  | elapse (d : ℕ)
  /-- A throughput request: it takes the lock, or is busy. -/
  | run
  | sampled (j : ℕ) (util : Except String F)
  | begin (j : ℕ)
  /-- The leg that runs is over. -/
  | legOver (j : ℕ) (r : Except String (Doc F))
  | «end» (j : ℕ)
  | release (j : ℕ)
  | reconcile (links : List DiscoveredLink)
  /-- A tick scheduled for `«at»` has come. -/
  | tick (i : ℕ) («at» : ℕ)
  | send (i : ℕ) (ok : Bool) (sent_rt : ℤ)
  | recordFailed (i : ℕ)
  | hear (i : ℕ) (h : Heard)
  | recheck (i : ℕ)
  | record (i : ℕ)

/-- The datagram is the echo reply to this id and sequence number. -/
def isReply (id seq : ℕ) (bytes : List UInt8) : Bool :=
  match bytes with
  | ty :: _ :: _ :: _ :: i1 :: i0 :: s1 :: s0 :: _ =>
    ty.toNat == 129 && i1.toNat * 256 + i0.toNat == id && s1.toNat * 256 + s0.toNat == seq
  | _ => false

namespace Probing

variable {F : Type*}

def init (next_id : ℕ) : Probing F := ⟨0, Gate.new, false, [], ∅, [], [], next_id, [], [], []⟩

/-! ### Reconciling the tasks with the links -/

/-- The first link of an interface. -/
def linkOn (links : List DiscoveredLink) (iface : String) : Option DiscoveredLink :=
  links.find? (fun l => l.interface = iface)

/-- The entries whose link is unchanged. -/
def kept (s : Probing F) (links : List DiscoveredLink) : Map String Prober.Entry :=
  s.links.retain (fun iface e => linkOn links iface = some e.link)

/-- The entries whose interface has another link: their windows are carried over. -/
def changed (s : Probing F) (links : List DiscoveredLink) : Map String Prober.Entry :=
  s.links.retain (fun iface e => (linkOn links iface).any (fun l => l ≠ e.link))

/-- Abort the tasks of the entries that are not kept. -/
def stop (s : Probing F) (links : List DiscoveredLink) : Probing F :=
  { s with
    links := s.kept links
    tasks := s.tasks.mapIdx fun i t =>
      if s.links.pairs.any (fun e => e.2.task = i && linkOn links e.1 ≠ some e.2.link) then
        { t with aborted := true }
      else t }

/-- Start the task of a link whose interface has none, on the window carried over, if any. -/
def start (ping_window : ℕ) (carried : Map String Prober.Entry) (s : Probing F)
    (l : DiscoveredLink) :
    Probing F :=
  if (s.links.get l.interface).isSome then s
  else
    let window := ((carried.get l.interface).map Prober.Entry.window).getD s.windows.length
    { s with
      links := s.links.set l.interface ⟨l, window, s.tasks.length⟩
      windows :=
        if (carried.get l.interface).isSome then s.windows
        else s.windows ++ [Window.new ping_window]
      tasks := s.tasks ++ [⟨l, window, s.next_id, 0, false, .ticking⟩]
      next_id := (s.next_id + 1) % 2 ^ 16 }

/-- Start probing new links, stop removed ones, restart changed ones. -/
def reconcile (ping_window : ℕ) (s : Probing F) (links : List DiscoveredLink) : Probing F :=
  links.foldl (start ping_window (s.changed links)) (s.stop links)

/-! ### Statistics -/

/-- What replies and metrics are told of a link. -/
def stats [Field F] (sqrt : F → F) (s : Probing F) (iface : String) : Option (LinkStats F) :=
  (s.links.get iface).bind fun e => s.windows[e.window]?.map fun w =>
    ⟨w.snapshot sqrt, w.sent, w.received, w.lost⟩

/-! ### One section -/

/-- The phase of a test. -/
def setTest (s : Probing F) (j : ℕ) (t : TestPhase F) : Probing F :=
  { s with tests := s.tests.set j t }

/-- The phase of a ping task. -/
def setPhase (s : Probing F) (i : ℕ) (t : PingTask) (phase : PingPhase) : Probing F :=
  { s with tasks := s.tasks.set i { t with phase } }

/-- A window records an outcome. -/
def recordIn (s : Probing F) (r : Recorded F) : Probing F :=
  { s with
    windows := s.windows.modify r.window (fun w => w.record r.outcome)
    log := s.log ++ [r] }

/-- A ping whose outcome is thrown away. -/
def discard (s : Probing F) (window : ℕ) : Probing F :=
  { s with discarded := s.discarded ++ [window] }

variable [Field F] [LinearOrder F] (cfg : ProbeCfg F)

/-- A throughput request, which takes the lock or is busy. -/
def run (s : Probing F) : Probing F :=
  if s.locked then { s with tests := s.tests ++ [.done (.skipped 0)] }
  else { s with locked := true, tests := s.tests ++ [.sampling] }

/-- The utilisation sampled; an interface whose counters cannot be read counts as quiet. -/
def sampledMbps : Except String F → F
  | .ok util_mbps => util_mbps
  | .error _ => 0

/-- The section of a test. -/
def testStep (s : Probing F) (j : ℕ) : TestPhase F → ProbeEvent F → Option (Probing F)
  | .sampling, .sampled _ util =>
    if cfg.quiet_max_mbps < sampledMbps util then
      some { s.setTest j (.done (.skipped (sampledMbps util))) with locked := false }
    else some (s.setTest j (.quiet (sampledMbps util)))
  | .quiet u, .begin _ => some { s.setTest j (.tcp s.now u) with gate := s.gate.begin s.now }
  | .tcp b u, .legOver _ r =>
    some (s.setTest j (if 0 < cfg.udp_rate_mbps then .udp b u r else .measured b u r none))
  | .udp b u tcp, .legOver _ r => some (s.setTest j (.measured b u tcp (some r)))
  | .measured b u tcp udp, .end _ =>
    some { s.setTest j (.closing (.measured u tcp udp)) with
      gate := s.gate.end s.now cfg.grace
      finished := s.finished ++ [(b, s.now)] }
  | .closing out, .release _ => some { s.setTest j (.done out) with locked := false }
  | _, _ => none

/-- The section of a ping task.  An aborted task gets no further than its next await. -/
def pingStep (s : Probing F) (i : ℕ) (t : PingTask) : PingPhase → ProbeEvent F → Option (Probing F)
  | .ticking, .tick _ «at» =>
    if t.aborted = false ∧ «at» ≤ s.now then
      if s.gate.paused s.now then some s
      else some (s.setPhase i t (.allowed s.now («at» + cfg.ping_interval)))
    else none
  | .allowed checked deadline, .send _ ok sent_rt =>
    let s := { s with windows := s.windows.modify t.window Window.countSent }
    let t := { t with seq := (t.seq + 1) % 2 ^ 16 }
    some (s.setPhase i t
      (if ok then .awaiting ⟨checked, deadline, s.now, sent_rt⟩ else .failed checked deadline))
  | .failed _ _, .recordFailed _ =>
    some ((s.recordIn ⟨t.link.interface, t.window, none, none, s.now⟩).setPhase i t .ticking)
  | .awaiting p, .hear _ h =>
    if t.aborted then none
    else match h with
      | .datagram bytes stamp =>
        some (if isReply t.id t.seq bytes then s.setPhase i t (.heard p (.ok (some stamp))) else s)
      | .error e => some (s.setPhase i t (.heard p (.error e)))
      | .timeout => if p.deadline ≤ s.now then some (s.setPhase i t (.heard p (.ok none))) else none
  | .heard p reply, .recheck _ =>
    some (if s.gate.paused s.now then (s.discard t.window).setPhase i t .ticking
      else s.setPhase i t (.recording p s.now reply))
  | .recording p asked reply, .record _ =>
    match reply with
    | .ok (some stamp) =>
      let rtt_ms := selectRtt (stamp.map (fun rx => rx - p.sent_rt)) (s.now - p.sent)
      some ((s.recordIn ⟨t.link.interface, t.window, some rtt_ms, some p, asked⟩).setPhase i t
        .ticking)
    | .ok none =>
      some ((s.recordIn ⟨t.link.interface, t.window, none, some p, asked⟩).setPhase i t .ticking)
    | .error _ => some ((s.discard t.window).setPhase i t .ticking)
  | _, _ => none

/-- One section, or the time that passes. -/
def step (s : Probing F) (e : ProbeEvent F) : Option (Probing F) :=
  match e with
  | .elapse d => some { s with now := s.now + d }
  | .run => some s.run
  | .reconcile links => some (s.reconcile cfg.ping_window links)
  | .sampled j _ | .begin j | .legOver j _ | .end j | .release j =>
    s.tests[j]?.bind (fun t => s.testStep cfg j t e)
  | .tick i _ | .send i _ _ | .recordFailed i | .hear i _ | .recheck i | .record i =>
    s.tasks[i]?.bind (fun t => s.pingStep cfg i t t.phase e)

/-! ### What a section can do -/

variable {cfg} {s s' : Probing F} {e : ProbeEvent F}

/-- **Inversion.** Time passes, a test is requested or goes on, a refresh reconciles the tasks, or a
    ping task goes on. -/
theorem step_cases (hs : s.step cfg e = some s') :
    (∃ d, s' = { s with now := s.now + d }) ∨ s' = s.run ∨
    (∃ (j : ℕ) (t : TestPhase F), s.tests[j]? = some t ∧ s.testStep cfg j t e = some s') ∨
    (∃ links, s' = s.reconcile cfg.ping_window links) ∨
    ∃ (i : ℕ) (t : PingTask), s.tasks[i]? = some t ∧ s.pingStep cfg i t t.phase e = some s' := by
  cases e with
  | elapse d => exact Or.inl ⟨d, (Option.some.inj hs).symm⟩
  | run => exact Or.inr (Or.inl (Option.some.inj hs).symm)
  | sampled j util => exact Or.inr (Or.inr (Or.inl ⟨j, Option.bind_eq_some_iff.mp hs⟩))
  | begin j => exact Or.inr (Or.inr (Or.inl ⟨j, Option.bind_eq_some_iff.mp hs⟩))
  | legOver j r => exact Or.inr (Or.inr (Or.inl ⟨j, Option.bind_eq_some_iff.mp hs⟩))
  | «end» j => exact Or.inr (Or.inr (Or.inl ⟨j, Option.bind_eq_some_iff.mp hs⟩))
  | release j => exact Or.inr (Or.inr (Or.inl ⟨j, Option.bind_eq_some_iff.mp hs⟩))
  | reconcile links => exact Or.inr (Or.inr (Or.inr (Or.inl ⟨links, (Option.some.inj hs).symm⟩)))
  | tick i «at» => exact Or.inr (Or.inr (Or.inr (Or.inr ⟨i, Option.bind_eq_some_iff.mp hs⟩)))
  | send i ok sent_rt => exact Or.inr (Or.inr (Or.inr (Or.inr ⟨i, Option.bind_eq_some_iff.mp hs⟩)))
  | recordFailed i => exact Or.inr (Or.inr (Or.inr (Or.inr ⟨i, Option.bind_eq_some_iff.mp hs⟩)))
  | hear i heard => exact Or.inr (Or.inr (Or.inr (Or.inr ⟨i, Option.bind_eq_some_iff.mp hs⟩)))
  | recheck i => exact Or.inr (Or.inr (Or.inr (Or.inr ⟨i, Option.bind_eq_some_iff.mp hs⟩)))
  | record i => exact Or.inr (Or.inr (Or.inr (Or.inr ⟨i, Option.bind_eq_some_iff.mp hs⟩)))

omit [Field F] [LinearOrder F] in
/-- What holds when tasks have been stopped, and is kept as one starts, holds after a refresh. -/
theorem reconcile_invariant {P : Probing F → Prop} {size : ℕ} {links : List DiscoveredLink}
    (hstop : P (s.stop links))
    (hstart : ∀ u l, P u → P (start size (s.changed links) u l)) : P (s.reconcile size links) := by
  have hfold : ∀ (ls : List DiscoveredLink) (u : Probing F), P u →
      P (ls.foldl (start size (s.changed links)) u) := by
    intro ls
    induction ls with
    | nil => exact fun _ hu => hu
    | cons l ls ih => exact fun u hu => ih _ (hstart u l hu)
  exact hfold links _ hstop

/-- A section that has nothing to do with the pings. -/
structure SamePings (s s' : Probing F) : Prop where
  links : s'.links = s.links
  windows : s'.windows = s.windows
  tasks : s'.tasks = s.tasks
  log : s'.log = s.log
  discarded : s'.discarded = s.discarded

omit [LinearOrder F] in
theorem samePings_run (s : Probing F) : SamePings s s.run := by
  unfold run
  split <;> exact ⟨rfl, rfl, rfl, rfl, rfl⟩

theorem samePings_testStep {j : ℕ} {t : TestPhase F} (hs : s.testStep cfg j t e = some s') :
    SamePings s s' := by
  unfold testStep at hs
  split at hs
  · split at hs <;> obtain rfl := Option.some.inj hs <;> exact ⟨rfl, rfl, rfl, rfl, rfl⟩
  · obtain rfl := Option.some.inj hs
    exact ⟨rfl, rfl, rfl, rfl, rfl⟩
  · obtain rfl := Option.some.inj hs
    exact ⟨rfl, rfl, rfl, rfl, rfl⟩
  · obtain rfl := Option.some.inj hs
    exact ⟨rfl, rfl, rfl, rfl, rfl⟩
  · obtain rfl := Option.some.inj hs
    exact ⟨rfl, rfl, rfl, rfl, rfl⟩
  · obtain rfl := Option.some.inj hs
    exact ⟨rfl, rfl, rfl, rfl, rfl⟩
  · cases hs

/-- **Inversion, for the pings.** A section leaves them alone, reconciles their tasks, or is one of
    theirs. -/
theorem step_pings (hs : s.step cfg e = some s') :
    SamePings s s' ∨ (∃ links, s' = s.reconcile cfg.ping_window links) ∨
    ∃ (i : ℕ) (t : PingTask), s.tasks[i]? = some t ∧ s.pingStep cfg i t t.phase e = some s' := by
  rcases step_cases hs with ⟨d, rfl⟩ | rfl | ⟨j, t, -, htest⟩ | hlinks | hping
  · exact Or.inl ⟨rfl, rfl, rfl, rfl, rfl⟩
  · exact Or.inl (samePings_run s)
  · exact Or.inl (samePings_testStep htest)
  · exact Or.inr (Or.inl hlinks)
  · exact Or.inr (Or.inr hping)

end Probing

/-- Pings once a second, and a TCP leg alone. -/
def everySecond : ProbeCfg ℚ := ⟨1000000000, 60, 5, 0⟩

end Mielofon
