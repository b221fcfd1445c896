import Mathlib.Logic.Function.Basic
import Mielofon.Lib.Runs
import Mielofon.Tsdb.Store

namespace Mielofon

open Lib

/-!
# Concurrent ingests, pushes and prunes

A probe reply, a throughput reply, a gossip batch and the classifier's write-back ingest from
tasks of their own.  Each takes the locks of the store one after another, so that between two
sections of one ingest any section of another, a push or a prune can run.

* `Stage`, `Task` — how far an ingest has got;
* `Push` — the one push under way to a peer;
* `Conc` — the store, the ingests in the order of their ring updates, the pushes, and as
  history the acknowledged batches and the popped log entries;
* `Conc.step` — one atomic section;
* `Conc.step_advance_cases`, `Conc.step_other` — what a step can do to the tasks.
-/

variable {F : Type*}

/-- How far an ingest has got.  Each stage but the first and the last names the section that
    has run last. -/
inductive Stage (F : Type*) where
  /-- The ring refused the sample: the ingest returned. -/
  | refused
  /-- The ring accepted it; the bucket section is next. -/
  | accepted (acc : Accepted F)
  /-- The sequence number is next. -/
  | bucketed (acc : Accepted F)
  /-- The log section is next. -/
  | numbered (acc : Accepted F) (seq : ℕ)
  /-- The queue section is next. -/
  | logged (acc : Accepted F) (seq : ℕ)
  /-- All sections have run. -/
  | finished (acc : Accepted F) (seq : ℕ)

/-- One ingest. -/
structure Task (F : Type*) where
  link : LinkKey
  sample : RawSample F
  persist : Bool
  stage : Stage F

/-- The push under way to a peer. -/
inductive Push (F : Type*) where
  | idle
  /-- A batch was taken and sent. -/
  | sent (batch : List (Entry F)) (last : ℕ)
  /-- The peer has acknowledged the batch; the watermark is still to be advanced. -/
  | acknowledged (last : ℕ)

namespace Stage

/-- What the ring accepted. -/
def acc? : Stage F → Option (Accepted F)
  | refused => none
  | accepted acc | bucketed acc | numbered acc _ | logged acc _ | finished acc _ => some acc

/-- The sequence number, once taken. -/
def number? : Stage F → Option ℕ
  | refused | accepted _ | bucketed _ => none
  | numbered _ n | logged _ n | finished _ n => some n

/-- How many sections after the ring section have run; an ingest that returned counts as
    having run them all. -/
def rank : Stage F → ℕ
  | refused => 4
  | accepted _ => 0
  | bucketed _ => 1
  | numbered _ _ => 2
  | logged _ _ => 3
  | finished _ _ => 4

/-- Whether the ingest has returned. -/
def isDone (st : Stage F) : Bool := st.rank == 4

end Stage

/-- The store and everything that runs on it.  `acked` and `popped` are history: the batches
    each peer acknowledged, and the entries a prune popped from the log. -/
structure Conc (F : Type*) where
  tsdb : Tsdb F
  tasks : List (Task F)
  push : String → Push F
  acked : String → List (List (Entry F))
  popped : List (Entry F)

/-- The atomic sections. -/
inductive Section (F : Type*) where
  /-- The ring section of a new ingest. -/
  | start (link : LinkKey) (s : RawSample F) (persist : Bool)
  /-- The next section of the `i`-th ingest. -/
  | advance (i : ℕ)
  /-- Take the delta for a peer and send it. -/
  | take (peer : String)
  /-- The peer acknowledges the batch. -/
  | ack (peer : String)
  /-- Advance the watermark of the peer. -/
  | note (peer : String)
  /-- The push fails. -/
  | fail (peer : String)
  | pruneRings (now : ℕ)
  | pruneBuckets (now : ℕ)
  | pruneLog (now : ℕ)

namespace Conc

/-- A store at rest. -/
def atRest (t : Tsdb F) : Conc F := ⟨t, [], fun _ => .idle, fun _ => [], []⟩

variable [LinearOrder F] [Zero F] [Add F]

/-- The next section of an ingest: the store and the stage after it. -/
def advanceTask (t : Tsdb F) (task : Task F) : Option (Tsdb F × Stage F) :=
  match task.stage with
  | .accepted acc => some (t.bucketSection task.link acc, .bucketed acc)
  | .bucketed acc => some (t.takeSeq.1, .numbered acc t.takeSeq.2)
  | .numbered acc seq => some (t.logSection seq task.link acc.sample, .logged acc seq)
  | .logged acc seq => some (t.queueSection task.link acc.sample task.persist, .finished acc seq)
  | .refused | .finished _ _ => none

/-- The stage of a new ingest after its ring section. -/
def startStage : Option (Accepted F) → Stage F
  | none => .refused
  | some acc => .accepted acc

/-- One atomic section. -/
def step (c : Conc F) : Section F → Option (Conc F)
  | .start link s persist =>
    some { c with
      tsdb := (c.tsdb.ringSection link s).1
      tasks := c.tasks ++ [⟨link, s, persist, startStage (c.tsdb.ringSection link s).2⟩] }
  | .advance i =>
    match c.tasks[i]? with
    | none => none
    | some task =>
      match advanceTask c.tsdb task with
      | none => none
      | some (t, stage) => some { c with tsdb := t, tasks := c.tasks.set i { task with stage } }
  | .take peer =>
    match c.push peer with
    | .idle =>
      let res := c.tsdb.takeDelta (c.tsdb.sentWatermark peer) deltaLimit
      some { c with push := Function.update c.push peer (.sent res.1 res.2) }
    | _ => none
  | .ack peer =>
    match c.push peer with
    | .sent batch last =>
      some { c with
        push := Function.update c.push peer (.acknowledged last)
        acked := Function.update c.acked peer (c.acked peer ++ [batch]) }
    | _ => none
  | .note peer =>
    match c.push peer with
    | .acknowledged last =>
      some { c with
        tsdb := c.tsdb.noteSent peer last
        push := Function.update c.push peer .idle }
    | _ => none
  | .fail peer =>
    match c.push peer with
    | .sent _ _ => some { c with push := Function.update c.push peer .idle }
    | _ => none
  | .pruneRings now => some { c with tsdb := c.tsdb.pruneRings now }
  | .pruneBuckets now => some { c with tsdb := c.tsdb.pruneBuckets now }
  | .pruneLog now =>
    some { c with
      tsdb := c.tsdb.pruneLog now
      popped := c.popped ++ c.tsdb.recent.takeWhile (fun e => e.2.2.ts < c.tsdb.rawCut now) }

/-! ### What a step can do -/

variable {c c' : Conc F} {i : ℕ}

/-- An ingest that advances sits between those that started before it and after it. -/
theorem step_advance_cases (h : step c (.advance i) = some c') :
    ∃ before task after t stage, c.tasks = before ++ task :: after ∧ before.length = i ∧
      advanceTask c.tsdb task = some (t, stage) ∧
      c' = { c with tsdb := t, tasks := before ++ { task with stage } :: after } := by
  simp only [step] at h
  split at h
  · exact absurd h (by simp)
  rename_i task htask
  split at h
  · exact absurd h (by simp)
  rename_i t stage hadv
  obtain rfl := Option.some.inj h
  obtain ⟨hlt, htask⟩ := List.getElem?_eq_some_iff.mp htask
  have hsplit : c.tasks = c.tasks.take i ++ task :: c.tasks.drop (i + 1) := by
    rw [← htask, List.getElem_cons_drop, List.take_append_drop]
  have hlen : (c.tasks.take i).length = i := by
    rw [List.length_take]; omega
  refine ⟨_, task, _, t, stage, hsplit, hlen, hadv, ?_⟩
  have hset : c.tasks.set i { task with stage } =
      c.tasks.take i ++ { task with stage } :: c.tasks.drop (i + 1) :=
    List.set_eq_take_append_cons_drop.trans (if_pos hlt)
  rw [hset]

end Conc

end Mielofon
