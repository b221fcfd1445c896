import Mathlib
import Mielofon.Tsdb.Concurrent

namespace Mielofon

open Lib

/-!
# The gossip watermark skips nothing

A push takes the log entries above the watermark of its peer and, once acknowledged, advances
the watermark to the last of them.  An entry appended later with a lower number is below the
watermark and never sent.  Taking a number and appending under it are two steps, so this
happens whenever two ingests append in the other order than they took their numbers.

* `Conc.SkipsNothing` — every accepted sample numbered up to the watermark was in an
  acknowledged batch or popped by a prune, and no entry was acknowledged twice;
* `AppendsInOrder` — an ingest appends only when no lower number is still to be appended;
* `LogInv`, `PeerInv` — the invariants, and their step lemmas;
* `nothing_skipped` — under `AppendsInOrder` nothing is skipped;
* `late_append_skipped` — a run in which an accepted sample is.
-/

variable {F : Type*}

/-- The number of an entry that is still to be appended. -/
def Stage.unappended? : Stage F → Option ℕ
  | .numbered _ n => some n
  | _ => none

/-- The log entry of an ingest, once it has a number. -/
def Task.logEntry (task : Task F) : Option (Entry F) :=
  match task.stage with
  | .numbered acc n | .logged acc n | .finished acc n => some (n, task.link, acc.sample)
  | _ => none

namespace Conc

/-- The numbers taken and not yet appended. -/
def unappended (c : Conc F) : List ℕ := c.tasks.filterMap (fun task => task.stage.unappended?)

/-- Everything that was ever appended to the log, in the order of appending. -/
def log (c : Conc F) : List (Entry F) := c.popped ++ c.tsdb.recent

/-- Every sample that was accepted and numbered, in the log already or not. -/
def accepted (c : Conc F) : List (Entry F) := c.log ++ c.tasks.filterMap Task.logEntry

/-- Every accepted sample numbered up to the watermark of the peer was in a batch the peer
    acknowledged or was popped by a prune; no entry is in two acknowledged batches. -/
def SkipsNothing (c : Conc F) (peer : String) : Prop :=
  (∀ e ∈ c.accepted, e.1 ≤ c.tsdb.sentWatermark peer →
    e ∈ (c.acked peer).flatten ∨ e ∈ c.popped) ∧ (c.acked peer).flatten.Nodup

end Conc

/-- An ingest appends its entry only when no lower number is still to be appended. -/
def AppendsInOrder (c : Conc F) : Section F → Prop
  | .advance i => ∀ n ∈ (c.tasks[i]?.bind (fun task => task.stage.unappended?)),
      ∀ m ∈ c.unappended, n ≤ m
  | _ => True

instance (c : Conc F) (a : Section F) : Decidable (AppendsInOrder c a) :=
  match a with
  | .advance i => inferInstanceAs (Decidable (∀ n ∈ (c.tasks[i]?.bind
      (fun task => task.stage.unappended?)), ∀ m ∈ c.unappended, n ≤ m))
  | .start .. | .take _ | .ack _ | .note _ | .fail _ | .pruneRings _ | .pruneBuckets _
  | .pruneLog _ => .isTrue trivial

/-! ### The log -/

/-- The log is in ascending order, complete up to the numbers still to be appended, and every
    numbered sample is in it or still to be appended. -/
structure LogInv (c : Conc F) : Prop where
  ascending : Ascending Prod.fst c.log
  log_lt : ∀ e ∈ c.log, e.1 < c.tsdb.seq
  seq_pos : 0 < c.tsdb.seq
  unappended_pos : ∀ n ∈ c.unappended, 0 < n
  unappended_lt : ∀ n ∈ c.unappended, n < c.tsdb.seq
  unappended_nodup : c.unappended.Nodup
  log_lt_unappended : ∀ e ∈ c.log, ∀ n ∈ c.unappended, e.1 < n
  entries : ∀ task ∈ c.tasks, ∀ e, task.logEntry = some e →
    e ∈ c.log ∨ task.stage.unappended? = some e.1

/-- What a section may do to the log, as far as the peers are concerned. -/
structure Extends (c c' : Conc F) : Prop where
  seq_le : c.tsdb.seq ≤ c'.tsdb.seq
  unappended : ∀ n ∈ c'.unappended, n ∈ c.unappended ∨ c.tsdb.seq ≤ n
  log : ∀ e ∈ c'.log, e ∈ c.log ∨ e.1 ∈ c.unappended
  popped : ∀ e ∈ c.popped, e ∈ c'.popped

/-- A section that leaves the log, the numbers and the entries of the ingests alone. -/
private theorem logInv_of_same {c c' : Conc F} (hI : LogInv c) (hseq : c'.tsdb.seq = c.tsdb.seq)
    (hlog : c'.log = c.log) (hun : c'.unappended = c.unappended)
    (hentry : ∀ task ∈ c'.tasks, ∀ e, task.logEntry = some e →
      e ∈ c.log ∨ task.stage.unappended? = some e.1) : LogInv c' := by
  refine ⟨?_, ?_, ?_, ?_, ?_, ?_, ?_, hlog ▸ hentry⟩
  · rw [hlog]; exact hI.ascending
  · rw [hlog, hseq]; exact hI.log_lt
  · rw [hseq]; exact hI.seq_pos
  · rw [hun]; exact hI.unappended_pos
  · rw [hun, hseq]; exact hI.unappended_lt
  · rw [hun]; exact hI.unappended_nodup
  · rw [hlog, hun]; exact hI.log_lt_unappended

private theorem extends_of_same {c c' : Conc F} (hseq : c'.tsdb.seq = c.tsdb.seq)
    (hlog : c'.log = c.log) (hun : c'.unappended = c.unappended)
    (hpop : ∀ e ∈ c.popped, e ∈ c'.popped) : Extends c c' :=
  ⟨hseq.ge, fun _ hn => Or.inl (hun ▸ hn), fun _ he => Or.inl (hlog ▸ he), hpop⟩

/-- The numbers still to be appended, around one ingest. -/
private theorem unappended_around (before after : List (Task F)) (task : Task F) :
    (before ++ task :: after).filterMap (fun task => task.stage.unappended?) =
      before.filterMap (fun task => task.stage.unappended?) ++
        (task.stage.unappended?.toList ++
          after.filterMap (fun task => task.stage.unappended?)) := by
  rw [List.filterMap_append, List.filterMap_cons]
  cases h : task.stage.unappended? <;> simp

/-- The entries around one ingest that moved on: those of the others are where they were. -/
private theorem entries_around {c : Conc F} (hI : LogInv c) {before after : List (Task F)}
    {task moved : Task F} {log : List (Entry F)} (htasks : c.tasks = before ++ task :: after)
    (hlog : ∀ e ∈ c.log, e ∈ log)
    (hmoved : ∀ e, moved.logEntry = some e → e ∈ log ∨ moved.stage.unappended? = some e.1) :
    ∀ task' ∈ before ++ moved :: after, ∀ e, task'.logEntry = some e →
      e ∈ log ∨ task'.stage.unappended? = some e.1 := by
  intro task' htask' e he
  have hother : task' ∈ c.tasks → e ∈ log ∨ task'.stage.unappended? = some e.1 := fun h =>
    (hI.entries task' h e he).imp (hlog e) id
  rcases List.mem_append.mp htask' with hmem | hmem
  · exact hother (htasks ▸ List.mem_append_left _ hmem)
  rcases List.mem_cons.mp hmem with rfl | hmem
  · exact hmoved e he
  · exact hother (htasks ▸ List.mem_append_right _ (List.mem_cons_of_mem _ hmem))

/-- Taking a number: it is the highest, and still to be appended. -/
private theorem logInv_number {c : Conc F} (hI : LogInv c) {before after : List (Task F)}
    {task : Task F} {acc : Accepted F} (htasks : c.tasks = before ++ task :: after)
    (hstage : task.stage = .bucketed acc) :
    let c' : Conc F := { c with
      tsdb := c.tsdb.takeSeq.1
      tasks := before ++ { task with stage := .numbered acc c.tsdb.takeSeq.2 } :: after }
    LogInv c' ∧ Extends c c' := by
  intro c'
  have hlog : c'.log = c.log := rfl
  have hseq : c'.tsdb.seq = c.tsdb.seq + 1 := rfl
  have hun : c'.unappended.Perm (c.tsdb.seq :: c.unappended) := by
    unfold Conc.unappended
    rw [htasks, unappended_around, unappended_around, hstage]
    exact List.perm_middle
  have hmem : ∀ n, n ∈ c'.unappended ↔ n = c.tsdb.seq ∨ n ∈ c.unappended := fun n => by
    rw [hun.mem_iff, List.mem_cons]
  -- a number still to be appended is below the counter
  have hnew : c.tsdb.seq ∉ c.unappended := fun h => absurd (hI.unappended_lt _ h) (lt_irrefl _)
  constructor
  · refine ⟨hlog ▸ hI.ascending, ?_, ?_, ?_, ?_, ?_, ?_, ?_⟩
    · intro e he
      have := hI.log_lt e he
      omega
    · omega
    · intro n hn
      rcases (hmem n).mp hn with rfl | hn
      · exact hI.seq_pos
      · exact hI.unappended_pos n hn
    · intro n hn
      rcases (hmem n).mp hn with rfl | hn
      · omega
      · have := hI.unappended_lt n hn
        omega
    · exact hun.nodup_iff.mpr (List.nodup_cons.mpr ⟨hnew, hI.unappended_nodup⟩)
    · intro e he n hn
      rcases (hmem n).mp hn with rfl | hn
      · exact hI.log_lt e he
      · exact hI.log_lt_unappended e he n hn
    · -- the entry of the ingest itself carries the number just taken
      refine entries_around hI htasks (fun e he => he) (fun e he => Or.inr ?_)
      obtain rfl := Option.some.inj he
      rfl
  · refine ⟨by omega, fun n hn => ?_, fun e he => Or.inl he, fun e he => he⟩
    rcases (hmem n).mp hn with rfl | hn
    · exact Or.inr (le_refl _)
    · exact Or.inl hn

/-- Appending the lowest number still to be appended. -/
private theorem logInv_append {c : Conc F} (hI : LogInv c) {before after : List (Task F)}
    {task : Task F} {acc : Accepted F} {seq : ℕ} (htasks : c.tasks = before ++ task :: after)
    (hstage : task.stage = .numbered acc seq) (hlow : ∀ m ∈ c.unappended, seq ≤ m) :
    let c' : Conc F := { c with
      tsdb := c.tsdb.logSection seq task.link acc.sample
      tasks := before ++ { task with stage := .logged acc seq } :: after }
    LogInv c' ∧ Extends c c' := by
  intro c'
  have hlog : c'.log = c.log ++ [(seq, task.link, acc.sample)] :=
    (List.append_assoc _ _ _).symm
  have hseq : c'.tsdb.seq = c.tsdb.seq := rfl
  -- what is still to be appended has lost this number and nothing else
  have hun : c.unappended.Perm (seq :: c'.unappended) := by
    unfold Conc.unappended
    rw [htasks, unappended_around, unappended_around, hstage]
    exact List.perm_middle
  have hin : seq ∈ c.unappended := hun.mem_iff.mpr List.mem_cons_self
  have hold : ∀ n ∈ c'.unappended, n ∈ c.unappended := fun n hn =>
    hun.mem_iff.mpr (List.mem_cons_of_mem _ hn)
  obtain ⟨hnotin, hnodup⟩ := List.nodup_cons.mp (hun.nodup_iff.mp hI.unappended_nodup)
  have hmem : ∀ e, e ∈ c'.log ↔ e ∈ c.log ∨ e = (seq, task.link, acc.sample) := fun e => by
    rw [hlog, List.mem_append, List.mem_singleton]
  constructor
  · refine ⟨?_, ?_, hI.seq_pos, ?_, ?_, hnodup, ?_, ?_⟩
    · rw [hlog]
      refine List.pairwise_append.mpr ⟨hI.ascending, List.pairwise_singleton _ _, ?_⟩
      intro e he e' he'
      rw [List.mem_singleton.mp he']
      exact hI.log_lt_unappended e he seq hin
    · intro e he
      rcases (hmem e).mp he with he | rfl
      · exact hI.log_lt e he
      · exact hI.unappended_lt seq hin
    · exact fun n hn => hI.unappended_pos n (hold n hn)
    · exact fun n hn => hI.unappended_lt n (hold n hn)
    · intro e he n hn
      rcases (hmem e).mp he with he | rfl
      · -- the entry just appended has the lowest number of them
        exact hI.log_lt_unappended e he n (hold n hn)
      · have hne : seq ≠ n := fun h => hnotin (h ▸ hn)
        exact lt_of_le_of_ne (hlow n (hold n hn)) hne
    · refine entries_around hI htasks (fun e he => (hmem e).mpr (Or.inl he)) (fun e he => ?_)
      obtain rfl := Option.some.inj he
      exact Or.inl ((hmem _).mpr (Or.inr rfl))
  · refine ⟨le_refl _, fun n hn => Or.inl (hold n hn), fun e he => ?_, fun e he => he⟩
    rcases (hmem e).mp he with he | rfl
    · exact Or.inl he
    · exact Or.inr hin

/-- A section of an ingest that neither takes a number nor appends. -/
private theorem logInv_move {c : Conc F} (hI : LogInv c) {before after : List (Task F)}
    {task : Task F} {stage : Stage F} {t : Tsdb F} (htasks : c.tasks = before ++ task :: after)
    (hun : stage.unappended? = task.stage.unappended?)
    (hentry : ({ task with stage } : Task F).logEntry = task.logEntry)
    (hseq : t.seq = c.tsdb.seq) (hrecent : t.recent = c.tsdb.recent) :
    let c' : Conc F := { c with tsdb := t, tasks := before ++ { task with stage } :: after }
    LogInv c' ∧ Extends c c' := by
  intro c'
  have hlog : c'.log = c.log := by
    show c.popped ++ t.recent = c.popped ++ c.tsdb.recent
    rw [hrecent]
  have hunap : c'.unappended = c.unappended := by
    unfold Conc.unappended
    rw [htasks, unappended_around, unappended_around, hun]
  refine ⟨logInv_of_same hI hseq hlog hunap ?_, extends_of_same hseq hlog hunap (fun e he => he)⟩
  refine entries_around hI htasks (fun e he => he) (fun e he => ?_)
  rw [hentry] at he
  show e ∈ c.log ∨ stage.unappended? = some e.1
  rw [hun]
  exact hI.entries task (htasks ▸ List.mem_append_right _ List.mem_cons_self) e he

/-- A section that moves the front of the log to the popped entries, or nothing at all. -/
private theorem logInv_keep {c c' : Conc F} (hI : LogInv c) (htasks : c'.tasks = c.tasks)
    (hseq : c'.tsdb.seq = c.tsdb.seq) (hlog : c'.log = c.log)
    (hpop : ∀ e ∈ c.popped, e ∈ c'.popped) : LogInv c' ∧ Extends c c' := by
  have hun : c'.unappended = c.unappended := by
    unfold Conc.unappended
    rw [htasks]
  exact ⟨logInv_of_same hI hseq hlog hun (htasks ▸ hI.entries),
    extends_of_same hseq hlog hun hpop⟩

variable [LinearOrder F] [Zero F] [Add F]

/-- **Step lemma.** A section that appends in order keeps the log invariant, and extends the
    log only by what was still to be appended. -/
theorem logInv_step {c c' : Conc F} {a : Section F} (hI : LogInv c) (hok : AppendsInOrder c a)
    (hs : c.step a = some c') : LogInv c' ∧ Extends c c' := by
  cases a with
  | start link s persist =>
    -- a new ingest has no number yet
    obtain rfl := Option.some.inj hs
    have hstage : ∀ res : Option (Accepted F), (Conc.startStage res).unappended? = none := fun res => by
      cases res <;> rfl
    have hun : Conc.unappended { c with
        tsdb := (c.tsdb.ringSection link s).1
        tasks := c.tasks ++
          [⟨link, s, persist, Conc.startStage (c.tsdb.ringSection link s).2⟩] } = c.unappended := by
      unfold Conc.unappended
      rw [List.filterMap_append, List.filterMap_cons, hstage]
      exact List.append_nil _
    refine ⟨logInv_of_same hI rfl rfl hun ?_, extends_of_same rfl rfl hun (fun e he => he)⟩
    intro task htask e he
    rcases List.mem_append.mp htask with htask | htask
    · exact hI.entries task htask e he
    · obtain rfl := List.mem_singleton.mp htask
      cases hres : (c.tsdb.ringSection link s).2 <;> simp [Task.logEntry, Conc.startStage, hres] at he
  | advance i =>
    obtain ⟨before, task, after, t, stage, htasks, hlen, hadv, rfl⟩ := Conc.step_advance_cases hs
    have hget : c.tasks[i]? = some task := by rw [htasks, ← hlen]; simp
    unfold Conc.advanceTask at hadv
    split at hadv
    · rename_i acc hstage
      obtain ⟨rfl, rfl⟩ := Prod.mk.inj (Option.some.inj hadv)
      exact logInv_move hI htasks (by rw [hstage]; rfl) (by simp [Task.logEntry, hstage]) rfl rfl
    · rename_i acc hstage
      obtain ⟨rfl, rfl⟩ := Prod.mk.inj (Option.some.inj hadv)
      exact logInv_number hI htasks hstage
    · rename_i acc seq hstage
      obtain ⟨rfl, rfl⟩ := Prod.mk.inj (Option.some.inj hadv)
      refine logInv_append hI htasks hstage (hok seq ?_)
      rw [hget, Option.bind_some, hstage]
      rfl
    · rename_i acc seq hstage
      obtain ⟨rfl, rfl⟩ := Prod.mk.inj (Option.some.inj hadv)
      refine logInv_move hI htasks (by rw [hstage]; rfl) (by simp [Task.logEntry, hstage]) ?_ ?_ <;>
        rw [Tsdb.queueSection_eq]
    · exact absurd hadv (by simp)
    · exact absurd hadv (by simp)
  | take peer | ack peer | note peer | fail peer =>
    -- the pushes do not touch the log
    simp only [Conc.step] at hs
    split at hs
    · obtain rfl := Option.some.inj hs
      exact logInv_keep hI rfl rfl rfl (fun e he => he)
    · exact absurd hs (by simp)
  | pruneRings now =>
    obtain rfl := Option.some.inj hs
    exact logInv_keep hI rfl rfl rfl (fun e he => he)
  | pruneBuckets now =>
    obtain rfl := Option.some.inj hs
    exact logInv_keep hI rfl rfl rfl (fun e he => he)
  | pruneLog now =>
    obtain rfl := Option.some.inj hs
    refine logInv_keep hI rfl rfl ?_ (fun e he => List.mem_append_left _ he)
    show (c.popped ++ c.tsdb.recent.takeWhile _) ++ c.tsdb.recent.dropWhile _ = _
    rw [List.append_assoc, List.takeWhile_append_dropWhile]
    rfl

/-! ### The peers -/

omit [LinearOrder F] [Zero F] [Add F] in
/-- Every number up to `x` has been appended, and each such entry was acknowledged by the
    peer, popped, or is in `extra`. -/
structure Covers (c : Conc F) (peer : String) (x : ℕ) (extra : List (Entry F)) : Prop where
  lt_seq : x < c.tsdb.seq
  lt_unappended : ∀ n ∈ c.unappended, x < n
  log : ∀ e ∈ c.log, e.1 ≤ x →
    e ∈ (c.acked peer).flatten ∨ e ∈ c.popped ∨ e ∈ extra

omit [LinearOrder F] [Zero F] [Add F] in
theorem Covers.extend {c c' : Conc F} {peer : String} {x : ℕ} {extra : List (Entry F)}
    (h : Covers c peer x extra) (hE : Extends c c') (hacked : c'.acked peer = c.acked peer) :
    Covers c' peer x extra := by
  refine ⟨lt_of_lt_of_le h.lt_seq hE.seq_le, fun n hn => ?_, fun e he hle => ?_⟩
  · rcases hE.unappended n hn with hn | hn
    · exact h.lt_unappended n hn
    · exact lt_of_lt_of_le h.lt_seq hn
  · rcases hE.log e he with he | he
    · rw [hacked]
      exact (h.log e he hle).imp id (Or.imp (hE.popped e) id)
    · -- what was appended meanwhile lies above `x`
      have := h.lt_unappended e.1 he
      omega

omit [LinearOrder F] [Zero F] [Add F] in
/-- The push under way to a peer: what it took is everything between the watermark and the
    number it will advance the watermark to. -/
def PushInv (c : Conc F) (peer : String) : Push F → Prop
  | .idle => ∀ e ∈ (c.acked peer).flatten, e.1 ≤ c.tsdb.sentWatermark peer
  | .sent batch last =>
    (∀ e ∈ (c.acked peer).flatten, e.1 ≤ c.tsdb.sentWatermark peer) ∧
      Covers c peer last batch ∧
      (∀ e ∈ batch, c.tsdb.sentWatermark peer < e.1 ∧ e.1 ≤ last) ∧ batch.Nodup ∧
      c.tsdb.sentWatermark peer ≤ last
  | .acknowledged last => (∀ e ∈ (c.acked peer).flatten, e.1 ≤ last) ∧ Covers c peer last []

omit [LinearOrder F] [Zero F] [Add F] in
/-- The watermark of a peer covers everything below it. -/
structure PeerInv (c : Conc F) (peer : String) : Prop where
  covers : Covers c peer (c.tsdb.sentWatermark peer) []
  nodup : (c.acked peer).flatten.Nodup
  push : PushInv c peer (c.push peer)

omit [LinearOrder F] [Zero F] [Add F] in
/-- A section that does not touch the peer. -/
private theorem peerInv_frame {c c' : Conc F} {peer : String} (h : PeerInv c peer)
    (hE : Extends c c') (hacked : c'.acked peer = c.acked peer) (hpush : c'.push peer = c.push peer)
    (hwm : c'.tsdb.sentWatermark peer = c.tsdb.sentWatermark peer) : PeerInv c' peer := by
  refine ⟨hwm ▸ h.covers.extend hE hacked, hacked ▸ h.nodup, ?_⟩
  have hold := h.push
  rw [hpush]
  cases hp : c.push peer with
  | idle =>
    rw [hp] at hold
    show ∀ e ∈ (c'.acked peer).flatten, e.1 ≤ c'.tsdb.sentWatermark peer
    rw [hacked, hwm]
    exact hold
  | sent batch last =>
    rw [hp] at hold
    obtain ⟨hle, hcov, hbatch, hnd, hlast⟩ := hold
    refine ⟨?_, hcov.extend hE hacked, ?_, hnd, ?_⟩
    · rw [hacked, hwm]; exact hle
    · rw [hwm]; exact hbatch
    · rw [hwm]; exact hlast
  | acknowledged last =>
    rw [hp] at hold
    exact ⟨hacked ▸ hold.1, hold.2.extend hE hacked⟩

omit [LinearOrder F] [Zero F] [Add F] in
/-- Taking a delta above the watermark. -/
private theorem peerInv_take {c : Conc F} {peer : String} (hI : LogInv c) (h : PeerInv c peer)
    (hidle : c.push peer = .idle) :
    let res := c.tsdb.takeDelta (c.tsdb.sentWatermark peer) deltaLimit
    PeerInv { c with push := Function.update c.push peer (.sent res.1 res.2) } peer := by
  intro res
  have hasc : Ascending Prod.fst c.tsdb.recent := (List.pairwise_append.mp hI.ascending).2.1
  obtain ⟨hout, hle, hmem, hall, hlast⟩ :=
    Tsdb.takeDelta_spec hasc (c.tsdb.sentWatermark peer) deltaLimit
  have hold := h.push
  rw [hidle] at hold
  refine ⟨⟨h.covers.lt_seq, h.covers.lt_unappended, h.covers.log⟩, h.nodup, ?_⟩
  show PushInv _ peer (Function.update c.push peer (.sent res.1 res.2) peer)
  rw [Function.update_self]
  refine ⟨hold, ⟨?_, ?_, ?_⟩, fun e he => (hmem e he).2, ?_, hle⟩
  · rcases hlast with heq | ⟨e, he, heq⟩
    · exact heq ▸ h.covers.lt_seq
    · exact heq ▸ hI.log_lt e (List.mem_append_right _ he)
  · intro n hn
    rcases hlast with heq | ⟨e, he, heq⟩
    · exact heq ▸ h.covers.lt_unappended n hn
    · exact heq ▸ hI.log_lt_unappended e (List.mem_append_right _ he) n hn
  · intro e he hle'
    by_cases hwm : e.1 ≤ c.tsdb.sentWatermark peer
    · exact (h.covers.log e he hwm).imp id (Or.imp id (fun h => absurd h List.not_mem_nil))
    · rcases List.mem_append.mp he with he | he
      · exact Or.inr (Or.inl he)
      · exact Or.inr (Or.inr (hall e he (not_le.mp hwm) hle'))
  · exact hout.imp (fun hlt heq => absurd hlt (by rw [heq]; exact lt_irrefl _))

omit [LinearOrder F] [Zero F] [Add F] in
/-- The peer acknowledges the batch. -/
private theorem peerInv_ack {c : Conc F} {peer : String} (h : PeerInv c peer)
    {batch : List (Entry F)} {last : ℕ} (hsent : c.push peer = .sent batch last) :
    PeerInv { c with
      push := Function.update c.push peer (.acknowledged last)
      acked := Function.update c.acked peer (c.acked peer ++ [batch]) } peer := by
  have hold := h.push
  rw [hsent] at hold
  obtain ⟨hle, hcov, hbatch, hnd, hlast⟩ := hold
  have hflat : (Function.update c.acked peer (c.acked peer ++ [batch]) peer).flatten =
      (c.acked peer).flatten ++ batch := by
    rw [Function.update_self]; simp
  refine ⟨⟨h.covers.lt_seq, h.covers.lt_unappended, fun e he hle' => ?_⟩, ?_, ?_⟩
  · show e ∈ (Function.update c.acked peer (c.acked peer ++ [batch]) peer).flatten ∨ _
    rw [hflat]
    exact (h.covers.log e he hle').imp (List.mem_append_left _) id
  · show (Function.update c.acked peer (c.acked peer ++ [batch]) peer).flatten.Nodup
    rw [hflat]
    refine List.nodup_append.mpr ⟨h.nodup, hnd, fun e he e' he' heq => ?_⟩
    -- what was acknowledged before lies below the watermark, the batch above it
    have h1 := hle e he
    have h2 := (hbatch e' he').1
    rw [heq] at h1
    omega
  · show PushInv _ peer (Function.update c.push peer (.acknowledged last) peer)
    rw [Function.update_self]
    refine ⟨fun e he => ?_, hcov.lt_seq, hcov.lt_unappended, fun e he hle' => ?_⟩
    · rw [hflat] at he
      rcases List.mem_append.mp he with he | he
      · exact (hle e he).trans hlast
      · exact (hbatch e he).2
    · rw [hflat]
      rcases hcov.log e he hle' with hin | hin | hin
      · exact Or.inl (List.mem_append_left _ hin)
      · exact Or.inr (Or.inl hin)
      · exact Or.inl (List.mem_append_right _ hin)

/-- The sections of an ingest leave the watermarks alone. -/
private theorem sent_advanceTask {t t' : Tsdb F} {task : Task F} {stage : Stage F}
    (h : Conc.advanceTask t task = some (t', stage)) : t'.sent = t.sent := by
  unfold Conc.advanceTask at h
  split at h
  · obtain ⟨rfl, rfl⟩ := Prod.mk.inj (Option.some.inj h); rfl
  · obtain ⟨rfl, rfl⟩ := Prod.mk.inj (Option.some.inj h); rfl
  · obtain ⟨rfl, rfl⟩ := Prod.mk.inj (Option.some.inj h); rfl
  · obtain ⟨rfl, rfl⟩ := Prod.mk.inj (Option.some.inj h)
    rw [Tsdb.queueSection_eq]
  · exact absurd h (by simp)
  · exact absurd h (by simp)

omit [LinearOrder F] [Zero F] [Add F] in
/-- The watermark is raised to the batch that was acknowledged. -/
private theorem peerInv_note {c : Conc F} {peer : String} (h : PeerInv c peer) {last : ℕ}
    {c' : Conc F} (hE : Extends c c')
    (hack : c.push peer = .acknowledged last) (hs : c' = { c with
      tsdb := c.tsdb.noteSent peer last
      push := Function.update c.push peer .idle }) : PeerInv c' peer := by
  subst hs
  have hold := h.push
  rw [hack] at hold
  have hwm : (c.tsdb.noteSent peer last).sentWatermark peer = last := by
    rw [Tsdb.sentWatermark_noteSent, if_pos rfl]
  refine ⟨?_, h.nodup, ?_⟩
  · show Covers _ peer ((c.tsdb.noteSent peer last).sentWatermark peer) []
    rw [hwm]
    exact hold.2.extend hE rfl
  · show PushInv _ peer (Function.update c.push peer .idle peer)
    rw [Function.update_self]
    intro e he
    show e.1 ≤ (c.tsdb.noteSent peer last).sentWatermark peer
    rw [hwm]
    exact hold.1 e he

omit [LinearOrder F] [Zero F] [Add F] in
/-- A push that failed leaves the watermark where it was. -/
private theorem peerInv_fail {c : Conc F} {peer : String} (h : PeerInv c peer)
    {batch : List (Entry F)} {last : ℕ} {c' : Conc F} (hE : Extends c c')
    (hsent : c.push peer = .sent batch last) (hs : c' = { c with
      push := Function.update c.push peer .idle }) : PeerInv c' peer := by
  subst hs
  have hold := h.push
  rw [hsent] at hold
  refine ⟨h.covers.extend hE rfl, h.nodup, ?_⟩
  show PushInv _ peer (Function.update c.push peer .idle peer)
  rw [Function.update_self]
  exact hold.1

/-- **Step lemma.** Every section that appends in order keeps the invariant of every peer. -/
theorem peerInv_step {c c' : Conc F} {a : Section F} {peer : String} (hI : LogInv c)
    (h : PeerInv c peer) (hok : AppendsInOrder c a) (hs : c.step a = some c') :
    PeerInv c' peer := by
  -- the log of before is a prefix of the log after, so what was sent from it stays sent
  have hE : Extends c c' := (logInv_step hI hok hs).2
  cases a with
  | start link s persist =>
    obtain rfl := Option.some.inj hs
    exact peerInv_frame h hE rfl rfl rfl
  | advance i =>
    obtain ⟨before, task, after, t, stage, -, -, hadv, rfl⟩ := Conc.step_advance_cases hs
    refine peerInv_frame h hE rfl rfl ?_
    show t.sentWatermark peer = c.tsdb.sentWatermark peer
    unfold Tsdb.sentWatermark
    rw [sent_advanceTask hadv]
  | take p =>
    simp only [Conc.step] at hs
    split at hs
    · rename_i hidle
      obtain rfl := Option.some.inj hs
      -- a section of another peer leaves this one's batch and mark alone
      by_cases hp : peer = p
      · subst hp
        exact peerInv_take hI h hidle
      · exact peerInv_frame h hE rfl (Function.update_of_ne hp _ _) rfl
    · exact absurd hs (by simp)
  | ack p =>
    simp only [Conc.step] at hs
    split at hs
    · rename_i batch last hsent
      obtain rfl := Option.some.inj hs
      by_cases hp : peer = p
      · subst hp
        exact peerInv_ack h hsent
      · exact peerInv_frame h hE (Function.update_of_ne hp _ _) (Function.update_of_ne hp _ _) rfl
    · exact absurd hs (by simp)
  | note p =>
    simp only [Conc.step] at hs
    split at hs
    · rename_i last hack
      obtain rfl := Option.some.inj hs
      by_cases hp : peer = p
      · subst hp
        exact peerInv_note h hE hack rfl
      · refine peerInv_frame h hE rfl (Function.update_of_ne hp _ _) ?_
        show (c.tsdb.noteSent p last).sentWatermark peer = _
        rw [Tsdb.sentWatermark_noteSent, if_neg hp]
    · exact absurd hs (by simp)
  | fail p =>
    simp only [Conc.step] at hs
    split at hs
    · rename_i batch last hsent
      obtain rfl := Option.some.inj hs
      by_cases hp : peer = p
      · subst hp
        exact peerInv_fail h hE hsent rfl
      · exact peerInv_frame h hE rfl (Function.update_of_ne hp _ _) rfl
    · exact absurd hs (by simp)
  | pruneRings now | pruneBuckets now | pruneLog now =>
    obtain rfl := Option.some.inj hs
    exact peerInv_frame h hE rfl rfl rfl

/-! ### Runs -/

/-- A store as a process starts with: nothing was sent to any peer yet, and what loading the
    durable copy has put into the log is numbered in order. -/
structure Tsdb.Started (t : Tsdb F) : Prop where
  seq_pos : 0 < t.seq
  ascending : Ascending Prod.fst t.recent
  bounds : ∀ e ∈ t.recent, 0 < e.1 ∧ e.1 < t.seq
  sent : ∀ peer, t.sentWatermark peer = 0

omit [LinearOrder F] [Zero F] [Add F] in
theorem Tsdb.started_new (cfg : TsConfig) : (Tsdb.new cfg : Tsdb F).Started :=
  ⟨Nat.one_pos, List.Pairwise.nil, fun _ he => absurd he List.not_mem_nil, fun _ => rfl⟩

omit [LinearOrder F] [Zero F] [Add F] in
private theorem inv_atRest {t : Tsdb F} (ht : t.Started) (peer : String) :
    LogInv (Conc.atRest t) ∧ PeerInv (Conc.atRest t) peer := by
  have hlog : (Conc.atRest t).log = t.recent := rfl
  have hun : ∀ n, n ∉ (Conc.atRest t).unappended := fun _ => List.not_mem_nil
  have hwm : (Conc.atRest t).tsdb.sentWatermark peer = 0 := ht.sent peer
  refine ⟨⟨ht.ascending, fun e he => (ht.bounds e he).2, ht.seq_pos, ?_, ?_, List.nodup_nil, ?_, ?_⟩,
    ⟨⟨?_, ?_, ?_⟩, List.nodup_nil, ?_⟩⟩
  · exact fun n hn => absurd hn (hun n)
  · exact fun n hn => absurd hn (hun n)
  · exact fun _ _ n hn => absurd hn (hun n)
  · exact fun task htask => absurd htask List.not_mem_nil
  · rw [hwm]; exact ht.seq_pos
  · exact fun n hn => absurd hn (hun n)
  · -- the numbers of the log are positive, the watermark is not
    intro e he hle
    have hpos := (ht.bounds e (hlog ▸ he)).1
    rw [hwm] at hle
    omega
  · exact fun e he => absurd he List.not_mem_nil

/-- **Nothing is skipped.** In every run of concurrent ingests, pushes and prunes in which
    every ingest appends in order, every accepted sample numbered up to a peer's watermark was
    in a batch the peer acknowledged or was popped by a prune, and no entry was acknowledged
    twice. -/
theorem nothing_skipped {t : Tsdb F} {c : Conc F} (ht : t.Started)
    (h : Runs Conc.step AppendsInOrder (Conc.atRest t) c) (peer : String) :
    c.SkipsNothing peer := by
  have hinv : LogInv c ∧ PeerInv c peer :=
    h.invariant (I := fun c => LogInv c ∧ PeerInv c peer) (inv_atRest ht peer)
      (fun c a c' hI hok hs => ⟨(logInv_step hI.1 hok hs).1, peerInv_step hI.1 hI.2 hok hs⟩)
  obtain ⟨hI, hP⟩ := hinv
  have hlog : ∀ e ∈ c.log, e.1 ≤ c.tsdb.sentWatermark peer →
      e ∈ (c.acked peer).flatten ∨ e ∈ c.popped := fun e he hle =>
    (hP.covers.log e he hle).imp id (fun h => h.resolve_right List.not_mem_nil)
  refine ⟨fun e he hle => ?_, hP.nodup⟩
  rcases List.mem_append.mp he with he | he
  · exact hlog e he hle
  obtain ⟨task, htask, hentry⟩ := List.mem_filterMap.mp he
  rcases hI.entries task htask e hentry with he | hun
  · exact hlog e he hle
  · -- a number still to be appended lies above the watermark
    have hlt := hP.covers.lt_unappended e.1 (List.mem_filterMap.mpr ⟨task, htask, hun⟩)
    omega

/-! ### An ingest overtaken between number and log -/

/-- Two probe reports of one link, for two seconds. -/
private def reports : List (Section ℕ) :=
  [.start ⟨"hub-a", "hub-b", "awg0"⟩ (RawSample.fromDims .quiet 60 (some 5) none none none 0) true,
    .start ⟨"hub-a", "hub-b", "awg0"⟩ (RawSample.fromDims .quiet 61 (some 6) none none none 0) true]

/-- Both reports take a number, the first one first. -/
private def numbers : List (Section ℕ) := [.advance 0, .advance 1, .advance 0, .advance 1]

/-- One push to a peer that is acknowledged. -/
private def pushOnce : List (Section ℕ) := [.take "b", .ack "b", .note "b"]

/-- The run in which the reports append in order, and everything up to the watermark was
    acknowledged. -/
theorem nothing_skipped_reports :
    ∃ c : Conc ℕ, c.tsdb.sentWatermark "b" = 2 ∧ c.SkipsNothing "b" := by
  have hrun : exec Conc.step AppendsInOrder (Conc.atRest (Tsdb.new ⟨"", 7200, 86400⟩))
      (reports ++ numbers ++ [.advance 0, .advance 1] ++ pushOnce) =
      some _ := rfl
  exact ⟨_, rfl, nothing_skipped (Tsdb.started_new _) (Runs.of_exec _ hrun) "b"⟩

/-- **A late append is skipped.** The second report appends first and is pushed before the
    first report appends its lower number: the watermark is above it, and no batch had it. -/
theorem late_append_skipped :
    ∃ c : Conc ℕ, Runs Conc.step Always (Conc.atRest (Tsdb.new ⟨"", 7200, 86400⟩)) c ∧
      ¬ c.SkipsNothing "b" := by
  have hrun : exec Conc.step Always (Conc.atRest (Tsdb.new ⟨"", 7200, 86400⟩))
      (reports ++ numbers ++ [.advance 1] ++ pushOnce ++ [.advance 0]) = some _ := rfl
  refine ⟨_, Runs.of_exec _ hrun, fun h => ?_⟩
  -- the log holds the number 2 before the number 1
  rcases h.1 _ (List.mem_append_left _ (List.mem_cons_of_mem _ List.mem_cons_self)) (by decide)
    with hacked | hpopped
  · have hnumber := List.mem_map_of_mem (f := Prod.fst) hacked
    exact absurd hnumber (by decide)
  · exact absurd hpopped List.not_mem_nil

end Mielofon
