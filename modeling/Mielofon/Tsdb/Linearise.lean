import Mathlib
import Mielofon.Lib.Last
import Mielofon.Tsdb.Concurrent
import Mielofon.Tsdb.Counting

namespace Mielofon

open Lib

/-!
# Concurrent ingests against sequential ones

An ingest captures under the ring lock which version of its second it replaced; its bucket,
log and queue sections use that later.  The result of several concurrent ingests is compared
with running them one after another, in the order of their ring sections.

* `sequential` — the ingests of some tasks, one after another;
* `Tsdb.SameState` — what is compared: the rings, the buckets, and of every second the newest
  log entry and the last queued row;
* `SectionsInOrder` — a roll-up into a missing bucket does not pass one of its minute, and an
  entry or a row is not appended after that of a newer version of its second;
* `ingests_linearise` — under this the ingests linearise, no dimension of a second is counted
  twice, and the last row of a second is its final merged version;
* `roll_up_overtaken` — a merge that is rolled in before the sample it was merged onto.
-/

variable {F : Type*}

/-! ### What is compared -/

/-- The last sample of a second of a link in a list of rows. -/
def lastRowOf (link : LinkKey) (ts : ℕ) (rows : List (LinkKey × RawSample F)) :
    Option (RawSample F) :=
  (lastSuch (fun p => p.1 = link ∧ p.2.ts = ts) rows).map Prod.snd

theorem lastRowOf_concat (link l : LinkKey) (ts : ℕ) (s : RawSample F)
    (rows : List (LinkKey × RawSample F)) :
    lastRowOf link ts (rows ++ [(l, s)]) =
      if l = link ∧ s.ts = ts then some s else lastRowOf link ts rows := by
  unfold lastRowOf
  rw [lastSuch_concat]
  by_cases h : l = link ∧ s.ts = ts
  · rw [if_pos (decide_eq_true h), if_pos h]; rfl
  · rw [if_neg (by simpa using h), if_neg h]

namespace Tsdb

/-- The sample of the newest log entry of a second. -/
def newestEntry (t : Tsdb F) (link : LinkKey) (ts : ℕ) : Option (RawSample F) :=
  lastRowOf link ts (t.recent.map Prod.snd)

/-- The last queued row of a second. -/
def lastRow (t : Tsdb F) (link : LinkKey) (ts : ℕ) : Option (RawSample F) :=
  lastRowOf link ts t.pending

/-- The same rings and buckets, and for every second the same newest log entry and the same
    last queued row. -/
structure SameState (t t' : Tsdb F) : Prop where
  rings : ∀ l, t.ringOf l = t'.ringOf l
  minutes : ∀ l, t.minutesOf l = t'.minutesOf l
  newestEntry : ∀ l ts, t.newestEntry l ts = t'.newestEntry l ts
  lastRow : ∀ l ts, t.lastRow l ts = t'.lastRow l ts

end Tsdb

/-- The sample an ingest stored, if the ring accepted it. -/
def Task.stored (task : Task F) : Option (RawSample F) := task.stage.acc?.map Accepted.sample

/-- Whether an ingest made a version of a second of a link. -/
def Task.versionOf (link : LinkKey) (ts : ℕ) (task : Task F) : Bool :=
  task.link = link && task.sample.ts = ts && task.stored.isSome

/-- Whether such a version is queued for the durable copy. -/
def Task.rowOf (cfg : TsConfig) (link : LinkKey) (ts : ℕ) (task : Task F) : Bool :=
  task.versionOf link ts && (task.persist && cfg.path != "")

/-- What an ingest is about to roll into the bucket of a minute. -/
def Task.awaiting (link : LinkKey) (start : ℕ) (task : Task F) : Option (Accepted F) :=
  match task.stage with
  | .accepted acc => if task.link = link ∧ bucketTs acc.sample.ts = start then some acc else none
  | _ => none

section Order

variable [LinearOrder F] [Zero F] [AddCommSemigroup F]

/-- The ingests of some tasks, one after another. -/
def sequential (t : Tsdb F) (tasks : List (Task F)) : Tsdb F :=
  tasks.foldl (fun t task => (t.ingest task.link task.sample task.persist).1) t

omit [LinearOrder F] [Zero F] [AddCommSemigroup F] in
/-- The condition on the next section of the ingest at a position:
    * the bucket of the minute exists, or the ingest and those of the minute it passes are
      fresh;
    * the newest version of the second has not been appended to the log;
    * the newest version of the second to be queued has not been queued. -/
def NextInOrder (c : Conc F) (i : ℕ) (task : Task F) : Prop :=
  match task.stage with
  | .accepted acc =>
    ((c.tsdb.minutesOf task.link).bucketAt (bucketTs acc.sample.ts)).isSome ∨
      ∀ passed ∈ (c.tasks.take i).filterMap (Task.awaiting task.link (bucketTs acc.sample.ts)),
        passed.Fresh ∧ acc.Fresh
  | .numbered acc _ =>
    ∀ newest ∈ lastSuch (Task.versionOf task.link acc.sample.ts) c.tasks, newest.stage.rank < 3
  | .logged acc _ =>
    (task.persist && c.tsdb.cfg.path != "") = true →
      ∀ newest ∈ lastSuch (Task.rowOf c.tsdb.cfg task.link acc.sample.ts) c.tasks,
        newest.stage.rank < 4
  | .refused | .bucketed _ | .finished _ _ => True

omit [LinearOrder F] [Zero F] [AddCommSemigroup F] in
/-- The next section of every ingest is in order.  Pushes leave what is compared alone; there
    are no prunes. -/
def SectionsInOrder (c : Conc F) : Section F → Prop
  | .advance i => ∀ task ∈ c.tasks[i]?, NextInOrder c i task
  | .start .. | .take _ | .ack _ | .note _ | .fail _ => True
  | .pruneRings _ | .pruneBuckets _ | .pruneLog _ => False

omit [LinearOrder F] [Zero F] [AddCommSemigroup F] in
instance (c : Conc F) (i : ℕ) (task : Task F) : Decidable (NextInOrder c i task) := by
  unfold NextInOrder
  split <;> infer_instance

omit [LinearOrder F] [Zero F] [AddCommSemigroup F] in
instance (c : Conc F) (a : Section F) : Decidable (SectionsInOrder c a) :=
  match a with
  | .advance i => inferInstanceAs (Decidable (∀ task ∈ c.tasks[i]?, NextInOrder c i task))
  | .start .. | .take _ | .ack _ | .note _ | .fail _ => .isTrue trivial
  | .pruneRings _ | .pruneBuckets _ | .pruneLog _ => .isFalse id

/-! ### The newest version of a second -/

omit [LinearOrder F] [Zero F] [AddCommSemigroup F] in
/-- Once the newest version of a second has run the section that reads it off (its rank has
    reached `r`), that version is what is read; a second without a version reads as before. -/
def Settled (p : LinkKey → ℕ → Task F → Bool) (r : ℕ)
    (base read : LinkKey → ℕ → Option (RawSample F)) (tasks : List (Task F)) : Prop :=
  ∀ l ts, (∀ newest ∈ lastSuch (p l ts) tasks, r ≤ newest.stage.rank) →
    read l ts = ((lastSuch (p l ts) tasks).bind Task.stored).or (base l ts)

section Settled

variable {p : LinkKey → ℕ → Task F → Bool} {r : ℕ}
  {base read read' : LinkKey → ℕ → Option (RawSample F)} {tasks before after : List (Task F)}
  {task task' : Task F}

omit [LinearOrder F] [Zero F] [AddCommSemigroup F]

/-- A new ingest has not run its sections. -/
private theorem Settled.start (h : Settled p r base read tasks)
    (hrank : ∀ l ts, p l ts task → task.stage.rank < r) :
    Settled p r base read (tasks ++ [task]) := by
  intro l ts hnew
  rw [lastSuch_concat] at hnew ⊢
  by_cases hp : p l ts task
  · rw [if_pos hp] at hnew
    exact absurd (hnew task rfl) (not_le.mpr (hrank l ts hp))
  · rw [if_neg hp] at hnew ⊢
    exact h l ts hnew

/-- Another section of an ingest. -/
private theorem Settled.keep (h : Settled p r base read (before ++ task :: after))
    (hp : ∀ l ts, p l ts task' = p l ts task) (hstored : task'.stored = task.stored)
    (hrank : r ≤ task'.stage.rank → r ≤ task.stage.rank) :
    Settled p r base read (before ++ task' :: after) := by
  intro l ts hnew
  have hold := h l ts
  rcases lastSuch_replace before after (hp l ts) with hsame | ⟨hwas, his⟩
  · rw [hsame] at hnew ⊢
    exact hold hnew
  · rw [his] at hnew ⊢
    rw [hwas] at hold
    rw [hold (fun x hx => Option.some.inj hx ▸ hrank (hnew task' rfl))]
    exact congrArg (Option.or · _) hstored.symm

/-- The section that reads a version, of a second whose newest version it did not read. -/
private theorem Settled.append {s : RawSample F}
    (h : Settled p r base read (before ++ task :: after))
    (hp : ∀ l ts, p l ts task' = p l ts task) (hstored : task'.stored = some s)
    (hread : ∀ l ts, read' l ts = if p l ts task then some s else read l ts)
    (hok : ∀ l ts, p l ts task →
      ∀ newest ∈ lastSuch (p l ts) (before ++ task :: after), newest.stage.rank < r) :
    Settled p r base read' (before ++ task' :: after) := by
  intro l ts hnew
  have hold := h l ts
  rw [hread]
  rcases lastSuch_replace before after (hp l ts) with hsame | ⟨hwas, his⟩
  · rw [hsame] at hnew ⊢
    by_cases hpt : p l ts task
    · -- a newer version was read before: excluded by the order of the sections
      cases hlast : lastSuch (p l ts) (before ++ task :: after) with
      | none =>
        exact absurd hpt (lastSuch_eq_none_iff.mp hlast task
          (List.mem_append_right _ List.mem_cons_self))
      | some newest =>
        exact absurd (hnew newest hlast) (not_le.mpr (hok l ts hpt newest hlast))
    · rw [if_neg hpt]
      exact hold hnew
  · have hpt : p l ts task := (mem_of_lastSuch hwas).2
    rw [if_pos hpt, his]
    exact (congrArg (Option.or · (base l ts)) hstored).symm

end Settled

/-! ### The buckets still to be updated -/

/-- Roll an accepted sample into the bucket of its minute, present or not. -/
def Minutes.roll (held : Option (Bucket F)) (acc : Accepted F) : Option (Bucket F) :=
  some (Minutes.rolled held acc)

/-- A roll-up passes those of its minute that started earlier. -/
theorem Minutes.roll_foldl_comm {start : ℕ} {acc : Accepted F} (passed : List (Accepted F))
    {held : Option (Bucket F)} (hkey : ∀ b, held = some b → b.bucket = start)
    (hacc : bucketTs acc.sample.ts = start) (hpassed : ∀ x ∈ passed, bucketTs x.sample.ts = start)
    (hok : held.isSome ∨ ∀ x ∈ passed, x.Fresh ∧ acc.Fresh) :
    passed.foldl roll (roll held acc) = roll (passed.foldl roll held) acc := by
  induction passed generalizing held with
  | nil => rfl
  | cons x passed ih =>
    have hx : bucketTs x.sample.ts = start := hpassed x List.mem_cons_self
    have hrest := fun y hy => hpassed y (List.mem_cons_of_mem _ hy)
    have hswap : roll (roll held acc) x = roll (roll held x) acc :=
      congrArg some (rolled_right_comm (hx.trans hacc.symm)
        (fun b hb => (hkey b hb).trans hacc.symm)
        (hok.imp id (fun h => (h x List.mem_cons_self).symm)))
    have hkey' : ∀ b, roll held x = some b → b.bucket = start := fun b hb => by
      obtain rfl := Option.some.inj hb
      exact (rolled_bucket (fun b hb => (hkey b hb).trans hx.symm)).trans hx
    calc passed.foldl roll (roll (roll held acc) x)
        = passed.foldl roll (roll (roll held x) acc) := by rw [hswap]
      _ = roll (passed.foldl roll (roll held x)) acc := ih hkey' hrest (Or.inl rfl)

/-! ### The invariant -/

theorem sequential_concat (t : Tsdb F) (tasks : List (Task F)) (task : Task F) :
    sequential t (tasks ++ [task]) =
      ((sequential t tasks).ingest task.link task.sample task.persist).1 := by
  unfold sequential
  rw [List.foldl_append]
  rfl

/-- The sequential runs depend on what is ingested, not on how far an ingest has got. -/
theorem sequential_replace (t : Tsdb F) (before after : List (Task F)) (task : Task F)
    (stage : Stage F) :
    sequential t (before ++ { task with stage } :: after) =
      sequential t (before ++ task :: after) := by
  unfold sequential
  rw [List.foldl_append, List.foldl_append]
  rfl

theorem cfg_ingest (t : Tsdb F) (link : LinkKey) (s : RawSample F) (persist : Bool) :
    (t.ingest link s persist).1.cfg = t.cfg := by
  cases h : ((t.ringOf link).offer s).2 with
  | none => rw [Tsdb.ingest_of_refused persist h]
  | some acc => rw [Tsdb.ingest_of_accepted persist h]

theorem cfg_sequential (t : Tsdb F) (tasks : List (Task F)) : (sequential t tasks).cfg = t.cfg := by
  induction tasks using List.reverseRecOn with
  | nil => rfl
  | append_singleton tasks task ih => rw [sequential_concat, cfg_ingest, ih]

/-- The state against the sequential run of the same ingests in the order of their ring
    sections: the same rings, the same buckets once what awaits is rolled in, and of every
    second the newest version, as soon as that has run its section. -/
structure Linear (t : Tsdb F) (c : Conc F) : Prop where
  cfg : c.tsdb.cfg = t.cfg
  stamped : ∀ task ∈ c.tasks, ∀ s, task.stored = some s → s.ts = task.sample.ts
  rings : ∀ l, c.tsdb.ringOf l = (sequential t c.tasks).ringOf l
  minutes : ∀ l b, (c.tasks.filterMap (Task.awaiting l b)).foldl Minutes.roll
    ((c.tsdb.minutesOf l).bucketAt b) = ((sequential t c.tasks).minutesOf l).bucketAt b
  seqEntry : ∀ l ts, (sequential t c.tasks).newestEntry l ts =
    ((lastSuch (Task.versionOf l ts) c.tasks).bind Task.stored).or (t.newestEntry l ts)
  seqRow : ∀ l ts, (sequential t c.tasks).lastRow l ts =
    ((lastSuch (Task.rowOf t.cfg l ts) c.tasks).bind Task.stored).or (t.lastRow l ts)
  entries : Settled Task.versionOf 3 t.newestEntry c.tsdb.newestEntry c.tasks
  rows : Settled (Task.rowOf t.cfg) 4 t.lastRow c.tsdb.lastRow c.tasks

omit [LinearOrder F] [Zero F] [AddCommSemigroup F] in
/-- Queueing a row: the last row of its second, if it is queued at all. -/
theorem lastRowOf_queue (t : Tsdb F) (link l : LinkKey) (s : RawSample F) (persist : Bool)
    (ts : ℕ) : lastRowOf l ts (t.pending ++ t.rowsFor link s persist) =
      if (link = l ∧ s.ts = ts) ∧ (persist && t.cfg.path != "") then some s
      else t.lastRow l ts := by
  unfold Tsdb.rowsFor
  cases hp : persist && t.cfg.path != "" with
  | false =>
    rw [if_neg (by simp), List.append_nil, if_neg (by simp)]
    rfl
  | true =>
    rw [if_pos rfl, lastRowOf_concat]
    simp only [and_true]
    rfl

omit [LinearOrder F] [Zero F] [AddCommSemigroup F] in
theorem newestEntry_logSection (t : Tsdb F) (seq : ℕ) (link l : LinkKey) (s : RawSample F)
    (ts : ℕ) : (t.logSection seq link s).newestEntry l ts =
      if link = l ∧ s.ts = ts then some s else t.newestEntry l ts := by
  show lastRowOf l ts ((t.recent ++ [(seq, link, s)]).map Prod.snd) = _
  rw [List.map_append]
  exact lastRowOf_concat l link ts s _

/-- A new ingest that the ring refuses. -/
private theorem linear_refused {t : Tsdb F} {c : Conc F} (h : Linear t c) {link : LinkKey}
    {s : RawSample F} {persist : Bool} (hres : ((c.tsdb.ringOf link).offer s).2 = none) :
    Linear t { c with
      tsdb := (c.tsdb.ringSection link s).1, tasks := c.tasks ++ [⟨link, s, persist, .refused⟩] } := by
  -- the sequential run refuses it too: its rings are the same
  have hres' : (((sequential t c.tasks).ringOf link).offer s).2 = none := by rw [← h.rings, hres]
  have hseq : sequential t (c.tasks ++ [⟨link, s, persist, .refused⟩]) =
      ((sequential t c.tasks).ingest link s persist).1 := sequential_concat t c.tasks _
  have hver : ∀ l ts, (⟨link, s, persist, .refused⟩ : Task F).versionOf l ts = false :=
    fun l ts => by simp [Task.versionOf, Task.stored, Stage.acc?]
  have hrow : ∀ l ts, (⟨link, s, persist, .refused⟩ : Task F).rowOf t.cfg l ts = false :=
    fun l ts => by rw [Task.rowOf, hver, Bool.false_and]
  refine ⟨h.cfg, ?_, ?_, ?_, ?_, ?_, ?_, ?_⟩
  · intro task htask x hx
    rcases List.mem_append.mp htask with htask | htask
    · exact h.stamped task htask x hx
    · obtain rfl := List.mem_singleton.mp htask
      exact absurd hx (by simp [Task.stored, Stage.acc?])
  · intro l
    show (c.tsdb.ringSection link s).1.ringOf l = (sequential t (c.tasks ++ _)).ringOf l
    rw [hseq, Tsdb.ringOf_ringSection, Tsdb.ringOf_ingest, h.rings, h.rings]
  · intro l b
    show ((c.tasks ++ _).filterMap (Task.awaiting l b)).foldl Minutes.roll _ =
      ((sequential t (c.tasks ++ _)).minutesOf l).bucketAt b
    rw [hseq, Tsdb.ingest_of_refused persist hres', List.filterMap_append,
      show [(⟨link, s, persist, .refused⟩ : Task F)].filterMap (Task.awaiting l b) = [] from rfl,
      List.append_nil]
    exact h.minutes l b
  · intro l ts
    show (sequential t (c.tasks ++ _)).newestEntry l ts = _
    rw [hseq, Tsdb.ingest_of_refused persist hres', lastSuch_concat, hver]
    exact h.seqEntry l ts
  · intro l ts
    show (sequential t (c.tasks ++ _)).lastRow l ts = _
    rw [hseq, Tsdb.ingest_of_refused persist hres', lastSuch_concat, hrow]
    exact h.seqRow l ts
  · exact h.entries.start (fun l ts hp => absurd hp (by simp [hver]))
  · exact h.rows.start (fun l ts hp => absurd hp (by simp [hrow]))

/-- A new ingest that the ring accepts. -/
private theorem linear_accepted {t : Tsdb F} {c : Conc F} (h : Linear t c) {link : LinkKey}
    {s : RawSample F} {persist : Bool} {acc : Accepted F}
    (hres : ((c.tsdb.ringOf link).offer s).2 = some acc) :
    Linear t { c with
      tsdb := (c.tsdb.ringSection link s).1
      tasks := c.tasks ++ [⟨link, s, persist, .accepted acc⟩] } := by
  have hres' : (((sequential t c.tasks).ringOf link).offer s).2 = some acc := by
    rw [← h.rings, hres]
  have hts : acc.sample.ts = s.ts := by
    have hspec := c.tsdb.ringOf_offer_spec link s
    rw [hres] at hspec
    exact hspec.stamped
  have hseq : sequential t (c.tasks ++ [⟨link, s, persist, .accepted acc⟩]) =
      ((sequential t c.tasks).ingest link s persist).1 := sequential_concat t c.tasks _
  have hver : ∀ l ts, (⟨link, s, persist, .accepted acc⟩ : Task F).versionOf l ts =
      decide (link = l ∧ acc.sample.ts = ts) := fun l ts => by
    simp [Task.versionOf, Task.stored, Stage.acc?, hts]
  have hrow : ∀ l ts, (⟨link, s, persist, .accepted acc⟩ : Task F).rowOf t.cfg l ts =
      decide ((link = l ∧ acc.sample.ts = ts) ∧ (persist && t.cfg.path != "")) := fun l ts => by
    rw [Task.rowOf, hver]
    simp only [Bool.decide_and, Bool.decide_eq_true]
  refine ⟨h.cfg, ?_, ?_, ?_, ?_, ?_, ?_, ?_⟩
  · -- the versions of the ingests are stamped with their seconds
    intro task htask x hx
    rcases List.mem_append.mp htask with htask | htask
    · exact h.stamped task htask x hx
    · obtain rfl := List.mem_singleton.mp htask
      obtain rfl := Option.some.inj hx
      exact hts
  · intro l
    show (c.tsdb.ringSection link s).1.ringOf l = (sequential t (c.tasks ++ _)).ringOf l
    rw [hseq, Tsdb.ringOf_ringSection, Tsdb.ringOf_ingest, h.rings, h.rings]
  · intro l b
    show ((c.tasks ++ _).filterMap (Task.awaiting l b)).foldl Minutes.roll _ =
      ((sequential t (c.tasks ++ _)).minutesOf l).bucketAt b
    rw [hseq, List.filterMap_append, List.foldl_append]
    have hold : (c.tasks.filterMap (Task.awaiting l b)).foldl Minutes.roll
        (((c.tsdb.ringSection link s).1.minutesOf l).bucketAt b) =
        ((sequential t c.tasks).minutesOf l).bucketAt b := h.minutes l b
    have hnew : (((sequential t c.tasks).ingest link s persist).1.minutesOf l) =
        ((sequential t c.tasks).bucketSection link acc).minutesOf l := by
      rw [Tsdb.ingest_of_accepted persist hres']
      rfl
    -- the new ingest is the last to roll up
    rw [hold, hnew, Tsdb.bucketAt_bucketSection]
    by_cases hl : link = l ∧ bucketTs acc.sample.ts = b
    · rw [if_pos hl]
      simp only [List.filterMap_cons, Task.awaiting, if_pos hl]
      rfl
    · rw [if_neg hl]
      simp only [List.filterMap_cons, Task.awaiting, if_neg hl]
      rfl
  · intro l ts
    show (sequential t (c.tasks ++ _)).newestEntry l ts = _
    have hnew : ((sequential t c.tasks).ingest link s persist).1.newestEntry l ts =
        ((sequential t c.tasks).logSection (sequential t c.tasks).seq link
          acc.sample).newestEntry l ts := by
      rw [Tsdb.ingest_of_accepted persist hres']
      rfl
    -- and the last to log and to queue its second
    rw [hseq, hnew, newestEntry_logSection, lastSuch_concat, hver, h.seqEntry]
    by_cases hl : link = l ∧ acc.sample.ts = ts
    · rw [if_pos hl, if_pos (decide_eq_true hl)]
      rfl
    · rw [if_neg hl, if_neg (by simpa using hl)]
  · intro l ts
    show (sequential t (c.tasks ++ _)).lastRow l ts = _
    have hnew : ((sequential t c.tasks).ingest link s persist).1.lastRow l ts =
        lastRowOf l ts ((sequential t c.tasks).pending ++
          (sequential t c.tasks).rowsFor link acc.sample persist) := by
      rw [Tsdb.ingest_of_accepted persist hres']
      rfl
    rw [hseq, hnew, lastRowOf_queue, cfg_sequential, lastSuch_concat, hrow, h.seqRow]
    by_cases hl : (link = l ∧ acc.sample.ts = ts) ∧ (persist && t.cfg.path != "") = true
    · rw [if_pos hl, if_pos (decide_eq_true hl)]
      rfl
    · rw [if_neg hl, if_neg (fun h => hl (of_decide_eq_true h))]
  · exact h.entries.start (fun _ _ _ => Nat.zero_lt_succ 2)
  · exact h.rows.start (fun _ _ _ => Nat.zero_lt_succ 3)

omit [LinearOrder F] [Zero F] [AddCommSemigroup F] in
/-- How far an ingest has got does not matter for what its second reads. -/
private theorem stored_replace {p : Task F → Bool} (before after : List (Task F))
    {task task' : Task F} (hp : p task' = p task) (hstored : task'.stored = task.stored) :
    (lastSuch p (before ++ task' :: after)).bind Task.stored =
      (lastSuch p (before ++ task :: after)).bind Task.stored := by
  rcases lastSuch_replace before after hp with hsame | ⟨hwas, his⟩
  · rw [hsame]
  · rw [hwas, his]
    exact hstored

/-- What an ingest that goes on leaves as it was. -/
private theorem linear_advance {t t' : Tsdb F} {c : Conc F} (h : Linear t c)
    {before after : List (Task F)} {task : Task F} {stage : Stage F}
    (htasks : c.tasks = before ++ task :: after) (hacc : stage.acc? = task.stage.acc?)
    (hcfg : t'.cfg = c.tsdb.cfg) (hby : t'.byLink = c.tsdb.byLink)
    (hmin : ∀ l b, ((before ++ { task with stage } :: after).filterMap
      (Task.awaiting l b)).foldl Minutes.roll ((t'.minutesOf l).bucketAt b) =
        (c.tasks.filterMap (Task.awaiting l b)).foldl Minutes.roll
          ((c.tsdb.minutesOf l).bucketAt b))
    (hent : Settled Task.versionOf 3 t.newestEntry t'.newestEntry
      (before ++ { task with stage } :: after))
    (hrow : Settled (Task.rowOf t.cfg) 4 t.lastRow t'.lastRow
      (before ++ { task with stage } :: after)) :
    Linear t { c with tsdb := t', tasks := before ++ { task with stage } :: after } := by
  have hstored : ({ task with stage } : Task F).stored = task.stored := by
    simp only [Task.stored, hacc]
  have hver : ∀ l ts, ({ task with stage } : Task F).versionOf l ts = task.versionOf l ts :=
    fun l ts => by simp only [Task.versionOf, hstored]
  have hrowOf : ∀ l ts, ({ task with stage } : Task F).rowOf t.cfg l ts = task.rowOf t.cfg l ts :=
    fun l ts => by simp only [Task.rowOf, hver]
  have hseq : sequential t (before ++ { task with stage } :: after) = sequential t c.tasks := by
    rw [sequential_replace, htasks]
  refine ⟨hcfg.trans h.cfg, ?_, ?_, ?_, ?_, ?_, hent, hrow⟩
  · -- what was stamped stays stamped: the stage alone has changed
    intro x hx s hs
    rcases List.mem_append.mp hx with hx | hx
    · exact h.stamped x (htasks ▸ List.mem_append_left _ hx) s hs
    rcases List.mem_cons.mp hx with rfl | hx
    · exact h.stamped task (htasks ▸ List.mem_append_right _ List.mem_cons_self) s (hstored ▸ hs)
    · exact h.stamped x (htasks ▸ List.mem_append_right _ (List.mem_cons_of_mem _ hx)) s hs
  · intro l
    show t'.ringOf l = (sequential t (before ++ _ :: after)).ringOf l
    rw [hseq, ← h.rings, Tsdb.ringOf, Tsdb.ringOf, hby]
  · intro l b
    rw [hmin, h.minutes]
    show _ = ((sequential t (before ++ _ :: after)).minutesOf l).bucketAt b
    rw [hseq]
  · intro l ts
    show (sequential t (before ++ _ :: after)).newestEntry l ts = _
    rw [hseq, h.seqEntry, htasks, stored_replace before after (hver l ts) hstored]
  · intro l ts
    show (sequential t (before ++ _ :: after)).lastRow l ts = _
    rw [hseq, h.seqRow, htasks, stored_replace before after (hrowOf l ts) hstored]

omit [LinearOrder F] [Zero F] [AddCommSemigroup F] in
/-- An ingest past its bucket section awaits nothing. -/
private theorem awaiting_around {l : LinkKey} {b : ℕ} (before after : List (Task F)) {task : Task F}
    (htask : task.awaiting l b = none) :
    (before ++ task :: after).filterMap (Task.awaiting l b) =
      before.filterMap (Task.awaiting l b) ++ after.filterMap (Task.awaiting l b) := by
  rw [List.filterMap_append, List.filterMap_cons_none htask]

omit [LinearOrder F] [Zero F] [AddCommSemigroup F] in
theorem Task.bucketTs_of_awaiting {l : LinkKey} {b : ℕ} {task : Task F} {acc : Accepted F}
    (h : task.awaiting l b = some acc) : bucketTs acc.sample.ts = b := by
  unfold Task.awaiting at h
  split at h
  · split at h
    · rename_i hlb
      exact Option.some.inj h ▸ hlb.2
    · exact absurd h (by simp)
  · exact absurd h (by simp)

/-- The bucket section of an ingest. -/
private theorem linear_bucket {t : Tsdb F} {c : Conc F} (h : Linear t c)
    {before after : List (Task F)} {task : Task F} {acc : Accepted F}
    (htasks : c.tasks = before ++ task :: after) (hstage : task.stage = .accepted acc)
    (hok : ((c.tsdb.minutesOf task.link).bucketAt (bucketTs acc.sample.ts)).isSome ∨
      ∀ passed ∈ before.filterMap (Task.awaiting task.link (bucketTs acc.sample.ts)),
        passed.Fresh ∧ acc.Fresh) :
    Linear t { c with
      tsdb := c.tsdb.bucketSection task.link acc
      tasks := before ++ { task with stage := .bucketed acc } :: after } := by
  have hrank : ({ task with stage := .bucketed acc } : Task F).stage.rank = 1 := rfl
  have hstored : ({ task with stage := .bucketed acc } : Task F).stored = task.stored := by
    simp only [Task.stored, hstage, Stage.acc?]
  have hver : ∀ l ts, ({ task with stage := .bucketed acc } : Task F).versionOf l ts =
      task.versionOf l ts := fun l ts => by simp only [Task.versionOf, hstored]
  refine linear_advance h htasks (by rw [hstage]; rfl) rfl rfl (fun l b => ?_) ?_ ?_
  · have hold : task.awaiting l b =
        if task.link = l ∧ bucketTs acc.sample.ts = b then some acc else none := by
      unfold Task.awaiting
      rw [hstage]
    rw [awaiting_around before after rfl, Tsdb.bucketAt_bucketSection, htasks,
      List.filterMap_append, List.filterMap_cons, hold, List.foldl_append, List.foldl_append]
    by_cases hl : task.link = l ∧ bucketTs acc.sample.ts = b
    · obtain ⟨rfl, rfl⟩ := hl
      simp only [and_self, if_true, List.foldl_cons]
      refine congrArg (List.foldl Minutes.roll · _) ?_
      -- the roll-up passes those that started earlier
      refine Minutes.roll_foldl_comm _ (fun b hb => key_of_slot (Minutes.ascending _) hb) rfl
        (fun x hx => ?_) hok
      obtain ⟨y, -, hy⟩ := List.mem_filterMap.mp hx
      exact Task.bucketTs_of_awaiting hy
    · simp only [if_neg hl]
  · exact (htasks ▸ h.entries).keep hver hstored (fun hr => absurd hr (by rw [hrank]; omega))
  · exact (htasks ▸ h.rows).keep (fun l ts => by simp only [Task.rowOf, hver]) hstored
      (fun hr => absurd hr (by rw [hrank]; omega))

/-- Taking a number. -/
private theorem linear_number {t : Tsdb F} {c : Conc F} (h : Linear t c)
    {before after : List (Task F)} {task : Task F} {acc : Accepted F}
    (htasks : c.tasks = before ++ task :: after) (hstage : task.stage = .bucketed acc) :
    Linear t { c with
      tsdb := c.tsdb.takeSeq.1
      tasks := before ++ { task with stage := .numbered acc c.tsdb.takeSeq.2 } :: after } := by
  have hstored : ({ task with stage := .numbered acc c.tsdb.takeSeq.2 } : Task F).stored =
      task.stored := by simp only [Task.stored, hstage, Stage.acc?]
  have hver : ∀ l ts, ({ task with stage := .numbered acc c.tsdb.takeSeq.2 } : Task F).versionOf
      l ts = task.versionOf l ts := fun l ts => by simp only [Task.versionOf, hstored]
  have hawait : ∀ l b, task.awaiting l b = none := fun l b => by unfold Task.awaiting; rw [hstage]
  refine linear_advance h htasks (by rw [hstage]; rfl) rfl rfl (fun l b => ?_) ?_ ?_
  · rw [awaiting_around before after rfl, htasks, awaiting_around before after (hawait l b)]
    rfl
  · exact (htasks ▸ h.entries).keep hver hstored
      (fun hr => absurd hr (by show ¬ 3 ≤ 2; omega))
  · exact (htasks ▸ h.rows).keep (fun l ts => by simp only [Task.rowOf, hver]) hstored
      (fun hr => absurd hr (by show ¬ 4 ≤ 2; omega))

omit [LinearOrder F] [Zero F] [AddCommSemigroup F] in
/-- The seconds an accepted ingest made a version of. -/
private theorem versionOf_accepted {task : Task F} {acc : Accepted F}
    (hacc : task.stage.acc? = some acc) (hts : acc.sample.ts = task.sample.ts) (l : LinkKey)
    (ts : ℕ) : task.versionOf l ts = decide (task.link = l ∧ acc.sample.ts = ts) := by
  simp [Task.versionOf, Task.stored, hacc, hts]

/-- The log section. -/
private theorem linear_log {t : Tsdb F} {c : Conc F} (h : Linear t c)
    {before after : List (Task F)} {task : Task F} {acc : Accepted F} {seq : ℕ}
    (htasks : c.tasks = before ++ task :: after) (hstage : task.stage = .numbered acc seq)
    (hok : ∀ newest ∈ lastSuch (Task.versionOf task.link acc.sample.ts) c.tasks,
      newest.stage.rank < 3) :
    Linear t { c with
      tsdb := c.tsdb.logSection seq task.link acc.sample
      tasks := before ++ { task with stage := .logged acc seq } :: after } := by
  have hacc : task.stage.acc? = some acc := by rw [hstage]; rfl
  have hstored : task.stored = some acc.sample := by simp only [Task.stored, hacc, Option.map_some]
  have hts := h.stamped task (htasks ▸ List.mem_append_right _ List.mem_cons_self) _ hstored
  have hver : ∀ l ts, ({ task with stage := .logged acc seq } : Task F).versionOf l ts =
      task.versionOf l ts := fun l ts => by
    simp only [Task.versionOf, hstored]
    rfl
  have hawait : ∀ l b, task.awaiting l b = none := fun l b => by unfold Task.awaiting; rw [hstage]
  refine linear_advance h htasks (by rw [hacc]; rfl) rfl rfl (fun l b => ?_) ?_ ?_
  · rw [awaiting_around before after rfl, htasks, awaiting_around before after (hawait l b)]
    rfl
  · refine (htasks ▸ h.entries).append hver rfl (fun l ts => ?_) (fun l ts hp newest hn => ?_)
    · rw [newestEntry_logSection, versionOf_accepted hacc hts]
      simp only [decide_eq_true_eq]
    · rw [versionOf_accepted hacc hts, decide_eq_true_eq] at hp
      obtain ⟨rfl, rfl⟩ := hp
      exact hok newest (htasks ▸ hn)
  · refine (htasks ▸ h.rows).keep (fun l ts => by simp only [Task.rowOf, hver]) ?_
      (fun hr => absurd hr (by show ¬ 4 ≤ 3; omega))
    rw [hstored]
    rfl

/-- The queue section. -/
private theorem linear_queue {t : Tsdb F} {c : Conc F} (h : Linear t c)
    {before after : List (Task F)} {task : Task F} {acc : Accepted F} {seq : ℕ}
    (htasks : c.tasks = before ++ task :: after) (hstage : task.stage = .logged acc seq)
    (hok : (task.persist && c.tsdb.cfg.path != "") = true →
      ∀ newest ∈ lastSuch (Task.rowOf c.tsdb.cfg task.link acc.sample.ts) c.tasks,
        newest.stage.rank < 4) :
    Linear t { c with
      tsdb := c.tsdb.queueSection task.link acc.sample task.persist
      tasks := before ++ { task with stage := .finished acc seq } :: after } := by
  have hacc : task.stage.acc? = some acc := by rw [hstage]; rfl
  have hstored : task.stored = some acc.sample := by simp only [Task.stored, hacc, Option.map_some]
  have hts := h.stamped task (htasks ▸ List.mem_append_right _ List.mem_cons_self) _ hstored
  have hver : ∀ l ts, ({ task with stage := .finished acc seq } : Task F).versionOf l ts =
      task.versionOf l ts := fun l ts => by
    simp only [Task.versionOf, hstored]
    rfl
  have hrowOf : ∀ l ts, task.rowOf t.cfg l ts =
      decide ((task.link = l ∧ acc.sample.ts = ts) ∧ (task.persist && t.cfg.path != "")) :=
    fun l ts => by
      rw [Task.rowOf, versionOf_accepted hacc hts]
      simp only [Bool.decide_and, Bool.decide_eq_true]
  have hawait : ∀ l b, task.awaiting l b = none := fun l b => by unfold Task.awaiting; rw [hstage]
  have hq := c.tsdb.queueSection_eq task.link acc.sample task.persist
  refine linear_advance h htasks (by rw [hacc]; rfl) (by rw [hq]) (by rw [hq]) (fun l b => ?_) ?_ ?_
  · -- a logged ingest has been rolled up, so the bucket waits for the same ones as before
    rw [awaiting_around before after rfl, htasks, awaiting_around before after (hawait l b), hq]
    rfl
  · have hkept : (c.tsdb.queueSection task.link acc.sample task.persist).newestEntry =
        c.tsdb.newestEntry := by rw [hq]; rfl
    rw [hkept]
    exact (htasks ▸ h.entries).keep hver (by rw [hstored]; rfl) (fun _ => by rw [hstage]; exact le_refl 3)
  · -- the queued row is newer than those queued before it, by `hok`
    refine (htasks ▸ h.rows).append (fun l ts => by simp only [Task.rowOf, hver]) rfl
      (fun l ts => ?_) (fun l ts hp newest hn => ?_)
    · rw [hq, hrowOf]
      show lastRowOf l ts (c.tsdb.pending ++ _) = _
      rw [lastRowOf_queue, h.cfg]
      simp only [decide_eq_true_eq]
    · rw [hrowOf, decide_eq_true_eq] at hp
      obtain ⟨⟨rfl, rfl⟩, hpersist⟩ := hp
      rw [h.cfg] at hok
      exact hok hpersist newest (htasks ▸ hn)

/-- **Step lemma.** A section in order keeps the state in line with the sequential run. -/
theorem linear_step {t : Tsdb F} {c c' : Conc F} {a : Section F} (h : Linear t c)
    (hok : SectionsInOrder c a) (hs : c.step a = some c') : Linear t c' := by
  cases a with
  | start link s persist =>
    obtain rfl := Option.some.inj hs
    have hres : (c.tsdb.ringSection link s).2 = ((c.tsdb.ringOf link).offer s).2 := rfl
    rw [hres]
    cases hacc : ((c.tsdb.ringOf link).offer s).2 with
    | none => exact linear_refused h hacc
    | some acc => exact linear_accepted h hacc
  | advance i =>
    obtain ⟨before, task, after, t', stage, htasks, hlen, hadv, rfl⟩ := Conc.step_advance_cases hs
    have htask : task ∈ c.tasks[i]? := by
      rw [htasks, ← hlen, List.getElem?_append_right (le_refl _), Nat.sub_self]
      rfl
    have hbefore : c.tasks.take i = before := by rw [htasks, ← hlen, List.take_left]
    have hnext : NextInOrder c i task := hok task htask
    unfold NextInOrder at hnext
    unfold Conc.advanceTask at hadv
    cases hstage : task.stage with
    | refused => rw [hstage] at hadv; exact absurd hadv (by simp)
    | finished acc seq => rw [hstage] at hadv; exact absurd hadv (by simp)
    | accepted acc =>
      rw [hstage] at hadv hnext
      obtain ⟨rfl, rfl⟩ := Prod.mk.inj (Option.some.inj hadv)
      exact linear_bucket h htasks hstage (hbefore ▸ hnext)
    | bucketed acc =>
      rw [hstage] at hadv
      obtain ⟨rfl, rfl⟩ := Prod.mk.inj (Option.some.inj hadv)
      exact linear_number h htasks hstage
    | numbered acc seq =>
      rw [hstage] at hadv hnext
      obtain ⟨rfl, rfl⟩ := Prod.mk.inj (Option.some.inj hadv)
      exact linear_log h htasks hstage hnext
    | logged acc seq =>
      rw [hstage] at hadv hnext
      obtain ⟨rfl, rfl⟩ := Prod.mk.inj (Option.some.inj hadv)
      exact linear_queue h htasks hstage hnext
  | take peer | ack peer | note peer | fail peer =>
    -- a push touches the watermarks and its own state only
    simp only [Conc.step] at hs
    split at hs
    · obtain rfl := Option.some.inj hs
      exact ⟨h.cfg, h.stamped, h.rings, h.minutes, h.seqEntry, h.seqRow, h.entries, h.rows⟩
    · exact absurd hs (by simp)
  | pruneRings now | pruneBuckets now | pruneLog now => exact hok.elim

theorem linear_atRest (t : Tsdb F) : Linear t (Conc.atRest t) :=
  ⟨rfl, fun _ h => absurd h List.not_mem_nil, fun _ => rfl, fun _ _ => rfl,
    fun _ _ => (Option.none_or).symm, fun _ _ => (Option.none_or).symm,
    fun _ _ _ => (Option.none_or).symm, fun _ _ _ => (Option.none_or).symm⟩

/-! ### The final version of a second -/

omit [Zero F] [AddCommSemigroup F] in
/-- What the ring holds for a second is the newest version an ingest made of it, if one did. -/
def HoldsNewest (c : Conc F) : Prop :=
  ∀ l ts newest, lastSuch (Task.versionOf l ts) c.tasks = some newest →
    ∀ held, (c.tsdb.ringOf l).sampleAt ts = some held → newest.stored = some held

omit [Zero F] [AddCommSemigroup F] in
/-- A new ingest makes the newest version of its second, and touches no other. -/
private theorem holdsNewest_start {c : Conc F} (h : HoldsNewest c) (link : LinkKey)
    (s : RawSample F) (persist : Bool) :
    HoldsNewest { c with
      tsdb := (c.tsdb.ringSection link s).1
      tasks := c.tasks ++
        [⟨link, s, persist, Conc.startStage (c.tsdb.ringSection link s).2⟩] } := by
  have hspec := c.tsdb.ringOf_offer_spec link s
  intro l ts newest hnewest held hheld
  have hnewest : lastSuch (Task.versionOf l ts) (c.tasks ++ [_]) = some newest := hnewest
  rw [lastSuch_concat] at hnewest
  have hheld : ((c.tsdb.ringSection link s).1.ringOf l).sampleAt ts = some held := hheld
  rw [Tsdb.ringOf_ringSection] at hheld
  have hres : (c.tsdb.ringSection link s).2 = ((c.tsdb.ringOf link).offer s).2 := rfl
  rw [hres] at hnewest
  cases hacc : ((c.tsdb.ringOf link).offer s).2 with
  | none =>
    -- refused: the ring is as it was, and the ingest is nobody's newest version
    rw [hacc] at hspec hnewest
    rw [hspec.eq_of_none] at hheld
    have hver : (⟨link, s, persist, Conc.startStage none⟩ : Task F).versionOf l ts = false := by
      simp [Task.versionOf, Task.stored, Conc.startStage, Stage.acc?]
    rw [hver, if_neg (by simp)] at hnewest
    refine h l ts newest hnewest held ?_
    split at hheld
    · rename_i hl
      exact hl ▸ hheld
    · exact hheld
  | some acc =>
    -- accepted: the newest version of its own second
    rw [hacc] at hspec hnewest
    have hat := hspec.accepted.2.2
    let task : Task F := ⟨link, s, persist, Conc.startStage (some acc)⟩
    have hstage : task.stage.acc? = some acc := rfl
    have hver := versionOf_accepted hstage hspec.stamped l ts
    rw [hver] at hnewest
    by_cases hl : link = l ∧ acc.sample.ts = ts
    · rw [if_pos (decide_eq_true hl)] at hnewest
      obtain rfl := Option.some.inj hnewest
      obtain ⟨rfl, rfl⟩ := hl
      rw [if_pos rfl, hspec.stamped, hat] at hheld
      exact hheld
    · rw [if_neg (by simpa using hl)] at hnewest
      refine h l ts newest hnewest held ?_
      split at hheld
      · rename_i hlink
        subst hlink
        exact hspec.sampleAt_of_ne (fun hts => hl ⟨rfl, hspec.stamped.trans hts.symm⟩) hheld
      · exact hheld

/-- **Step lemma.** -/
theorem holdsNewest_step {c c' : Conc F} {a : Section F} (h : HoldsNewest c)
    (hok : SectionsInOrder c a) (hs : c.step a = some c') : HoldsNewest c' := by
  cases a with
  | start link s persist =>
    obtain rfl := Option.some.inj hs
    exact holdsNewest_start h link s persist
  | advance i =>
    obtain ⟨before, task, after, t', stage, htasks, -, hadv, rfl⟩ := Conc.step_advance_cases hs
    -- a section after the first leaves the rings alone, and the version of its ingest
    have hkeep : t'.byLink = c.tsdb.byLink ∧ stage.acc? = task.stage.acc? := by
      unfold Conc.advanceTask at hadv
      cases hstage : task.stage with
      | refused | finished _ _ => rw [hstage] at hadv; exact absurd hadv (by simp)
      | accepted _ | bucketed _ | numbered _ _ =>
        rw [hstage] at hadv
        obtain ⟨rfl, rfl⟩ := Prod.mk.inj (Option.some.inj hadv)
        exact ⟨rfl, rfl⟩
      | logged _ _ =>
        rw [hstage] at hadv
        obtain ⟨rfl, rfl⟩ := Prod.mk.inj (Option.some.inj hadv)
        rw [Tsdb.queueSection_eq]
        exact ⟨rfl, rfl⟩
    have hstored : ({ task with stage } : Task F).stored = task.stored := by
      simp only [Task.stored, hkeep.2]
    intro l ts newest hnewest held hheld
    have hheld : (c.tsdb.ringOf l).sampleAt ts = some held := by
      rw [Tsdb.ringOf, ← hkeep.1]
      exact hheld
    have hsame := stored_replace (p := Task.versionOf l ts) before after
      (show ({ task with stage } : Task F).versionOf l ts = task.versionOf l ts by
        simp only [Task.versionOf, hstored]) hstored
    rw [hnewest, ← htasks, Option.bind_some] at hsame
    cases hold : lastSuch (Task.versionOf l ts) c.tasks with
    | none =>
      rw [hold] at hsame
      have hv := (mem_of_lastSuch hnewest).2
      rw [Task.versionOf, hsame] at hv
      exact absurd hv (by simp)
    | some newest' =>
      rw [hold, Option.bind_some] at hsame
      rw [hsame]
      exact h l ts newest' hold held hheld
  | take peer | ack peer | note peer | fail peer =>
    simp only [Conc.step] at hs
    split at hs
    · obtain rfl := Option.some.inj hs
      exact h
    · exact absurd hs (by simp)
  | pruneRings now | pruneBuckets now | pruneLog now => exact hok.elim

/-! ### Runs -/

omit [LinearOrder F] [Zero F] [AddCommSemigroup F] in
/-- The seconds of a minute of a link that were ingested. -/
def secondsOf (l : LinkKey) (b : ℕ) (tasks : List (Task F)) : Finset ℕ :=
  ((tasks.filter (fun task => task.link = l ∧ bucketTs task.sample.ts = b)).map
    (fun task => task.sample.ts)).toFinset

omit [AddCommSemigroup F] in
/-- Run one after another, ingests count a dimension of a second at most once. -/
private theorem counted_sequential [Add F] (t : Tsdb F) (tasks : List (Task F)) (l : LinkKey)
    (b : ℕ) (d : Dim) :
    (tasks.foldl (fun t task => (t.ingest task.link task.sample task.persist).1) t).countAt l b d ≤
      t.countAt l b d + (secondsOf l b tasks).card := by
  suffices hcount : Tsdb.Counted t (tasks.foldl
      (fun t task => (t.ingest task.link task.sample task.persist).1) t) l b d
      (secondsOf l b tasks) by
    obtain ⟨S, hS, hle, -⟩ := hcount
    exact hle.trans (Nat.add_le_add_left (Finset.card_le_card hS) _)
  induction tasks using List.reverseRecOn with
  | nil => exact Tsdb.Counted.refl t l b d
  | append_singleton tasks task ih =>
    have hsec : secondsOf l b (tasks ++ [task]) =
        if task.link = l ∧ bucketTs task.sample.ts = b then
          insert task.sample.ts (secondsOf l b tasks) else secondsOf l b tasks := by
      unfold secondsOf
      rw [List.filter_append]
      by_cases hlb : task.link = l ∧ bucketTs task.sample.ts = b
      · ext x
        simp [hlb]
      · simp [hlb]
    rw [List.foldl_append, hsec]
    exact ih.ingest task.link task.sample task.persist

/-- A bucket that counted a dimension more often is the result of no order of the ingests. -/
private theorem not_sameState_of_count {t : Tsdb F} {c : Conc F} (l : LinkKey) (b : ℕ) (d : Dim)
    (hmore : t.countAt l b d + (secondsOf l b c.tasks).card < c.tsdb.countAt l b d) :
    ¬ ∃ order : List (Task F), order.Perm c.tasks ∧ c.tsdb.SameState (sequential t order) := by
  rintro ⟨order, hperm, hsame⟩
  have hcount := counted_sequential t order l b d
  have hsec : secondsOf l b order = secondsOf l b c.tasks :=
    List.toFinset_eq_of_perm _ _ ((hperm.filter _).map _)
  have hsame : c.tsdb.countAt l b d = (sequential t order).countAt l b d := by
    rw [Tsdb.countAt, Tsdb.countAt, hsame.minutes]
  rw [hsec] at hcount
  unfold sequential at hsame
  omega

/-- The ingests linearise: the store is as after running them one after another in some
    order; a bucket counted a dimension at most once for each second; and of every second of
    which a version was made and which the ring still holds, the newest entry and, if the
    version is persisted, the last row are what the ring holds. -/
structure Conc.Linearised (t : Tsdb F) (c : Conc F) : Prop where
  ordered : ∃ order : List (Task F), order.Perm c.tasks ∧ c.tsdb.SameState (sequential t order)
  counted_once : ∀ l b d, c.tsdb.countAt l b d ≤ t.countAt l b d + (secondsOf l b c.tasks).card
  final_version : ∀ l ts newest held, lastSuch (Task.versionOf l ts) c.tasks = some newest →
    (c.tsdb.ringOf l).sampleAt ts = some held → c.tsdb.newestEntry l ts = some held ∧
      (newest.rowOf t.cfg l ts → c.tsdb.lastRow l ts = some held)

omit [LinearOrder F] [Zero F] [AddCommSemigroup F] in
/-- The newest version is the newest to be queued, if it is queued. -/
private theorem lastSuch_rowOf {cfg : TsConfig} {l : LinkKey} {ts : ℕ} {tasks : List (Task F)}
    {newest : Task F} (h : lastSuch (Task.versionOf l ts) tasks = some newest)
    (hrow : newest.rowOf cfg l ts) : lastSuch (Task.rowOf cfg l ts) tasks = some newest := by
  induction tasks using List.reverseRecOn with
  | nil => exact absurd h (by simp)
  | append_singleton tasks task ih =>
    rw [lastSuch_concat] at h ⊢
    by_cases hv : task.versionOf l ts
    · rw [if_pos hv] at h
      obtain rfl := Option.some.inj h
      rw [if_pos hrow]
    · rw [if_neg hv] at h
      have hr : ¬ task.rowOf cfg l ts := fun hr => hv (by
        rw [Task.rowOf, Bool.and_eq_true] at hr
        exact hr.1)
      rw [if_neg hr]
      exact ih h

/-- **Concurrent ingests linearise**, in the order of their ring sections, in every run whose
    sections are in order. -/
theorem ingests_linearise {t : Tsdb F} {c : Conc F}
    (h : Runs Conc.step SectionsInOrder (Conc.atRest t) c)
    (hdone : ∀ task ∈ c.tasks, task.stage.isDone) : c.Linearised t := by
  have hinv : Linear t c ∧ HoldsNewest c :=
    h.invariant (I := fun c => Linear t c ∧ HoldsNewest c)
      ⟨linear_atRest t, fun _ _ _ hn => absurd hn (by simp [Conc.atRest])⟩
      (fun c a c' hI hok hs => ⟨linear_step hI.1 hok hs, holdsNewest_step hI.2 hok hs⟩)
  obtain ⟨hL, hN⟩ := hinv
  -- at rest every ingest has gone through all its sections
  have hrank : ∀ task ∈ c.tasks, task.stage.rank = 4 := fun task htask => by
    simpa [Stage.isDone] using hdone task htask
  have hentry : ∀ l ts, c.tsdb.newestEntry l ts =
      ((lastSuch (Task.versionOf l ts) c.tasks).bind Task.stored).or (t.newestEntry l ts) :=
    fun l ts => hL.entries l ts (fun newest hn => by
      rw [hrank newest (mem_of_lastSuch hn).1]; omega)
  have hrow : ∀ l ts, c.tsdb.lastRow l ts =
      ((lastSuch (Task.rowOf t.cfg l ts) c.tasks).bind Task.stored).or (t.lastRow l ts) :=
    fun l ts => hL.rows l ts (fun newest hn => by rw [hrank newest (mem_of_lastSuch hn).1])
  have hminutes : ∀ l, c.tsdb.minutesOf l = (sequential t c.tasks).minutesOf l := by
    refine fun l => Minutes.ext_bucketAt (fun b => ?_)
    have hnone : c.tasks.filterMap (Task.awaiting l b) = [] :=
      List.filterMap_eq_nil_iff.mpr (fun task htask => by
        have hr := hrank task htask
        unfold Task.awaiting
        split
        · rename_i hstage
          rw [hstage] at hr
          exact absurd hr (by show ¬ 0 = 4; omega)
        · rfl)
    rw [← hL.minutes, hnone]
    rfl
  refine ⟨⟨c.tasks, List.Perm.refl _, hL.rings, hminutes, fun l ts => ?_, fun l ts => ?_⟩,
    fun l b d => ?_, fun l ts newest held hn hheld => ?_⟩
  · rw [hentry, hL.seqEntry]
  · rw [hrow, hL.seqRow]
  · have hcount := counted_sequential t c.tasks l b d
    unfold Tsdb.countAt at hcount ⊢
    rw [hminutes]
    exact hcount
  · have hstored := hN l ts newest hn held hheld
    refine ⟨?_, fun hr => ?_⟩
    · rw [hentry, hn, Option.bind_some, hstored]
      rfl
    · rw [hrow, lastSuch_rowOf hn hr, Option.bind_some, hstored]
      rfl

end Order

/-! ### A roll-up that overtakes -/

/-- Two probe reports of one second of a link. -/
private def sameSecond : List (Section ℕ) :=
  [.start ⟨"hub-a", "hub-b", "awg0"⟩ (RawSample.fromDims .quiet 60 (some 5) none none none 0) true,
    .start ⟨"hub-a", "hub-b", "awg0"⟩ (RawSample.fromDims .quiet 60 (some 6) none none none 0) true]

/-- The run in which both go through their sections in the order they started. -/
theorem ingests_linearise_reports : ∃ c : Conc ℕ, c.tasks.length = 2 ∧
    c.Linearised (Tsdb.new ⟨"", 7200, 86400⟩) := by
  have hrun : exec Conc.step SectionsInOrder (Conc.atRest (Tsdb.new ⟨"", 7200, 86400⟩))
      (sameSecond ++ [.advance 0, .advance 1, .advance 0, .advance 1, .advance 0, .advance 1,
        .advance 0, .advance 1]) = some _ := rfl
  refine ⟨_, rfl, ingests_linearise (Runs.of_exec _ hrun) ?_⟩
  decide

/-- **A roll-up that overtakes.** The second report merges onto the first and is rolled in
    before it: the first is then added to the bucket as a new sample, and the round-trip time
    of the second counts twice.  No order of the two ingests does that. -/
theorem roll_up_overtaken : ∃ c : Conc ℕ,
    Runs Conc.step Always (Conc.atRest (Tsdb.new ⟨"", 7200, 86400⟩)) c ∧
      (∀ task ∈ c.tasks, task.stage.isDone) ∧
      ¬ ∃ order : List (Task ℕ), order.Perm c.tasks ∧
        c.tsdb.SameState (sequential (Tsdb.new ⟨"", 7200, 86400⟩) order) := by
  have hrun : exec Conc.step Always (Conc.atRest (Tsdb.new ⟨"", 7200, 86400⟩))
      (sameSecond ++ [.advance 1, .advance 0, .advance 0, .advance 1, .advance 0, .advance 1,
        .advance 0, .advance 1]) = some _ := rfl
  exact ⟨_, Runs.of_exec _ hrun, by decide,
    not_sameState_of_count ⟨"hub-a", "hub-b", "awg0"⟩ 60 .rtt (by decide)⟩

end Mielofon
