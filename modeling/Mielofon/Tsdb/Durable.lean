import Mathlib
import Mielofon.Lib.Runs
import Mielofon.Lib.WriteBack
import Mielofon.Tsdb.Restore

namespace Mielofon

open Lib

/-!
# Flushes that fail

`flush` takes the queued rows under one lock and the dirty buckets under another, then writes
both in one transaction; ingests come in between.  A flush that cannot begin its transaction
queues the rows again, behind the newer ones, and forgets the buckets.  A transaction that fails
later forgets both.

* `Flushing`, `Flushing.step` — a store with its flush at one of its locks;
* `Flushing.row`, `Flushing.minute` — where the versions of a second and of a minute are;
* `Flushing.Durable` — the newest version of every one is in the database or waiting for it;
* `Harmless`, `durable_settle_iff` — the end of a flush keeps this exactly if what the flush
  held is covered and not superseded;
* `started_reopen` — what the store of a start holds of its database;
* `durable_of_sound` — runs whose failures are harmless;
* `failed_flush_loses` — the failures that are not.
-/

variable {F : Type*}

/-- How far the flush under way has got. -/
inductive FlushTask (F : Type*) where
  | idle
  | rows (raw : List (LinkKey × RawSample F))
  | drained (raw : List (LinkKey × RawSample F)) (buckets : Map (LinkKey × ℕ) (Bucket F))

namespace FlushTask

/-- The rows the flush holds. -/
def raw : FlushTask F → List (LinkKey × RawSample F)
  | .idle => []
  | .rows raw => raw
  | .drained raw _ => raw

/-- The buckets the flush holds. -/
def buckets : FlushTask F → Map (LinkKey × ℕ) (Bucket F)
  | .idle => ∅
  | .rows _ => ∅
  | .drained _ buckets => buckets

end FlushTask

/-- A store with its flush.  The cuts are the latest that a committed flush has pruned by. -/
structure Flushing (F : Type*) where
  tsdb : Tsdb F
  task : FlushTask F
  rawCut : ℕ
  aggCut : ℕ

/-- An ingest of a sample to be persisted, or the next part of the flush.  One flush holds the
    database lock at a time. -/
inductive FlushStep (F : Type*) where
  | ingest (link : LinkKey) (s : RawSample F)
  | drainRows
  | drainBuckets
  | settle (now : ℕ) (last : FlushEnd)

namespace Flushing

/-- The cut after a flush. -/
def cutAfter (cut newer : ℕ) : FlushEnd → ℕ
  | .committed => max cut newer
  | .beginFailed | .txFailed => cut

variable [LinearOrder F] [Zero F] [Add F]

def step (s : Flushing F) : FlushStep F → Option (Flushing F)
  | .ingest link x => some { s with tsdb := s.tsdb.append link x }
  | .drainRows =>
    match s.task with
    | .idle =>
      if s.tsdb.db.isSome then
        some { s with tsdb := { s.tsdb with pending := [] }, task := .rows s.tsdb.pending }
      else none
    | .rows _ | .drained _ _ => none
  | .drainBuckets =>
    match s.task with
    | .rows raw =>
      some { s with tsdb := { s.tsdb with dirty := ∅ }, task := .drained raw s.tsdb.dirty }
    | .idle | .drained _ _ => none
  | .settle now last =>
    match s.task with
    | .drained raw buckets =>
      some ⟨s.tsdb.settle raw buckets.pairs now last, .idle,
        cutAfter s.rawCut (s.tsdb.rawCut now) last, cutAfter s.aggCut (s.tsdb.aggCut now) last⟩
    | .idle | .rows _ => none

/-- What a step does. -/
inductive Next (s : Flushing F) : FlushStep F → Flushing F → Prop
  | ingest (link : LinkKey) (x : RawSample F) :
    Next s (.ingest link x) { s with tsdb := s.tsdb.append link x }
  | drainRows (hidle : s.task = .idle) (hdb : s.tsdb.db.isSome) :
    Next s .drainRows
      { s with tsdb := { s.tsdb with pending := [] }, task := .rows s.tsdb.pending }
  | drainBuckets (raw : List (LinkKey × RawSample F)) (hrows : s.task = .rows raw) :
    Next s .drainBuckets
      { s with tsdb := { s.tsdb with dirty := ∅ }, task := .drained raw s.tsdb.dirty }
  | settle (now : ℕ) (last : FlushEnd) (raw : List (LinkKey × RawSample F))
    (buckets : Map (LinkKey × ℕ) (Bucket F)) (hdrained : s.task = .drained raw buckets) :
    Next s (.settle now last)
      ⟨s.tsdb.settle raw buckets.pairs now last, .idle,
        cutAfter s.rawCut (s.tsdb.rawCut now) last, cutAfter s.aggCut (s.tsdb.aggCut now) last⟩

theorem next_of_step {s s' : Flushing F} {a : FlushStep F} (hs : s.step a = some s') :
    Next s a s' := by
  cases a with
  | ingest link x =>
    obtain rfl := Option.some.inj hs
    exact .ingest link x
  | drainRows =>
    simp only [step] at hs
    split at hs
    · rename_i hidle
      rw [Option.ite_none_right_eq_some] at hs
      obtain ⟨hdb, heq⟩ := hs
      obtain rfl := Option.some.inj heq
      exact .drainRows hidle hdb
    · exact absurd hs (by simp)
    · exact absurd hs (by simp)
  | drainBuckets =>
    simp only [step] at hs
    split at hs
    · rename_i raw hrows
      obtain rfl := Option.some.inj hs
      exact .drainBuckets raw hrows
    · exact absurd hs (by simp)
    · exact absurd hs (by simp)
  | settle now last =>
    simp only [step] at hs
    split at hs
    · rename_i raw buckets hdrained
      obtain rfl := Option.some.inj hs
      exact .settle now last raw buckets hdrained
    · exact absurd hs (by simp)
    · exact absurd hs (by simp)

/-- A start with a database. -/
def start (cfg : TsConfig) (db : Db F) (now : ℕ) : Flushing F := ⟨Tsdb.reopen cfg db now, .idle, 0, 0⟩

/-- The parts of a flush with nothing in between. -/
theorem exec_flush (s : Flushing F) (hidle : s.task = .idle) (hdb : s.tsdb.db.isSome) (now : ℕ)
    (last : FlushEnd) : (exec step Always s [.drainRows, .drainBuckets, .settle now last]).map tsdb =
      some (s.tsdb.flush now last) := by
  obtain ⟨t, task, rawCut, aggCut⟩ := s
  obtain rfl : task = .idle := hidle
  simp only [exec, if_true, Always, step]
  rw [if_pos hdb, Tsdb.flush, if_pos hdb]
  cases last <;> rfl

/-! ### The versions of a second and of a minute -/

omit [LinearOrder F] [Zero F] [Add F]

/-- Where the versions of a second are. -/
def row (s : Flushing F) (l : LinkKey) (ts : ℕ) : Copies (RawSample F) :=
  ⟨s.tsdb.lastRow l ts, lastRowOf l ts s.task.raw, s.tsdb.db.bind (·.raw.get (l.id, ts))⟩

/-- Where the versions of a bucket are. -/
def minute (s : Flushing F) (l : LinkKey) (start : ℕ) : Copies (Bucket F) :=
  ⟨s.tsdb.dirty.get (l, start), s.task.buckets.get (l, start),
    s.tsdb.db.bind (·.agg.get (l.id, start))⟩

/-- Of every second and every minute within retention, the newest version is the one found on the
    way to the database. -/
structure Durable (s : Flushing F) : Prop where
  rows : ∀ l ts x, s.rawCut ≤ ts → s.tsdb.newestEntry l ts = some x → (s.row l ts).newest = some x
  minutes : ∀ l start b, s.aggCut ≤ start → (s.tsdb.minutesOf l).bucketAt start = some b →
    (s.minute l start).newest = some b

/-- What a failure makes of the rows and buckets that the flush holds leaves the newest versions
    alone. -/
def Harmless (s : Flushing F) : FlushEnd → Prop
  | .beginFailed =>
    (∀ p ∈ s.task.raw, s.rawCut ≤ p.2.ts → (s.row p.1 p.2.ts).Unsuperseded) ∧
      ∀ e ∈ s.task.buckets.pairs, s.aggCut ≤ e.1.2 → (s.minute e.1.1 e.1.2).Covered
  | .txFailed =>
    (∀ p ∈ s.task.raw, s.rawCut ≤ p.2.ts → (s.row p.1 p.2.ts).Covered) ∧
      ∀ e ∈ s.task.buckets.pairs, s.aggCut ≤ e.1.2 → (s.minute e.1.1 e.1.2).Covered
  | .committed => True

end Flushing

/-- The links the store has a ring or buckets of. -/
def Tsdb.heldLinks (t : Tsdb F) : List LinkKey := t.byLink.keys ++ t.buckets.keys

namespace Flushing

/-- The condition on a step: no two links share an id, and a failure is harmless. -/
def Sound (s : Flushing F) : FlushStep F → Prop
  | .ingest link _ => ∀ l ∈ s.tsdb.heldLinks, l.id = link.id → l = link
  | .settle _ last => s.Harmless last
  | .drainRows | .drainBuckets => True

instance [DecidableEq F] (s : Flushing F) (last : FlushEnd) : Decidable (s.Harmless last) :=
  match last with
  | .beginFailed => inferInstanceAs (Decidable (_ ∧ _))
  | .txFailed => inferInstanceAs (Decidable (_ ∧ _))
  | .committed => .isTrue trivial

instance [DecidableEq F] (s : Flushing F) (a : FlushStep F) : Decidable (s.Sound a) :=
  match a with
  | .ingest link _ => inferInstanceAs (Decidable (∀ l ∈ s.tsdb.heldLinks, l.id = link.id → l = link))
  | .settle _ last => inferInstanceAs (Decidable (s.Harmless last))
  | .drainRows | .drainBuckets => .isTrue trivial

end Flushing

namespace Tsdb

/-! ### An accepted sample -/

theorem mem_heldLinks {t : Tsdb F} {l : LinkKey} : l ∈ t.heldLinks ↔ l ∈ t.byLink ∨ l ∈ t.buckets :=
  List.mem_append

/-- An entry of the log is one of a second. -/
theorem newestEntry_eq_some {t : Tsdb F} {l : LinkKey} {ts : ℕ} {x : RawSample F}
    (h : t.newestEntry l ts = some x) : x.ts = ts ∧ ∃ seq, (seq, l, x) ∈ t.recent := by
  unfold newestEntry lastRowOf at h
  rw [Option.map_eq_some_iff] at h
  obtain ⟨⟨l', x'⟩, hlast, rfl⟩ := h
  obtain ⟨hmem, hkey⟩ := mem_of_lastSuch hlast
  obtain ⟨rfl, rfl⟩ := of_decide_eq_true hkey
  obtain ⟨⟨seq, p⟩, he, rfl⟩ := List.mem_map.mp hmem
  exact ⟨rfl, seq, he⟩

theorem heldLink_of_bucketAt {t : Tsdb F} {l : LinkKey} {start : ℕ} {b : Bucket F}
    (h : (t.minutesOf l).bucketAt start = some b) : l ∈ t.heldLinks := by
  rw [mem_heldLinks]
  right
  by_contra hnot
  rw [minutesOf, Map.get_eq_none_iff.mpr hnot] at h
  exact absurd (show none = some b from h) (by simp)

/-- What an accepted sample changes of the log, the buckets and the queues: its second and its
    minute have a new version, which is queued. -/
structure Accepts (t t' : Tsdb F) (link : LinkKey) (x : RawSample F) (b : Bucket F) : Prop where
  recent : t'.recent = t.recent ++ [(t.seq, link, x)]
  pending : t'.pending = t.pending ++ [(link, x)]
  bucket : ∀ l start, (t'.minutesOf l).bucketAt start =
    if link = l ∧ bucketTs x.ts = start then some b else (t.minutesOf l).bucketAt start
  dirty : ∀ l start, t'.dirty.get (l, start) =
    if link = l ∧ bucketTs x.ts = start then some b else t.dirty.get (l, start)

namespace Accepts

variable {t t' : Tsdb F} {link : LinkKey} {x : RawSample F} {b : Bucket F}

theorem newestEntry (h : Accepts t t' link x b) (l : LinkKey) (ts : ℕ) :
    t'.newestEntry l ts = if link = l ∧ x.ts = ts then some x else t.newestEntry l ts := by
  unfold Tsdb.newestEntry
  rw [h.recent, List.map_append]
  exact lastRowOf_concat l link ts x _

theorem lastRow (h : Accepts t t' link x b) (l : LinkKey) (ts : ℕ) :
    t'.lastRow l ts = if link = l ∧ x.ts = ts then some x else t.lastRow l ts := by
  unfold Tsdb.lastRow
  rw [h.pending]
  exact lastRowOf_concat l link ts x _

end Accepts

variable [LinearOrder F] [Zero F] [Add F]

/-- The links after an ingest. -/
theorem mem_heldLinks_ingest {t : Tsdb F} {link l : LinkKey} {s : RawSample F} {persist : Bool} :
    l ∈ (t.ingest link s persist).1.heldLinks ↔ l = link ∨ l ∈ t.heldLinks := by
  rw [mem_heldLinks, mem_heldLinks]
  cases h : ((t.ringOf link).offer s).2 with
  | none =>
    rw [ingest_of_refused persist h]
    simp only [Map.mem_set, or_assoc]
  | some acc =>
    rw [ingest_of_accepted persist h]
    simp only [Map.mem_set]
    tauto

/-- **Step lemma of an append.** Its sample is accepted in some version, or nothing changes but
    the rings. -/
theorem append_cases (t : Tsdb F) (hpath : t.cfg.path ≠ "") (link : LinkKey) (s : RawSample F) :
    (∃ x b, Accepts t (t.append link s) link x b) ∨
      ∃ rings, t.append link s = { t with byLink := rings } := by
  unfold append
  cases h : ((t.ringOf link).offer s).2 with
  | none =>
    rw [ingest_of_refused true h]
    exact Or.inr ⟨_, rfl⟩
  | some acc =>
    left
    have hrow : t.rowsFor link acc.sample true = [(link, acc.sample)] := by
      rw [rowsFor, if_pos (by simpa using hpath)]
    rw [ingest_of_accepted true h]
    refine ⟨acc.sample, Minutes.rolled ((t.minutesOf link).bucketAt (bucketTs acc.sample.ts)) acc,
      rfl, congrArg (t.pending ++ ·) hrow, fun l start => ?_, fun l start => ?_⟩
    · refine (bucketAt_bucketSection t link l acc start).trans ?_
      split
      · rename_i heq
        obtain ⟨rfl, rfl⟩ := heq
        rfl
      · rfl
    · dsimp only
      rw [Map.get_set]
      by_cases heq : link = l ∧ bucketTs acc.sample.ts = start
      · obtain ⟨rfl, rfl⟩ := heq
        rw [if_pos rfl, if_pos ⟨rfl, rfl⟩]
      · rw [if_neg heq, if_neg]
        rintro hkey
        exact heq ⟨(congrArg Prod.fst hkey).symm, (congrArg Prod.snd hkey).symm⟩

end Tsdb

/-! ### The invariant -/

namespace Flushing

/-- What is queued or held by the flush is a version of a second or a minute of the store, and no
    two of its links share an id. -/
structure Inv (s : Flushing F) : Prop where
  path : s.tsdb.cfg.path ≠ ""
  db : s.tsdb.db.isSome
  ids : ∀ l ∈ s.tsdb.heldLinks, ∀ l' ∈ s.tsdb.heldLinks, l.id = l'.id → l = l'
  entries : ∀ e ∈ s.tsdb.recent, e.2.1 ∈ s.tsdb.heldLinks
  rows : ∀ p ∈ s.tsdb.pending ++ s.task.raw, (s.tsdb.newestEntry p.1 p.2.ts).isSome
  buckets : ∀ k, k ∈ s.tsdb.dirty ∨ k ∈ s.task.buckets →
    ((s.tsdb.minutesOf k.1).bucketAt k.2).isSome

namespace Inv

variable {s : Flushing F}

/-- The rows the flush holds are those of the links with their ids. -/
theorem raw_id (h : s.Inv) {l : LinkKey} (hl : l ∈ s.tsdb.heldLinks) :
    ∀ p ∈ s.task.raw, p.1.id = l.id → p.1 = l := by
  intro p hp
  obtain ⟨x, hx⟩ := Option.isSome_iff_exists.mp (h.rows p (List.mem_append_right _ hp))
  obtain ⟨-, seq, he⟩ := Tsdb.newestEntry_eq_some hx
  exact h.ids p.1 (h.entries _ he) l hl

theorem buckets_id (h : s.Inv) {l : LinkKey} (hl : l ∈ s.tsdb.heldLinks) :
    ∀ k ∈ s.task.buckets, k.1.id = l.id → k.1 = l := by
  intro k hk
  obtain ⟨b, hb⟩ := Option.isSome_iff_exists.mp (h.buckets k (Or.inr hk))
  exact h.ids k.1 (Tsdb.heldLink_of_bucketAt hb) l hl

/-- The parts of a flush move the rows and the buckets, and change neither the log nor the
    buckets of the store. -/
theorem of_moved {s' : Flushing F} (h : s.Inv) (hcfg : s'.tsdb.cfg = s.tsdb.cfg)
    (hdb : s'.tsdb.db.isSome) (hrings : s'.tsdb.byLink = s.tsdb.byLink) (hbuckets : s'.tsdb.buckets = s.tsdb.buckets)
    (hlog : s'.tsdb.recent = s.tsdb.recent)
    (hrows : ∀ p ∈ s'.tsdb.pending ++ s'.task.raw, p ∈ s.tsdb.pending ++ s.task.raw)
    (hdirty : ∀ k, k ∈ s'.tsdb.dirty ∨ k ∈ s'.task.buckets →
      k ∈ s.tsdb.dirty ∨ k ∈ s.task.buckets) : s'.Inv := by
  have hlinks : s'.tsdb.heldLinks = s.tsdb.heldLinks := by
    rw [Tsdb.heldLinks, hrings, hbuckets, Tsdb.heldLinks]
  refine ⟨hcfg ▸ h.path, hdb, hlinks ▸ h.ids, ?_, fun p hp => ?_, fun k hk => ?_⟩
  · rw [hlinks, hlog]
    exact h.entries
  · rw [Tsdb.newestEntry, hlog]
    exact h.rows p (hrows p hp)
  · rw [Tsdb.minutesOf, hbuckets]
    exact h.buckets k (hdirty k hk)

variable [LinearOrder F] [Zero F] [AddCommSemigroup F]

theorem ingest (h : s.Inv) {link : LinkKey} (x : RawSample F)
    (hid : ∀ l ∈ s.tsdb.heldLinks, l.id = link.id → l = link) :
    Inv { s with tsdb := s.tsdb.append link x } := by
  have hpath : (s.tsdb.append link x).cfg.path ≠ "" := by
    unfold Tsdb.append
    rw [cfg_ingest]
    exact h.path
  have hdb : (s.tsdb.append link x).db.isSome := by
    unfold Tsdb.append
    rw [Tsdb.db_ingest]
    exact h.db
  have hmem : ∀ l, l ∈ (s.tsdb.append link x).heldLinks ↔ l = link ∨ l ∈ s.tsdb.heldLinks :=
    fun _ => Tsdb.mem_heldLinks_ingest
  -- a link that is held for the first time brings an id of its own, by `hid`
  have hids : ∀ l ∈ (s.tsdb.append link x).heldLinks, ∀ l' ∈ (s.tsdb.append link x).heldLinks,
      l.id = l'.id → l = l' := by
    intro l hl l' hl' heq
    rcases (hmem l).mp hl with rfl | hl
    · rcases (hmem l').mp hl' with rfl | hl'
      · rfl
      · exact (hid l' hl' heq.symm).symm
    · rcases (hmem l').mp hl' with hlink | hl'
      · exact hlink ▸ hid l hl (hlink ▸ heq)
      · exact h.ids l hl l' hl' heq
  rcases s.tsdb.append_cases h.path link x with ⟨y, b, hacc⟩ | ⟨rings, heq⟩
  · -- accepted: its second and its minute have a new newest version, the others keep theirs
    refine ⟨hpath, hdb, hids, fun e he => ?_, fun p hp => ?_, fun k hk => ?_⟩
    · dsimp only at he ⊢
      rw [hacc.recent, List.mem_append, List.mem_singleton] at he
      rw [hmem]
      rcases he with he | rfl
      · exact Or.inr (h.entries e he)
      · exact Or.inl rfl
    · dsimp only at hp ⊢
      rw [hacc.newestEntry]
      split
      · rfl
      · rename_i hne
        rw [hacc.pending, List.mem_append, List.mem_append, List.mem_singleton] at hp
        rcases hp with (hp | rfl) | hp
        · exact h.rows p (List.mem_append_left _ hp)
        · exact absurd ⟨rfl, rfl⟩ hne
        · exact h.rows p (List.mem_append_right _ hp)
    · dsimp only at hk ⊢
      rw [hacc.bucket]
      split
      · rfl
      · rename_i hne
        apply h.buckets k
        rcases hk with hk | hk
        · obtain ⟨c, hc⟩ := Map.exists_get_of_mem hk
          rw [show k = (k.1, k.2) from rfl, hacc.dirty, if_neg hne] at hc
          exact Or.inl (Map.mem_of_get hc)
        · exact Or.inr hk
  · -- refused: only the rings have changed
    refine ⟨hpath, hdb, hids, fun e he => ?_, fun p hp => ?_, fun k hk => ?_⟩
    · rw [hmem]
      dsimp only at he
      rw [heq] at he
      exact Or.inr (h.entries e he)
    · dsimp only at hp ⊢
      rw [heq] at hp ⊢
      exact h.rows p hp
    · dsimp only at hk ⊢
      rw [heq] at hk ⊢
      exact h.buckets k hk

theorem step {s' : Flushing F} (h : s.Inv) {a : FlushStep F} (hok : s.Sound a)
    (hs : s.step a = some s') : s'.Inv := by
  cases next_of_step hs with
  | ingest link x => exact h.ingest x hok
  | drainRows hidle hdb =>
    refine h.of_moved rfl h.db rfl rfl rfl (fun p hp => ?_) (fun k hk => ?_)
    · exact List.mem_append_left _ hp
    · exact Or.inl (hk.resolve_right (AList.notMem_empty k))
  | drainBuckets raw hrows =>
    refine h.of_moved rfl h.db rfl rfl rfl (fun p hp => ?_) (fun k hk => ?_)
    · rw [hrows]
      exact hp
    · exact Or.inl (hk.resolve_left (AList.notMem_empty k))
  | settle now last raw buckets hdrained =>
    have hraw : s.task.raw = raw := by rw [hdrained]; rfl
    have hdirty : ∀ k, k ∈ s.tsdb.dirty ∨ k ∈ (FlushTask.idle : FlushTask F).buckets →
        k ∈ s.tsdb.dirty ∨ k ∈ s.task.buckets :=
      fun k hk => Or.inl (hk.resolve_right (AList.notMem_empty k))
    cases last with
    | beginFailed =>
      refine h.of_moved rfl h.db rfl rfl rfl (fun p hp => ?_) hdirty
      rw [hraw]
      exact (List.append_nil (s.tsdb.pending ++ raw)) ▸ hp
    | txFailed =>
      refine h.of_moved rfl h.db rfl rfl rfl (fun p hp => ?_) hdirty
      exact List.mem_append_left _ ((List.append_nil s.tsdb.pending) ▸ hp)
    | committed =>
      refine h.of_moved rfl (Option.isSome_map.trans h.db) rfl rfl rfl (fun p hp => ?_) hdirty
      exact List.mem_append_left _ ((List.append_nil s.tsdb.pending) ▸ hp)

end Inv

/-! ### The steps -/

section Steps

variable {s : Flushing F}

/-- A commit writes the row the flush holds. -/
theorem row_committed (h : s.Inv) {raw : List (LinkKey × RawSample F)}
    {buckets : Map (LinkKey × ℕ) (Bucket F)} (hdrained : s.task = .drained raw buckets) {now : ℕ}
    {l : LinkKey} (hl : l ∈ s.tsdb.heldLinks) {ts : ℕ} (hcut : s.tsdb.rawCut now ≤ ts)
    (rawCut aggCut : ℕ) :
    row ⟨s.tsdb.settle raw buckets.pairs now .committed, .idle, rawCut, aggCut⟩ l ts =
      (s.row l ts).commit := by
  obtain ⟨db, hdb⟩ := Option.isSome_iff_exists.mp h.db
  have hraw : s.task.raw = raw := by rw [hdrained]; rfl
  have hkept : (db.write raw buckets.pairs (s.tsdb.rawCut now) (s.tsdb.aggCut now)).raw.get
      (l.id, ts) = (lastRowOf l ts raw).or (db.raw.get (l.id, ts)) := by
    refine (Map.get_retain_key (fun k : String × ℕ => !(k.2 < s.tsdb.rawCut now)) _ _).trans ?_
    rw [if_pos (by simpa using hcut), Db.get_insertRaw db.raw raw (hraw ▸ h.raw_id hl)]
  unfold row Copies.commit
  simp only [Tsdb.settle, hraw, hdb, Option.map_some, Option.bind_some, hkept]
  rfl

/-- A commit writes the bucket the flush holds. -/
theorem minute_committed (h : s.Inv) {raw : List (LinkKey × RawSample F)}
    {buckets : Map (LinkKey × ℕ) (Bucket F)} (hdrained : s.task = .drained raw buckets) {now : ℕ}
    {l : LinkKey} (hl : l ∈ s.tsdb.heldLinks) {start : ℕ} (hcut : s.tsdb.aggCut now ≤ start)
    (rawCut aggCut : ℕ) :
    minute ⟨s.tsdb.settle raw buckets.pairs now .committed, .idle, rawCut, aggCut⟩ l start =
      (s.minute l start).commit := by
  obtain ⟨db, hdb⟩ := Option.isSome_iff_exists.mp h.db
  have hbuckets : s.task.buckets = buckets := by rw [hdrained]; rfl
  have hkept : (db.write raw buckets.pairs (s.tsdb.rawCut now) (s.tsdb.aggCut now)).agg.get
      (l.id, start) = (buckets.get (l, start)).or (db.agg.get (l.id, start)) := by
    refine (Map.get_retain_key (fun k : String × ℕ => !(k.2 < s.tsdb.aggCut now)) _ _).trans ?_
    rw [if_pos (by simpa using hcut), Db.get_insertAgg db.agg buckets (hbuckets ▸ h.buckets_id hl)]
  unfold minute Copies.commit
  simp only [Tsdb.settle, hbuckets, hdb, Option.map_some, Option.bind_some, hkept]
  rfl

/-- A change of the copies of every second keeps the newest versions exactly if it does so for the
    rows the flush holds. -/
private theorem rows_iff (h : s.Inv) (hd : s.Durable)
    {change : Copies (RawSample F) → Copies (RawSample F)} {good : Copies (RawSample F) → Prop}
    (hgood : ∀ c, (change c).newest = c.newest ↔ good c) (hnone : ∀ c, c.batch = none → good c) :
    (∀ l ts x, s.rawCut ≤ ts → s.tsdb.newestEntry l ts = some x →
      (change (s.row l ts)).newest = some x) ↔
    ∀ p ∈ s.task.raw, s.rawCut ≤ p.2.ts → good (s.row p.1 p.2.ts) := by
  constructor
  · intro hkept p hp hcut
    obtain ⟨x, hx⟩ := Option.isSome_iff_exists.mp (h.rows p (List.mem_append_right _ hp))
    rw [← hgood, hkept _ _ x hcut hx, hd.rows _ _ x hcut hx]
  · intro hrows l ts x hcut hx
    rw [← hd.rows l ts x hcut hx, hgood]
    -- a second without a row in the flush has nothing to lose
    cases hraw : lastSuch (fun p : LinkKey × RawSample F => p.1 = l ∧ p.2.ts = ts) s.task.raw with
    | none => exact hnone _ (congrArg (Option.map Prod.snd) hraw)
    | some p =>
      obtain ⟨hmem, hkey⟩ := mem_of_lastSuch hraw
      obtain ⟨rfl, rfl⟩ := of_decide_eq_true hkey
      exact hrows p hmem hcut

/-- Giving up the buckets keeps the newest versions exactly if they are covered. -/
private theorem minutes_iff (h : s.Inv) (hd : s.Durable) :
    (∀ l start b, s.aggCut ≤ start → (s.tsdb.minutesOf l).bucketAt start = some b →
      (s.minute l start).lose.newest = some b) ↔
    ∀ e ∈ s.task.buckets.pairs, s.aggCut ≤ e.1.2 → (s.minute e.1.1 e.1.2).Covered := by
  constructor
  · intro hkept e he hcut
    obtain ⟨b, hb⟩ := Option.isSome_iff_exists.mp
      (h.buckets e.1 (Or.inr (Map.mem_of_get (Map.mem_pairs.mp he))))
    rw [← Copies.newest_lose_iff, hkept _ _ b hcut hb, hd.minutes _ _ b hcut hb]
  · intro hbuckets l start b hcut hb
    rw [← hd.minutes l start b hcut hb, Copies.newest_lose_iff]
    cases hheld : s.task.buckets.get (l, start) with
    | none => exact Copies.covered_of_batch hheld
    | some c => exact hbuckets _ (Map.mem_pairs.mpr hheld) hcut

/-- After a failure: the rows changed in some way, the buckets given up. -/
private theorem failed_iff (h : s.Inv) (hd : s.Durable) {s' : Flushing F}
    {change : Copies (RawSample F) → Copies (RawSample F)} {good : Copies (RawSample F) → Prop}
    (hgood : ∀ c, (change c).newest = c.newest ↔ good c) (hnone : ∀ c, c.batch = none → good c)
    (hlog : s'.tsdb.recent = s.tsdb.recent) (hbuckets : s'.tsdb.buckets = s.tsdb.buckets)
    (hrawCut : s'.rawCut = s.rawCut) (haggCut : s'.aggCut = s.aggCut)
    (hrow : ∀ l ts, s'.row l ts = change (s.row l ts))
    (hminute : ∀ l start, s'.minute l start = (s.minute l start).lose) :
    s'.Durable ↔ (∀ p ∈ s.task.raw, s.rawCut ≤ p.2.ts → good (s.row p.1 p.2.ts)) ∧
      ∀ e ∈ s.task.buckets.pairs, s.aggCut ≤ e.1.2 → (s.minute e.1.1 e.1.2).Covered := by
  rw [← rows_iff h hd hgood hnone, ← minutes_iff h hd]
  have hentry : ∀ l ts, s'.tsdb.newestEntry l ts = s.tsdb.newestEntry l ts := by
    intro l ts
    rw [Tsdb.newestEntry, hlog, Tsdb.newestEntry]
  have hminutes : ∀ l, s'.tsdb.minutesOf l = s.tsdb.minutesOf l := by
    intro l
    rw [Tsdb.minutesOf, hbuckets, Tsdb.minutesOf]
  constructor
  · rintro ⟨hrows, hkept⟩
    refine ⟨fun l ts x hcut hx => ?_, fun l start b hcut hb => ?_⟩
    · rw [← hrow]
      exact hrows l ts x (hrawCut ▸ hcut) ((hentry l ts).trans hx)
    · rw [← hminute]
      exact hkept l start b (haggCut ▸ hcut) (hminutes l ▸ hb)
  · rintro ⟨hrows, hkept⟩
    refine ⟨fun l ts x hcut hx => ?_, fun l start b hcut hb => ?_⟩
    · rw [hrow]
      exact hrows l ts x (hrawCut ▸ hcut) ((hentry l ts).symm.trans hx)
    · rw [hminute]
      exact hkept l start b (haggCut ▸ hcut) (hminutes l ▸ hb)

/-- **Which failures are harmless.** The end of a flush keeps every newest version on its way to
    the database exactly if it is harmless. -/
theorem durable_settle_iff (h : s.Inv) (hd : s.Durable) {raw : List (LinkKey × RawSample F)}
    {buckets : Map (LinkKey × ℕ) (Bucket F)} (hdrained : s.task = .drained raw buckets) (now : ℕ)
    (last : FlushEnd) :
    Durable ⟨s.tsdb.settle raw buckets.pairs now last, .idle,
      cutAfter s.rawCut (s.tsdb.rawCut now) last, cutAfter s.aggCut (s.tsdb.aggCut now) last⟩ ↔
    s.Harmless last := by
  have hraw : s.task.raw = raw := by rw [hdrained]; rfl
  cases last with
  | beginFailed =>
    refine failed_iff h hd (fun _ => Copies.newest_requeue_iff)
      (fun _ => Copies.unsuperseded_of_batch) rfl rfl rfl rfl (fun l ts => ?_) (fun _ _ => rfl)
    -- the rows are queued again behind those queued since
    have happend : lastRowOf l ts (s.tsdb.pending ++ raw) =
        (lastRowOf l ts raw).or (s.tsdb.lastRow l ts) := by
      unfold Tsdb.lastRow lastRowOf
      rw [lastSuch_append, Option.map_or]
    unfold row Copies.requeue
    rw [hraw, ← happend]
    rfl
  | txFailed =>
    exact failed_iff h hd (fun _ => Copies.newest_lose_iff) (fun _ => Copies.covered_of_batch)
      rfl rfl rfl rfl (fun _ _ => rfl) (fun _ _ => rfl)
  | committed =>
    refine iff_of_true ⟨fun l ts x hcut hx => ?_, fun l start b hcut hb => ?_⟩ trivial
    · obtain ⟨hold, hnow⟩ := max_le_iff.mp hcut
      have hx : s.tsdb.newestEntry l ts = some x := hx
      obtain ⟨-, seq, he⟩ := Tsdb.newestEntry_eq_some hx
      rw [row_committed h hdrained (h.entries _ he) hnow, Copies.newest_commit]
      exact hd.rows l ts x hold hx
    · obtain ⟨hold, hnow⟩ := max_le_iff.mp hcut
      have hb : (s.tsdb.minutesOf l).bucketAt start = some b := hb
      rw [minute_committed h hdrained (Tsdb.heldLink_of_bucketAt hb) hnow, Copies.newest_commit]
      exact hd.minutes l start b hold hb

variable [LinearOrder F] [Zero F] [AddCommSemigroup F]

namespace Durable

/-- An ingest queues the new versions. -/
theorem ingest (hd : s.Durable) (h : s.Inv) (link : LinkKey) (x : RawSample F) :
    Durable { s with tsdb := s.tsdb.append link x } := by
  have hdb : (s.tsdb.append link x).db = s.tsdb.db := Tsdb.db_ingest _ _ _ _
  rcases s.tsdb.append_cases h.path link x with ⟨y, b, hacc⟩ | ⟨rings, heq⟩
  · refine ⟨fun l ts z hcut hz => ?_, fun l start c hcut hc => ?_⟩
    · -- the row of a second is queued with the version the store now holds
      have hrow : row { s with tsdb := s.tsdb.append link x } l ts =
          if link = l ∧ y.ts = ts then (s.row l ts).write y else s.row l ts := by
        unfold row Copies.write
        dsimp only
        rw [hacc.lastRow, hdb]
        split <;> rfl
      dsimp only at hz
      rw [hacc.newestEntry] at hz
      rw [hrow]
      split at hz
      · rename_i heq
        rw [if_pos heq]
        exact hz
      · rename_i hne
        rw [if_neg hne]
        exact hd.rows l ts z hcut hz
    · -- its bucket is marked dirty with what it now holds
      have hminute : minute { s with tsdb := s.tsdb.append link x } l start =
          if link = l ∧ bucketTs y.ts = start then (s.minute l start).write b
          else s.minute l start := by
        unfold minute Copies.write
        dsimp only
        rw [hacc.dirty, hdb]
        split <;> rfl
      dsimp only at hc
      rw [hacc.bucket] at hc
      rw [hminute]
      split at hc
      · rename_i heq
        rw [if_pos heq]
        exact hc
      · rename_i hne
        rw [if_neg hne]
        exact hd.minutes l start c hcut hc
  · -- refused: nothing is queued and nothing has changed
    rw [heq]
    exact ⟨hd.rows, hd.minutes⟩

/-- **Step lemma.** -/
theorem step {s' : Flushing F} (hd : s.Durable) (h : s.Inv) {a : FlushStep F} (hok : s.Sound a)
    (hs : s.step a = some s') : s'.Durable := by
  cases next_of_step hs with
  | ingest link x => exact hd.ingest h link x
  | drainRows hidle hdb =>
    refine ⟨fun l ts x hcut hx => ?_, fun l start b hcut hb => ?_⟩
    · have hbatch : (s.row l ts).batch = none := by
        unfold row
        rw [hidle]
        rfl
      rw [← hd.rows l ts x hcut hx, ← Copies.newest_drain hbatch]
      rfl
    · rw [← hd.minutes l start b hcut hb]
      unfold minute
      rw [hidle]
      rfl
  | drainBuckets raw hrows =>
    refine ⟨fun l ts x hcut hx => ?_, fun l start b hcut hb => ?_⟩
    · rw [← hd.rows l ts x hcut hx]
      unfold row
      rw [hrows]
      rfl
    · have hbatch : (s.minute l start).batch = none := by
        unfold minute
        rw [hrows]
        rfl
      rw [← hd.minutes l start b hcut hb, ← Copies.newest_drain hbatch]
      rfl
  | settle now last raw buckets hdrained =>
    exact (durable_settle_iff h hd hdrained now last).mpr hok

end Durable

end Steps

end Flushing

/-! ### The start -/

/-- The rows of the tables say what their keys say, and the ids of the links are read back. -/
structure Db.WellFormed (db : Db F) : Prop where
  raw : ∀ k x, db.raw.get k = some x → x.ts = k.2 ∧ (parseLinkId k.1).id = k.1
  agg : ∀ k b, db.agg.get k = some b → b.bucket = k.2 ∧ (parseLinkId k.1).id = k.1

namespace Db

theorem wellFormed_empty : (empty : Db F).WellFormed :=
  ⟨fun _ _ h => absurd h (by simp [empty]), fun _ _ h => absurd h (by simp [empty])⟩

/-- A flush of links with plain names keeps it so. -/
theorem WellFormed.write {db : Db F} (h : db.WellFormed) {raw : List (LinkKey × RawSample F)}
    {buckets : List ((LinkKey × ℕ) × Bucket F)} (hraw : ∀ p ∈ raw, p.1.Plain)
    (hbuckets : ∀ e ∈ buckets, e.1.1.Plain ∧ e.2.bucket = e.1.2) (rawCut aggCut : ℕ) :
    (db.write raw buckets rawCut aggCut).WellFormed := by
  refine ⟨fun k x hx => ?_, fun k b hb => ?_⟩
  · have hx := Option.filter_eq_some_iff.mp ((Map.get_retain _ _ k).symm.trans hx)
    rw [insertRaw, Map.get_foldl_set (fun p : LinkKey × RawSample F => (p.1.id, p.2.ts)) Prod.snd,
      Option.or_eq_some_iff] at hx
    rcases hx.1 with hnew | ⟨-, hold⟩
    · obtain ⟨p, hlast, rfl⟩ := Option.map_eq_some_iff.mp hnew
      obtain ⟨hp, hkey⟩ := mem_of_lastSuch hlast
      obtain rfl := of_decide_eq_true hkey
      exact ⟨rfl, congrArg LinkKey.id (parseLinkId_id (hraw p hp))⟩
    · exact h.raw k x hold
  · have hb := Option.filter_eq_some_iff.mp ((Map.get_retain _ _ k).symm.trans hb)
    rw [insertAgg, Map.get_foldl_set (fun e : (LinkKey × ℕ) × Bucket F => (e.1.1.id, e.1.2)) Prod.snd,
      Option.or_eq_some_iff] at hb
    rcases hb.1 with hnew | ⟨-, hold⟩
    · obtain ⟨e, hlast, rfl⟩ := Option.map_eq_some_iff.mp hnew
      obtain ⟨he, hkey⟩ := mem_of_lastSuch hlast
      obtain rfl := of_decide_eq_true hkey
      exact ⟨(hbuckets e he).2, congrArg LinkKey.id (parseLinkId_id (hbuckets e he).1)⟩
    · exact h.agg k b hold

end Db

section Start

variable [LinearOrder F]

/-- A sample offered to a ring that holds no other version of its second: it is refused, or stored
    as it is. -/
private theorem Ring.Offer.of_version {r r' : Ring F} {s : RawSample F} {acc : Option (Accepted F)}
    (h : Ring.Offer r s r' acc) (hheld : ∀ held, r.sampleAt s.ts = some held → held = s) :
    (∀ ts x, r'.sampleAt ts = some x → x = s ∨ r.sampleAt ts = some x) ∧
      ∀ a ∈ acc, a.sample = s := by
  cases h with
  | old | resend | full =>
    exact ⟨fun ts x hx => Or.inr hx, fun a ha => absurd ha (by simp)⟩
  | merged held r' hfloor hsample hnew hkeep hat =>
    exact absurd (RawSample.Within.refl s) (hheld held hsample ▸ hnew)
  | added r' hfloor hnone hroom hkeep hat =>
    refine ⟨fun ts x hx => ?_, fun a ha => ?_⟩
    · rw [hat] at hx
      split at hx
      · exact Or.inl (Option.some.inj hx).symm
      · exact Or.inr hx
    · rw [← Option.some.inj ha]
  | evicted old r' hfloor hnone hcap hold hmin hlt hraise hat =>
    refine ⟨fun ts x hx => ?_, fun a ha => ?_⟩
    · rw [hat] at hx
      split at hx
      · exact Or.inl (Option.some.inj hx).symm
      · split at hx
        · exact absurd hx (by simp)
        · exact Or.inr hx
    · rw [← Option.some.inj ha]

variable [Zero F] [AddCommSemigroup F]

/-- A store filled from rows with one version of every second. -/
structure Loaded (t : Tsdb F) (rows : List (LinkKey × RawSample F)) : Prop where
  rings : ∀ l ts x, (t.ringOf l).sampleAt ts = some x → (l, x) ∈ rows
  entries : ∀ e ∈ t.recent, e.2 ∈ rows ∧ e.2.1 ∈ t.byLink
  links : ∀ l ∈ t.heldLinks, ∃ x, (l, x) ∈ rows
  pending : t.pending = []
  dirty : t.AllDirty

namespace Loaded

variable {t : Tsdb F} {rows : List (LinkKey × RawSample F)}

theorem ingest (h : Loaded t rows)
    (honce : ∀ p ∈ rows, ∀ q ∈ rows, p.1 = q.1 → p.2.ts = q.2.ts → p.2 = q.2)
    {link : LinkKey} {s : RawSample F} (hs : (link, s) ∈ rows) :
    Loaded (t.ingest link s false).1 rows := by
  obtain ⟨hring, hacc⟩ := (t.ringOf_offer_spec link s).of_version fun held hheld =>
    honce _ (h.rings link s.ts held hheld) _ hs rfl (Ring.ts_of_sampleAt hheld)
  refine ⟨fun l ts x hx => ?_, fun e he => ?_, fun l hl => ?_, ?_, h.dirty.ingest link s false⟩
  · rw [Tsdb.ringOf_ingest] at hx
    split at hx
    · rename_i heq
      rw [heq]
      rcases hring ts x hx with rfl | hx
      · exact hs
      · exact h.rings link ts x hx
    · exact h.rings l ts x hx
  · have hmem := fun l => t.mem_byLink_ingest link s false (l := l)
    cases hoffer : ((t.ringOf link).offer s).2 with
    | none =>
      rw [Tsdb.ingest_of_refused false hoffer] at he
      exact (h.entries e he).imp id (fun hl => hmem _ (Or.inr hl))
    | some acc =>
      rw [Tsdb.ingest_of_accepted false hoffer] at he
      rcases List.mem_append.mp he with he | he
      · exact (h.entries e he).imp id (fun hl => hmem _ (Or.inr hl))
      · rw [List.mem_singleton.mp he]
        dsimp only
        rw [hacc acc hoffer]
        exact ⟨hs, hmem _ (Or.inl rfl)⟩
  · rcases Tsdb.mem_heldLinks_ingest.mp hl with rfl | hl
    · exact ⟨s, hs⟩
    · exact h.links l hl
  · cases hoffer : ((t.ringOf link).offer s).2 with
    | none =>
      rw [Tsdb.ingest_of_refused false hoffer]
      exact h.pending
    | some acc =>
      rw [Tsdb.ingest_of_accepted false hoffer]
      exact (List.append_nil t.pending).trans h.pending

/-- The rows are loaded one after another. -/
theorem ingestAll (h : Loaded t rows)
    (honce : ∀ p ∈ rows, ∀ q ∈ rows, p.1 = q.1 → p.2.ts = q.2.ts → p.2 = q.2)
    {given : List (LinkKey × RawSample F)} (hsub : ∀ p ∈ given, p ∈ rows) :
    Loaded (t.ingestAll false given) rows := by
  induction given using List.reverseRecOn with
  | nil => exact h
  | append_singleton ps p ih =>
    rw [Tsdb.ingestAll_concat]
    apply (ih (fun q hq => hsub q (List.mem_append_left _ hq))).ingest honce
    exact hsub p (List.mem_append_right _ (List.mem_singleton_self p))

end Loaded

omit [LinearOrder F] [Zero F] [AddCommSemigroup F] in
/-- The buckets of the database change the buckets alone. -/
theorem foldl_loadBucket_frame (rows : List ((String × ℕ) × Bucket F)) (now : ℕ)
    (t : Tsdb F) : ∃ buckets, rows.foldl (Tsdb.loadBucket now) t = { t with buckets } := by
  apply foldl_rel (R := fun t t' : Tsdb F => ∃ buckets, t' = { t with buckets })
    (fun t => ⟨t.buckets, rfl⟩)
  · rintro t u v ⟨b, rfl⟩ ⟨b', rfl⟩
    exact ⟨b', rfl⟩
  · intro t row
    unfold Tsdb.loadBucket
    split
    · exact ⟨t.buckets, rfl⟩
    · dsimp only
      split
      · exact ⟨t.buckets, rfl⟩
      · exact ⟨_, rfl⟩

omit [LinearOrder F] [Zero F] [AddCommSemigroup F] in
/-- The links of the buckets are those of the rows. -/
private theorem mem_foldl_loadBucket {rows : List ((String × ℕ) × Bucket F)} {now : ℕ} {t : Tsdb F}
    {l : LinkKey} (h : l ∈ (rows.foldl (Tsdb.loadBucket now) t).buckets) :
    l ∈ t.buckets ∨ ∃ row ∈ rows, parseLinkId row.1.1 = l := by
  induction rows generalizing t with
  | nil => exact Or.inl h
  | cons row rows ih =>
    rcases ih h with hl | ⟨row', hrow', hl⟩
    · have hstep : l ∈ t.buckets ∨ parseLinkId row.1.1 = l := by
        unfold Tsdb.loadBucket at hl
        split at hl
        · exact Or.inl hl
        · dsimp only at hl
          split at hl
          · exact Or.inl hl
          · exact (Map.mem_set.mp hl).symm.imp id Eq.symm
      exact hstep.imp id (fun hl => ⟨row, List.mem_cons_self, hl⟩)
    · exact Or.inr ⟨row', List.mem_cons_of_mem _ hrow', hl⟩

omit [LinearOrder F] [Zero F] [AddCommSemigroup F] in
/-- A row is read back for the link that it is found under. -/
theorem Db.WellFormed.reread {db : Db F} (h : db.WellFormed) {cut : ℕ}
    {p : LinkKey × RawSample F} (hp : p ∈ Tsdb.reread db cut) :
    db.raw.get (p.1.id, p.2.ts) = some p.2 ∧ parseLinkId p.1.id = p.1 := by
  obtain ⟨⟨k, x⟩, hmem, rfl⟩ := List.mem_map.mp hp
  have hx : db.raw.get k = some x := mem_rowsOf.mp (List.mem_filter.mp hmem).1
  obtain ⟨hts, hid⟩ := h.raw k x hx
  dsimp only
  rw [hts, hid]
  exact ⟨hx, rfl⟩

omit [LinearOrder F] [Zero F] [AddCommSemigroup F] in
/-- The store of a start: its log is read from the database, its buckets are dirty or those of the
    database, and no row is queued. -/
structure Started (t : Tsdb F) (cfg : TsConfig) (db : Db F) : Prop where
  cfg : t.cfg = cfg
  opened : t.db = some db
  pending : t.pending = []
  links : ∀ l ∈ t.heldLinks, parseLinkId l.id = l
  entries : ∀ e ∈ t.recent, e.2.1 ∈ t.heldLinks ∧ db.raw.get (e.2.1.id, e.2.2.ts) = some e.2.2
  dirty : ∀ k ∈ t.dirty, ((t.minutesOf k.1).bucketAt k.2).isSome
  buckets : ∀ l start b, (t.minutesOf l).bucketAt start = some b →
    (t.dirty.get (l, start)).or (db.agg.get (l.id, start)) = some b

theorem loaded_reread {db : Db F} (h : db.WellFormed) (cfg : TsConfig) (cut : ℕ) :
    Loaded ((Tsdb.new cfg).ingestAll false (Tsdb.reread db cut)) (Tsdb.reread db cut) := by
  have hnew : Loaded (Tsdb.new cfg) (Tsdb.reread db cut) := by
    refine ⟨fun l ts x hx => ?_, fun e he => ?_, fun l hl => ?_, rfl, fun _ _ => rfl⟩
    · exact absurd (show none = some x from hx) (by simp)
    · exact absurd he List.not_mem_nil
    · exact absurd hl List.not_mem_nil
  refine hnew.ingestAll (fun p hp q hq hlink hts => ?_) (fun p hp => hp)
  have hget := (h.reread hp).1
  rw [hlink, hts, (h.reread hq).1] at hget
  exact (Option.some.inj hget).symm

/-- **What a start loads.** -/
theorem started_reopen {db : Db F} (h : db.WellFormed) (cfg : TsConfig) (now : ℕ) :
    Started (Tsdb.reopen cfg db now) cfg db := by
  rw [Tsdb.reopen_eq]
  have hload := loaded_reread h cfg ((Tsdb.new cfg : Tsdb F).rawCut now)
  have hcfg := Tsdb.cfg_ingestAll (Tsdb.new cfg : Tsdb F) false
    (Tsdb.reread db ((Tsdb.new cfg : Tsdb F).rawCut now))
  generalize (Tsdb.new cfg : Tsdb F).ingestAll false
    (Tsdb.reread db ((Tsdb.new cfg : Tsdb F).rawCut now)) = rebuilt at hload hcfg ⊢
  have hbucket : ∀ l start,
      (((rowsOf db.agg).foldl (Tsdb.loadBucket now) rebuilt).minutesOf l).bucketAt start =
        (rebuilt.dirty.get (l, start)).or (((rowsOf db.agg).find? (fun row =>
          parseLinkId row.1.1 = l ∧ row.1.2 = start ∧ rebuilt.aggCut now ≤ start)).map Prod.snd) := by
    intro l start
    rw [hload.dirty]
    apply Tsdb.foldl_loadBucket _ rfl
    intro row hrow
    exact (h.agg _ _ (mem_rowsOf.mp hrow)).1
  have hrows : ∀ l, (∃ x, (l, x) ∈ Tsdb.reread db ((Tsdb.new cfg : Tsdb F).rawCut now)) →
      parseLinkId l.id = l := fun l ⟨x, hx⟩ => (h.reread hx).2
  have hagg : ∀ l ∈ ((rowsOf db.agg).foldl (Tsdb.loadBucket now) rebuilt).buckets,
      parseLinkId l.id = l := by
    intro l hl
    rcases mem_foldl_loadBucket hl with hl | ⟨row, hrow, rfl⟩
    · exact hrows l (hload.links l (Tsdb.mem_heldLinks.mpr (Or.inr hl)))
    · rw [(h.agg _ _ (mem_rowsOf.mp hrow)).2]
  obtain ⟨buckets, heq⟩ := foldl_loadBucket_frame (rowsOf db.agg) now rebuilt
  rw [heq] at hbucket hagg ⊢
  refine ⟨hcfg, rfl, hload.pending, fun l hl => ?_, fun e he => ?_, fun k hk => ?_,
    fun l start b hb => ?_⟩
  · rcases Tsdb.mem_heldLinks.mp hl with hl | hl
    · exact hrows l (hload.links l (Tsdb.mem_heldLinks.mpr (Or.inl hl)))
    · exact hagg l hl
  · obtain ⟨hmem, hl⟩ := hload.entries e he
    exact ⟨Tsdb.mem_heldLinks.mpr (Or.inl hl), (h.reread hmem).1⟩
  · obtain ⟨b, hb⟩ := Map.exists_get_of_mem hk
    have hat := hbucket k.1 k.2
    rw [show rebuilt.dirty.get (k.1, k.2) = some b from hb, Option.some_or] at hat
    exact Option.isSome_iff_exists.mpr ⟨b, hat⟩
  · have hat := (hbucket l start).symm.trans hb
    dsimp only
    cases hdirty : rebuilt.dirty.get (l, start) with
    | some c =>
      rw [hdirty, Option.some_or] at hat
      rw [Option.some_or, hat]
    | none =>
      -- a bucket of the database
      rw [hdirty, Option.none_or, Option.map_eq_some_iff] at hat
      obtain ⟨row, hfind, rfl⟩ := hat
      have hget := mem_rowsOf.mp (List.mem_of_find?_eq_some hfind)
      have hfound := List.find?_some hfind
      obtain ⟨hlink, hstart, -⟩ := of_decide_eq_true hfound
      have hid := (h.agg _ _ hget).2
      rw [Option.none_or, ← hget, ← hlink, hid, ← hstart]

namespace Flushing

theorem inv_start {cfg : TsConfig} (hpath : cfg.path ≠ "") {db : Db F} (h : db.WellFormed)
    (now : ℕ) : (start cfg db now).Inv := by
  have hs := started_reopen h cfg now
  refine ⟨?_, ?_, fun l hl l' hl' heq => ?_, fun e he => (hs.entries e he).1, fun p hp => ?_,
    fun k hk => ?_⟩
  · rwa [start, hs.cfg]
  · rw [start, hs.opened]
    rfl
  · rw [← hs.links l hl, heq, hs.links l' hl']
  · rw [start, hs.pending] at hp
    exact absurd hp List.not_mem_nil
  · exact hs.dirty k (hk.resolve_right (AList.notMem_empty k))

theorem durable_start (cfg : TsConfig) {db : Db F} (h : db.WellFormed) (now : ℕ) :
    (start cfg db now).Durable := by
  have hs := started_reopen h cfg now
  refine ⟨fun l ts x _ hx => ?_, fun l start b _ hb => ?_⟩
  · obtain ⟨rfl, seq, he⟩ := Tsdb.newestEntry_eq_some hx
    rw [row, Flushing.start, Tsdb.lastRow, hs.pending, hs.opened]
    exact (hs.entries _ he).2
  · rw [minute, Flushing.start, hs.opened]
    exact hs.buckets l start b hb

/-- **Run lemma.** -/
theorem inv_durable_of_runs {s s' : Flushing F} (h : Runs step Sound s s') (hinv : s.Inv)
    (hd : s.Durable) : s'.Inv ∧ s'.Durable :=
  h.invariant (I := fun s => s.Inv ∧ s.Durable) ⟨hinv, hd⟩
    (fun _ _ _ ⟨hinv, hd⟩ hok hs => ⟨hinv.step hok hs, hd.step hinv hok hs⟩)

end Flushing

omit [LinearOrder F] [Zero F] [AddCommSemigroup F] in
/-- The database has the newest version of every second and every minute from the cuts on. -/
structure Tsdb.Written (t : Tsdb F) (rawCut aggCut : ℕ) : Prop where
  rows : ∀ l ts x, rawCut ≤ ts → t.newestEntry l ts = some x →
    t.db.bind (·.raw.get (l.id, ts)) = some x
  minutes : ∀ l start b, aggCut ≤ start → (t.minutesOf l).bucketAt start = some b →
    t.db.bind (·.agg.get (l.id, start)) = some b

/-- A flush that is committed writes the newest versions. -/
theorem Flushing.written_flush {s : Flushing F} (h : s.Inv) (hd : s.Durable)
    (hidle : s.task = .idle) (later : ℕ) : (s.tsdb.flush later .committed).Written
      (max s.rawCut (s.tsdb.rawCut later)) (max s.aggCut (s.tsdb.aggCut later)) := by
  have hrun : Runs Flushing.step Flushing.Sound s
      ⟨s.tsdb.flush later .committed, .idle, max s.rawCut (s.tsdb.rawCut later),
        max s.aggCut (s.tsdb.aggCut later)⟩ := by
    have hrows : s.step .drainRows = some { s with
        tsdb := { s.tsdb with pending := [] }, task := .rows s.tsdb.pending } := by
      simp only [Flushing.step, hidle]
      exact if_pos h.db
    refine Runs.cons .drainRows trivial hrows (Runs.cons .drainBuckets trivial rfl
      (Runs.cons (.settle later .committed) trivial ?_ (Runs.refl _)))
    rw [Tsdb.flush, if_pos h.db]
    rfl
  obtain ⟨-, hnext⟩ := inv_durable_of_runs hrun h hd
  have hpending : (s.tsdb.flush later .committed).pending = [] := by
    rw [Tsdb.flush, if_pos h.db]
    rfl
  have hdirty : (s.tsdb.flush later .committed).dirty = ∅ := by
    rw [Tsdb.flush, if_pos h.db]
    rfl
  refine ⟨fun l ts x hcut hx => ?_, fun l start b hcut hb => ?_⟩
  · refine Copies.stored_of_newest (hnext.rows l ts x hcut hx) ?_ rfl
    show lastRowOf l ts (s.tsdb.flush later .committed).pending = none
    rw [hpending]
    rfl
  · refine Copies.stored_of_newest (hnext.minutes l start b hcut hb) ?_ rfl
    show (s.tsdb.flush later .committed).dirty.get (l, start) = none
    rw [hdirty]
    exact Map.get_empty _

/-- **Flushes whose failures are harmless.**  At every moment the newest version of every second
    and every minute within retention is in the database or waiting for it, and the next flush
    that is committed writes it. -/
theorem durable_of_sound {cfg : TsConfig} (hpath : cfg.path ≠ "") {db : Db F}
    (hdb : db.WellFormed) {now : ℕ} {s : Flushing F}
    (h : Runs Flushing.step Flushing.Sound (Flushing.start cfg db now) s) :
    s.Durable ∧ (s.task = .idle → ∀ later, (s.tsdb.flush later .committed).Written
      (max s.rawCut (s.tsdb.rawCut later)) (max s.aggCut (s.tsdb.aggCut later))) := by
  obtain ⟨hinv, hd⟩ := Flushing.inv_durable_of_runs h (Flushing.inv_start hpath hdb now)
    (Flushing.durable_start cfg hdb now)
  exact ⟨hd, fun hidle later => Flushing.written_flush hinv hd hidle later⟩

end Start

/-! ### Failures that lose -/

private def onRedb : TsConfig := ⟨"metrics.redb", 7200, 86400⟩

/-- A report, a flush that ends in some way, and more reports while it runs. -/
private def flushed (last : FlushEnd) (meanwhile : List (FlushStep ℕ)) : List (FlushStep ℕ) :=
  [.ingest echoKey (rttSample 120 5), .drainRows, .drainBuckets] ++ meanwhile ++ [.settle 200 last]

/-- The flush could not begin, but another report of the minute came in: the next flush writes
    both rows and the bucket. -/
theorem durable_requeued : ∃ s : Flushing ℕ, s.tsdb.pending.length = 2 ∧ s.Durable ∧
    (s.tsdb.flush 210 .committed).Written
      (max s.rawCut (s.tsdb.rawCut 210)) (max s.aggCut (s.tsdb.aggCut 210)) := by
  have hrun : exec Flushing.step Flushing.Sound (Flushing.start onRedb Db.empty 0)
      (flushed .beginFailed [.ingest echoKey (rttSample 130 7)]) = some _ := rfl
  have hd := durable_of_sound (by decide) Db.wellFormed_empty (Runs.of_exec _ hrun)
  exact ⟨_, rfl, hd.1, hd.2 rfl 210⟩

/-- **A failed flush loses.**  A transaction that fails forgets the row of a report.  A flush that
    cannot begin forgets its bucket, and when the second is reported again meanwhile, the older row
    is queued behind the newer one and overwrites it at the next flush. -/
theorem failed_flush_loses :
    (∃ s : Flushing ℕ, Runs Flushing.step Always (Flushing.start onRedb Db.empty 0) s ∧
      s.tsdb.newestEntry echoKey 120 = some (rttSample 120 5) ∧
      (s.row echoKey 120).newest = none ∧ ¬ s.Durable) ∧
    (∃ s : Flushing ℕ, Runs Flushing.step Always (Flushing.start onRedb Db.empty 0) s ∧
      ((s.tsdb.minutesOf echoKey).bucketAt 120).isSome ∧
      (s.minute echoKey 120).newest = none ∧ ¬ s.Durable) ∧
    ∃ s : Flushing ℕ, Runs Flushing.step Always (Flushing.start onRedb Db.empty 0) s ∧
      (s.tsdb.flush 210 .committed).newestEntry echoKey 120 = some (rttSample 120 9) ∧
      ((s.tsdb.flush 210 .committed).db.bind (·.raw.get (echoKey.id, 120))) =
        some (rttSample 120 5) := by
  have hfailed : exec Flushing.step Always (Flushing.start onRedb Db.empty 0)
      (flushed .txFailed []) = some _ := rfl
  have hnotBegun : exec Flushing.step Always (Flushing.start onRedb Db.empty 0)
      (flushed .beginFailed []) = some _ := rfl
  have hagain : exec Flushing.step Always (Flushing.start onRedb Db.empty 0)
      (flushed .beginFailed [.ingest echoKey (rttSample 120 9)]) = some _ := rfl
  refine ⟨⟨_, Runs.of_exec _ hfailed, rfl, rfl, fun hd => ?_⟩,
    ⟨_, Runs.of_exec _ hnotBegun, rfl, rfl, fun hd => ?_⟩, _, Runs.of_exec _ hagain, rfl, rfl⟩
  · exact absurd (hd.rows echoKey 120 (rttSample 120 5) (Nat.zero_le _) rfl) (by decide)
  · exact absurd (hd.minutes echoKey 120 _ (Nat.zero_le _) rfl) (by decide)

end Mielofon
