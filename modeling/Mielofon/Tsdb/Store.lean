import Mielofon.Lib.Map
import Mielofon.Tsdb.Ring

namespace Mielofon

open Lib

/-!
# The time-series store

`Tsdb` (`tsdb.rs`): the raw ring and the minute buckets of every link, the delta log gossip
reads from, the watermark of every peer, and the rows and buckets waiting for the next flush.

An ingest takes one lock after another.  Each locked part is a section of its own, so that
`Tsdb.ingest`, where they run one after another, and the interleavings of several ingests are
built from the same definitions.

* `ringSection`, `bucketSection`, `takeSeq`, `logSection`, `queueSection` — the sections;
* `Tsdb.ingest`, `Tsdb.append`, `Tsdb.mergeDelta` — ingest of one sample and of a batch;
* `Tsdb.takeDelta`, `Tsdb.noteSent`, `Tsdb.takeForPeer` — the gossip side, and
  `takeDelta_spec`, what a delta holds;
* `Tsdb.prune` — retention;
* `ingest_of_refused`, `ingest_of_accepted` — the two outcomes of an ingest.
-/

/-- Where the durable copy lives (nowhere when empty), and how long samples and buckets are
    kept. -/
structure TsConfig where
  path : String
  raw_retention_secs : ℕ
  agg_retention_secs : ℕ
deriving DecidableEq, Repr

/-- How many samples a single gossip delta may carry. -/
def deltaLimit : ℕ := 2000

/-- The two tables of the durable copy, keyed by link id and second (or bucket start). -/
structure Db (F : Type*) where
  raw : Map (String × ℕ) (RawSample F)
  agg : Map (String × ℕ) (Bucket F)

/-- An entry of the delta log: its number, the link and the sample. -/
abbrev Entry (F : Type*) := ℕ × LinkKey × RawSample F

/-- The store. -/
structure Tsdb (F : Type*) where
  cfg : TsConfig
  seq : ℕ
  byLink : Map LinkKey (Ring F)
  buckets : Map LinkKey (Minutes F)
  /-- (seq, link, sample), ascending seq: the gossip delta source. -/
  recent : List (Entry F)
  /-- Highest local sample seq each peer has been sent. -/
  sent : Map String ℕ
  /-- Raw samples not yet written to the durable copy. -/
  pending : List (LinkKey × RawSample F)
  /-- Mutated buckets not yet written to the durable copy. -/
  dirty : Map (LinkKey × ℕ) (Bucket F)
  db : Option (Db F)

variable {F : Type*}

namespace Tsdb

/-- The store of a fresh start, before anything is loaded. -/
def new (cfg : TsConfig) : Tsdb F := ⟨cfg, 1, ∅, ∅, [], ∅, [], ∅, none⟩

/-- The ring of a link; empty when nothing was ingested for it. -/
def ringOf (t : Tsdb F) (l : LinkKey) : Ring F := (t.byLink.get l).getD Ring.empty

/-- The buckets of a link. -/
def minutesOf (t : Tsdb F) (l : LinkKey) : Minutes F := (t.buckets.get l).getD Minutes.empty

/-! ### Ingest -/

section Ingest

variable [LinearOrder F]

/-- Under the ring lock: update the ring and capture what was accepted. -/
def ringSection (t : Tsdb F) (link : LinkKey) (s : RawSample F) : Tsdb F × Option (Accepted F) :=
  let res := (t.ringOf link).offer s
  ({ t with byLink := t.byLink.set link res.1 }, res.2)

/-- Under the bucket lock: roll the accepted sample in and mark its bucket dirty. -/
def bucketSection [Zero F] [Add F] (t : Tsdb F) (link : LinkKey) (acc : Accepted F) : Tsdb F :=
  let start := bucketTs acc.sample.ts
  { t with
    buckets := t.buckets.set link ((t.minutesOf link).update acc)
    dirty := t.dirty.set (link, start)
      (Minutes.rolled ((t.minutesOf link).bucketAt start) acc) }

/-- Take the next sequence number. -/
def takeSeq (t : Tsdb F) : Tsdb F × ℕ := ({ t with seq := t.seq + 1 }, t.seq)

/-- Under the log lock: append the entry. -/
def logSection (t : Tsdb F) (seq : ℕ) (link : LinkKey) (s : RawSample F) : Tsdb F :=
  { t with recent := t.recent ++ [(seq, link, s)] }

/-- Under the pending lock: queue the row, when it is to be persisted at all. -/
def queueSection (t : Tsdb F) (link : LinkKey) (s : RawSample F) (persist : Bool) : Tsdb F :=
  if persist && t.cfg.path != "" then { t with pending := t.pending ++ [(link, s)] } else t

variable [Zero F] [Add F]

/-- Ingest a sample.  True when it changed the ring: a new second, or something new on a
    second already held. -/
def ingest (t : Tsdb F) (link : LinkKey) (s : RawSample F) (persist : Bool) : Tsdb F × Bool :=
  match t.ringSection link s with
  | (t, none) => (t, false)
  | (t, some acc) =>
    let t := t.bucketSection link acc
    let (t, seq) := t.takeSeq
    let t := t.logSection seq link acc.sample
    let t := t.queueSection link acc.sample persist
    (t, true)

/-- Append a locally ingested sample. -/
def append (t : Tsdb F) (link : LinkKey) (s : RawSample F) : Tsdb F := (t.ingest link s true).1

/-- Merge samples replicated from a peer. -/
def mergeDelta (t : Tsdb F) (samples : List (LinkKey × RawSample F)) : Tsdb F :=
  samples.foldl (fun t p => (t.ingest p.1 p.2 true).1) t

end Ingest

/-! ### Gossip deltas -/

/-- Log entries numbered above `after`, at most `limit` of them, and the number of the last
    one taken. -/
def takeDelta (t : Tsdb F) (after limit : ℕ) : List (Entry F) × ℕ :=
  let start := partitionPoint (fun e => e.1 ≤ after) t.recent
  let out := (t.recent.drop start).take limit
  (out, (out.getLast?.map Prod.fst).getD after)

/-- The watermark of a peer. -/
def sentWatermark (t : Tsdb F) (peer : String) : ℕ := (t.sent.get peer).getD 0

/-- Advance the watermark of a peer. -/
def noteSent (t : Tsdb F) (peer : String) (watermark : ℕ) : Tsdb F :=
  { t with sent := t.sent.set peer watermark }

theorem sentWatermark_noteSent (t : Tsdb F) (peer p : String) (watermark : ℕ) :
    (t.noteSent peer watermark).sentWatermark p =
      if p = peer then watermark else t.sentWatermark p := by
  unfold sentWatermark noteSent
  rw [Map.get_set]
  split <;> rfl

/-- Samples newer than the peer's watermark, without advancing it (`take_for_peer`). -/
def takeForPeer (t : Tsdb F) (peer : String) : List (LinkKey × RawSample F) × ℕ :=
  let res := t.takeDelta (t.sentWatermark peer) deltaLimit
  (res.1.map Prod.snd, res.2)

/-- **What a delta holds.** Taken from a log in ascending order, it holds log entries above
    `after`, and all of them up to the number it reports. -/
theorem takeDelta_spec {t : Tsdb F} (hasc : Ascending Prod.fst t.recent) (after limit : ℕ) :
    Ascending Prod.fst (t.takeDelta after limit).1 ∧
      after ≤ (t.takeDelta after limit).2 ∧
      (∀ e ∈ (t.takeDelta after limit).1,
        e ∈ t.recent ∧ after < e.1 ∧ e.1 ≤ (t.takeDelta after limit).2) ∧
      (∀ e ∈ t.recent, after < e.1 → e.1 ≤ (t.takeDelta after limit).2 →
        e ∈ (t.takeDelta after limit).1) ∧
      ((t.takeDelta after limit).2 = after ∨
        ∃ e ∈ t.recent, e.1 = (t.takeDelta after limit).2) := by
  have hout : (t.takeDelta after limit).1 = (t.recent.filter (fun e => after < e.1)).take limit := by
    rw [← drop_partitionPoint hasc]; rfl
  have hlast : (t.takeDelta after limit).2 =
      (((t.takeDelta after limit).1.getLast?).map Prod.fst).getD after := rfl
  have hfasc : Ascending Prod.fst (t.recent.filter (fun e => after < e.1)) :=
    hasc.sublist List.filter_sublist
  have hoasc : Ascending Prod.fst (t.takeDelta after limit).1 := by
    rw [hout]; exact hfasc.sublist (List.take_sublist _ _)
  have hmem : ∀ e ∈ (t.takeDelta after limit).1, e ∈ t.recent ∧ after < e.1 := by
    intro e he
    rw [hout] at he
    obtain ⟨he, hlt⟩ := List.mem_filter.mp (List.mem_of_mem_take he)
    exact ⟨he, of_decide_eq_true hlt⟩
  cases hget : (t.takeDelta after limit).1.getLast? with
  | none =>
    -- an empty delta reports the watermark itself
    have hnil := List.getLast?_eq_none_iff.mp hget
    rw [hget] at hlast
    have hlast : (t.takeDelta after limit).2 = after := hlast
    refine ⟨hoasc, hlast.ge, fun e he => ?_, fun e _ hlt hle => ?_, Or.inl hlast⟩
    · rw [hnil] at he
      exact absurd he List.not_mem_nil
    · omega
  | some b =>
    have hb := hmem b (List.mem_of_getLast? hget)
    rw [hget] at hlast
    have hlast : (t.takeDelta after limit).2 = b.1 := hlast
    refine ⟨hoasc, by omega, fun e he => ?_, fun e he hlt hle => ?_, Or.inr ⟨b, hb.1, hlast.symm⟩⟩
    · have := hoasc.key_le_getLast he hget
      exact ⟨(hmem e he).1, (hmem e he).2, by omega⟩
    · rw [hout] at hget ⊢
      have hef : e ∈ t.recent.filter (fun e => after < e.1) :=
        List.mem_filter.mpr ⟨he, decide_eq_true hlt⟩
      exact mem_take_of_key_le hfasc hef hget (by omega)

/-! ### Retention -/

/-- The oldest second raw samples are kept from. -/
def rawCut (t : Tsdb F) (now : ℕ) : ℕ := now - t.cfg.raw_retention_secs

/-- The oldest second buckets are kept from. -/
def aggCut (t : Tsdb F) (now : ℕ) : ℕ := now - t.cfg.agg_retention_secs

/-- Under the ring lock: drop the samples outside retention.  Emptied rings stay, for their
    floor. -/
def pruneRings (t : Tsdb F) (now : ℕ) : Tsdb F :=
  { t with byLink := t.byLink.mapVal (fun _ ring => ring.prune (t.rawCut now)) }

/-- Under the bucket lock: drop the buckets outside retention, and emptied bucket lists. -/
def pruneBuckets (t : Tsdb F) (now : ℕ) : Tsdb F :=
  let pruned := t.buckets.mapVal (fun _ m => m.prune (t.aggCut now))
  { t with buckets := pruned.retain (fun _ m => !m.rows.isEmpty) }

/-- Under the log lock: pop the front entries outside retention. -/
def pruneLog (t : Tsdb F) (now : ℕ) : Tsdb F :=
  { t with recent := t.recent.dropWhile (fun e => e.2.2.ts < t.rawCut now) }

/-- Drop the samples, buckets and log entries outside the retention windows. -/
def prune (t : Tsdb F) (now : ℕ) : Tsdb F := ((t.pruneRings now).pruneBuckets now).pruneLog now

/-- A prune prunes every ring. -/
theorem ringOf_prune (t : Tsdb F) (now : ℕ) (l : LinkKey) :
    (t.prune now).ringOf l = (t.ringOf l).prune (t.rawCut now) := by
  have hget : (t.prune now).byLink.get l = (t.byLink.get l).map (·.prune (t.rawCut now)) :=
    Map.get_mapVal _ _ _
  unfold ringOf
  rw [hget]
  cases t.byLink.get l <;> rfl

/-- A prune prunes every list of buckets. -/
theorem minutesOf_prune (t : Tsdb F) (now : ℕ) (l : LinkKey) :
    (t.prune now).minutesOf l = (t.minutesOf l).prune (t.aggCut now) := by
  have hget : (t.prune now).buckets.get l =
      ((t.buckets.get l).map (·.prune (t.aggCut now))).filter (fun m => !m.rows.isEmpty) := by
    show Map.get (Map.retain _ (Map.mapVal _ t.buckets)) l = _
    rw [Map.get_retain, Map.get_mapVal]
    rfl
  unfold minutesOf
  rw [hget]
  cases t.buckets.get l with
  | none => rfl
  | some m =>
    rw [Option.map_some, Option.filter_some]
    split
    · rfl
    · -- an emptied list is dropped, and reads as an empty one
      rename_i hempty
      have hrows : (m.prune (t.aggCut now)).rows = [] := by simpa using hempty
      show Minutes.empty = m.prune (t.aggCut now)
      exact Minutes.ext_bucketAt (fun b => by simp only [Minutes.bucketAt, hrows, Minutes.empty])

/-! ### The outcomes of an ingest -/

/-- The row an accepted sample queues: none when nothing is persisted. -/
def rowsFor (t : Tsdb F) (link : LinkKey) (s : RawSample F) (persist : Bool) :
    List (LinkKey × RawSample F) :=
  if persist && t.cfg.path != "" then [(link, s)] else []

/-- The queue section appends to the queue and touches nothing else. -/
theorem queueSection_eq (t : Tsdb F) (link : LinkKey) (s : RawSample F) (persist : Bool) :
    t.queueSection link s persist = { t with pending := t.pending ++ t.rowsFor link s persist } := by
  unfold queueSection rowsFor
  split
  · rfl
  · rw [List.append_nil]

section Outcomes

variable [LinearOrder F] {t : Tsdb F} {link : LinkKey} {s : RawSample F}

/-- What offering `s` to the ring of `link` does. -/
theorem ringOf_offer_spec (t : Tsdb F) (link : LinkKey) (s : RawSample F) :
    Ring.Offer (t.ringOf link) s ((t.ringOf link).offer s).1 ((t.ringOf link).offer s).2 :=
  Ring.offer_spec _ _

variable [Zero F] [Add F]

/-- A refused sample leaves everything as it was, but for the empty ring of a new link. -/
theorem ingest_of_refused (persist : Bool) (h : ((t.ringOf link).offer s).2 = none) :
    t.ingest link s persist = ({ t with byLink := t.byLink.set link (t.ringOf link) }, false) := by
  have hspec := t.ringOf_offer_spec link s
  rw [h] at hspec
  simp only [ingest, ringSection, h, hspec.eq_of_none]

/-- An accepted sample runs through all sections. -/
theorem ingest_of_accepted (persist : Bool) {acc : Accepted F}
    (h : ((t.ringOf link).offer s).2 = some acc) :
    t.ingest link s persist =
      ({ t with
          seq := t.seq + 1
          byLink := t.byLink.set link ((t.ringOf link).offer s).1
          buckets := t.buckets.set link ((t.minutesOf link).update acc)
          dirty := t.dirty.set (link, bucketTs acc.sample.ts)
            (Minutes.rolled ((t.minutesOf link).bucketAt (bucketTs acc.sample.ts)) acc)
          recent := t.recent ++ [(t.seq, link, acc.sample)]
          pending := t.pending ++ t.rowsFor link acc.sample persist }, true) := by
  simp only [ingest, ringSection, h, queueSection_eq]
  rfl

omit [Zero F] [Add F] in
/-- The ring section offers the sample to the ring of its link. -/
theorem ringOf_ringSection (t : Tsdb F) (link : LinkKey) (s : RawSample F) (l : LinkKey) :
    (t.ringSection link s).1.ringOf l =
      if l = link then ((t.ringOf link).offer s).1 else t.ringOf l := by
  show ((t.byLink.set link ((t.ringOf link).offer s).1).get l).getD Ring.empty = _
  rw [Map.get_set]
  split <;> rfl

/-- **Frame.** An ingest offers its sample to the ring of its link and touches no other. -/
theorem ringOf_ingest (t : Tsdb F) (link : LinkKey) (s : RawSample F) (persist : Bool)
    (l : LinkKey) : (t.ingest link s persist).1.ringOf l =
      if l = link then ((t.ringOf link).offer s).1 else t.ringOf l := by
  have hset : (t.ingest link s persist).1.byLink =
      t.byLink.set link ((t.ringOf link).offer s).1 := by
    cases h : ((t.ringOf link).offer s).2 with
    | none =>
      have hspec := t.ringOf_offer_spec link s
      rw [h] at hspec
      rw [ingest_of_refused persist h, hspec.eq_of_none]
    | some acc => rw [ingest_of_accepted persist h]
  rw [ringOf, hset, Map.get_set]
  split <;> rfl

/-- After an ingest the link has a ring. -/
theorem mem_byLink_ingest (t : Tsdb F) (link : LinkKey) (s : RawSample F) (persist : Bool)
    {l : LinkKey} (hl : l = link ∨ l ∈ t.byLink) : l ∈ (t.ingest link s persist).1.byLink := by
  cases h : ((t.ringOf link).offer s).2 with
  | none => rw [ingest_of_refused persist h]; exact Map.mem_set.mpr hl
  | some acc => rw [ingest_of_accepted persist h]; exact Map.mem_set.mpr hl

/-- The number of accepted samples is counted by `seq`. -/
theorem seq_ingest (t : Tsdb F) (link : LinkKey) (s : RawSample F) (persist : Bool) :
    (t.ingest link s persist).1.seq =
      t.seq + (if ((t.ringOf link).offer s).2 = none then 0 else 1) := by
  cases h : ((t.ringOf link).offer s).2 with
  | none => rw [ingest_of_refused persist h]; rfl
  | some acc => rw [ingest_of_accepted persist h]; rfl

theorem cfg_ingest (t : Tsdb F) (link : LinkKey) (s : RawSample F) (persist : Bool) :
    (t.ingest link s persist).1.cfg = t.cfg := by
  cases h : ((t.ringOf link).offer s).2 with
  | none => rw [ingest_of_refused persist h]
  | some acc => rw [ingest_of_accepted persist h]

/-- Once its link has a ring, a refused sample changes nothing. -/
theorem ingest_eq_self (persist : Bool) (hmem : link ∈ t.byLink)
    (h : ((t.ringOf link).offer s).2 = none) : (t.ingest link s persist).1 = t := by
  obtain ⟨ring, hring⟩ := Map.exists_get_of_mem hmem
  have hof : t.ringOf link = ring := by rw [ringOf, hring]; rfl
  rw [ingest_of_refused persist h, hof, Map.set_of_get hring]

end Outcomes

end Tsdb

end Mielofon
