import Mathlib
import Mielofon.Lib.Last
import Mielofon.Tsdb.Linearise

namespace Mielofon

open Lib

/-!
# The durable copy

`flush` drains the queues into one transaction on the database and prunes the rows outside
retention; `load` fills a fresh store from the database (`tsdb.rs`).  A committed transaction
takes effect as a whole, any other not at all; what was written is what is read.

* `parseLinkId` — a row names its link by id, which is read back into the three names;
* `Tsdb.drain`, `Tsdb.settle`, `Tsdb.flush` — the two ends of a flush, with the points where it
  can fail;
* `Tsdb.loadRow`, `Tsdb.loadBucket`, `Tsdb.load` — the rows and buckets within retention;
* `parseLinkId_id`, `get_insertRaw`, `get_insertAgg` — what is found under the id of a link.
-/

/-! ### Link ids -/

/-- Split at the first slash. -/
def cutSlash : List Char → Option (List Char × List Char)
  | [] => none
  | c :: cs => if c = '/' then some ([], cs) else (cutSlash cs).map fun p => (c :: p.1, p.2)

/-- The link a row belongs to.  Names of nodes have no slash. -/
def parseLinkId (id : String) : LinkKey :=
  match cutSlash id.toList with
  | some («from», rest) =>
    match cutSlash rest with
    | some («to», interface) =>
      ⟨String.ofList «from», String.ofList «to», String.ofList interface⟩
    | none => ⟨id, "", ""⟩
  | none => ⟨id, "", ""⟩

/-- The nodes of the link have no slash in their names. -/
def LinkKey.Plain (l : LinkKey) : Prop := '/' ∉ l.from.toList ∧ '/' ∉ l.to.toList

instance (l : LinkKey) : Decidable l.Plain := inferInstanceAs (Decidable (_ ∧ _))

theorem cutSlash_append {name : List Char} (h : '/' ∉ name) (rest : List Char) :
    cutSlash (name ++ '/' :: rest) = some (name, rest) := by
  induction name with
  | nil => simp [cutSlash]
  | cons c name ih =>
    rw [List.mem_cons, not_or] at h
    rw [List.cons_append, cutSlash, if_neg (Ne.symm h.1), ih h.2]
    rfl

/-- The id of a link is read back. -/
theorem parseLinkId_id {l : LinkKey} (h : l.Plain) : parseLinkId l.id = l := by
  have hid : l.id.toList = l.from.toList ++ '/' :: (l.to.toList ++ '/' :: l.interface.toList) := by
    simp [LinkKey.id, String.toList_append]
  unfold parseLinkId
  rw [hid, cutSlash_append h.1]
  dsimp only
  rw [cutSlash_append h.2]
  simp

theorem LinkKey.Plain.eq_of_id_eq {l l' : LinkKey} (h : l.Plain) (h' : l'.Plain)
    (hid : l.id = l'.id) : l = l' := by
  rw [← parseLinkId_id h, hid, parseLinkId_id h']

/-! ### A flush -/

section Tables

variable {V : Type*}

/-- Whether a row comes before another in its table. -/
def rowLe (a b : (String × ℕ) × V) : Bool := a.1.1 < b.1.1 || (a.1.1 = b.1.1 && a.1.2 ≤ b.1.2)

/-- The rows of a table, in the order of their keys. -/
def rowsOf (m : Map (String × ℕ) V) : List ((String × ℕ) × V) :=
  m.pairs.insertionSort (fun a b => rowLe a b)

theorem mem_rowsOf {m : Map (String × ℕ) V} {row : (String × ℕ) × V} :
    row ∈ rowsOf m ↔ m.get row.1 = some row.2 := by
  rw [rowsOf, (List.perm_insertionSort _ _).mem_iff]
  exact Map.mem_pairs

end Tables

variable {F : Type*}

/-- How a flush ends: no transaction was opened, an insert or the commit failed, or the
    transaction was committed. -/
inductive FlushEnd where
  | beginFailed
  | txFailed
  | committed
deriving DecidableEq, Repr

namespace Db

/-- The empty database. -/
def empty : Db F := ⟨∅, ∅⟩

def insertRaw (m : Map (String × ℕ) (RawSample F)) (raw : List (LinkKey × RawSample F)) :
    Map (String × ℕ) (RawSample F) :=
  raw.foldl (fun m p => m.set (p.1.id, p.2.ts) p.2) m

def insertAgg (m : Map (String × ℕ) (Bucket F)) (buckets : List ((LinkKey × ℕ) × Bucket F)) :
    Map (String × ℕ) (Bucket F) :=
  buckets.foldl (fun m e => m.set (e.1.1.id, e.1.2) e.2) m

/-- The transaction of a flush: insert the rows and prune what is outside retention. -/
def write (db : Db F) (raw : List (LinkKey × RawSample F))
    (buckets : List ((LinkKey × ℕ) × Bucket F)) (rawCut aggCut : ℕ) : Db F :=
  ⟨(insertRaw db.raw raw).retain (fun k _ => !(k.2 < rawCut)),
    (insertAgg db.agg buckets).retain (fun k _ => !(k.2 < aggCut))⟩

end Db

namespace Tsdb

/-- The queues are drained before a transaction is opened. -/
def drain (t : Tsdb F) :
    Tsdb F × List (LinkKey × RawSample F) × List ((LinkKey × ℕ) × Bucket F) :=
  ({ t with pending := [], dirty := ∅ }, t.pending, t.dirty.pairs)

/-- The end of a flush.  Only samples are queued again, and only when no transaction could be
    opened. -/
def settle (t : Tsdb F) (raw : List (LinkKey × RawSample F))
    (buckets : List ((LinkKey × ℕ) × Bucket F)) (now : ℕ) : FlushEnd → Tsdb F
  | .beginFailed => { t with pending := t.pending ++ raw }
  | .txFailed => t
  | .committed => { t with db := t.db.map (·.write raw buckets (t.rawCut now) (t.aggCut now)) }

/-- A flush that no ingest comes between.  Without a database nothing is done. -/
def flush (t : Tsdb F) (now : ℕ) (last : FlushEnd) : Tsdb F :=
  if t.db.isSome then
    let (t, raw, buckets) := t.drain
    t.settle raw buckets now last
  else t

/-! ### Opening the database -/

variable [LinearOrder F] [Zero F] [Add F]

/-- A raw row within retention is ingested, but not queued again. -/
def loadRow (now : ℕ) (t : Tsdb F) (row : (String × ℕ) × RawSample F) : Tsdb F :=
  if row.1.2 < t.rawCut now then t else (t.ingest (parseLinkId row.1.1) row.2 false).1

end Tsdb

/-- Insert a bucket. -/
def Minutes.insert (m : Minutes F) (b : Bucket F) : Minutes F :=
  ⟨put Bucket.bucket b m.rows, m.ascending.put b⟩

namespace Tsdb

/-- A bucket within retention is taken unless the raw rows have built one for its minute. -/
def loadBucket (now : ℕ) (t : Tsdb F) (row : (String × ℕ) × Bucket F) : Tsdb F :=
  if row.1.2 < t.aggCut now then t
  else
    let key := parseLinkId row.1.1
    match (t.minutesOf key).bucketAt row.1.2 with
    | some _ => t
    | none => { t with buckets := t.buckets.set key ((t.minutesOf key).insert row.2) }

variable [LinearOrder F] [Zero F] [Add F]

/-- Fill the store from the database. -/
def load (t : Tsdb F) (db : Db F) (now : ℕ) : Tsdb F :=
  let t := (rowsOf db.raw).foldl (loadRow now) t
  let t := (rowsOf db.agg).foldl (loadBucket now) t
  { t with db := some db }

/-- The store of a start with a database. -/
def reopen (cfg : TsConfig) (db : Db F) (now : ℕ) : Tsdb F := (new cfg).load db now

end Tsdb

/-! ### What a flush leaves in the tables -/

/-- The row of a second of a link is the last one inserted, if no other link has its id. -/
theorem Db.get_insertRaw (m : Map (String × ℕ) (RawSample F)) (raw : List (LinkKey × RawSample F))
    {l : LinkKey} (hid : ∀ p ∈ raw, p.1.id = l.id → p.1 = l) (ts : ℕ) :
    (insertRaw m raw).get (l.id, ts) = (lastRowOf l ts raw).or (m.get (l.id, ts)) := by
  unfold insertRaw lastRowOf
  rw [Map.get_foldl_set (fun p : LinkKey × RawSample F => (p.1.id, p.2.ts)) Prod.snd]
  congr 2
  unfold lastSuch
  congr 1
  apply List.filter_congr
  intro p hp
  have hlink : p.1.id = l.id ↔ p.1 = l := ⟨hid p hp, fun h => h ▸ rfl⟩
  simp [hlink]

/-- The bucket of a minute of a link is the one inserted, if there is one. -/
theorem Db.get_insertAgg (m : Map (String × ℕ) (Bucket F)) (dirty : Map (LinkKey × ℕ) (Bucket F))
    {l : LinkKey} (hid : ∀ k ∈ dirty, k.1.id = l.id → k.1 = l) (b : ℕ) :
    (insertAgg m dirty.pairs).get (l.id, b) = (dirty.get (l, b)).or (m.get (l.id, b)) := by
  unfold insertAgg
  rw [Map.get_foldl_set (fun e : (LinkKey × ℕ) × Bucket F => (e.1.1.id, e.1.2)) Prod.snd]
  congr 1
  have hkey : ∀ e ∈ dirty.pairs, (e.1.1.id, e.1.2) = (l.id, b) → e.1 = (l, b) := by
    intro e he heq
    have hmem : e.1 ∈ dirty := Map.mem_of_get (Map.mem_pairs.mp he)
    rw [Prod.mk.injEq] at heq
    exact Prod.ext (hid e.1 hmem heq.1) heq.2
  cases hlast : lastSuch (fun e => decide ((e.1.1.id, e.1.2) = (l.id, b))) dirty.pairs with
  | none =>
    -- a dirty bucket of the minute would have been inserted
    cases hget : dirty.get (l, b) with
    | none => rfl
    | some x => exact absurd (lastSuch_eq_none_iff.mp hlast _ (Map.mem_pairs.mpr hget)) (by simp)
  | some e =>
    obtain ⟨he, heq⟩ := mem_of_lastSuch hlast
    have hget := Map.mem_pairs.mp he
    rw [hkey e he (of_decide_eq_true heq)] at hget
    rw [hget]
    rfl

end Mielofon
