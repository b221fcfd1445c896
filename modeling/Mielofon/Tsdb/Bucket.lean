import Mathlib.Algebra.Group.Basic
import Mathlib.Order.Lattice
import Mielofon.Lib.Keyed
import Mielofon.Tsdb.Sample

namespace Mielofon

open Lib

/-!
# Minute buckets

Every accepted sample is rolled into a 60 s bucket of its link (`tsdb.rs`): a count of the
samples and, for each dimension, a running count, sum, minimum and maximum.  A same-second
merge counts only what the previously counted version of the sample did not have.

* `DimAgg`, `Bucket` — the aggregates;
* `Bucket.add`, `Bucket.mergeInto` — roll in a new sample, or the merge of a counted one;
* `Minutes` — the buckets of one link, in ascending order;
* `Minutes.update` — the bucket step of an ingest;
* `Minutes.bucketAt_update` — it changes the bucket of its minute alone;
* `Minutes.rolled_right_comm` — where sums are exact, two accepted samples of one minute may be
  rolled in in either order once the bucket exists.
-/

/-- Length of a per-link aggregate bucket, in seconds. -/
def bucketSecs : ℕ := 60

/-- The start of the bucket a second falls into. -/
def bucketTs (ts : ℕ) : ℕ := ts - ts % bucketSecs

/-- Running min/avg/max/count aggregate for one dimension. -/
structure DimAgg (F : Type*) where
  n : ℕ
  sum : F
  min : F
  max : F
deriving DecidableEq, Repr

/-- One 60 s per-link aggregate bucket; `n` is the number of probe samples folded in. -/
structure Bucket (F : Type*) where
  bucket : ℕ
  n : ℕ
  rtt : DimAgg F
  loss : DimAgg F
  jitter : DimAgg F
  tcp : DimAgg F
  udp : DimAgg F
  udp_jitter : DimAgg F
  udp_loss : DimAgg F
  util : DimAgg F
  mark_loss : DimAgg F
  mark_rate : DimAgg F
deriving DecidableEq, Repr

variable {F : Type*} [LinearOrder F] [Zero F] [Add F]

/-- The aggregate of nothing. -/
def DimAgg.default : DimAgg F := ⟨0, 0, 0, 0⟩

/-- Fold in one value. -/
def DimAgg.merge (a : DimAgg F) (v : F) : DimAgg F :=
  if a.n = 0 then ⟨1, v, v, v⟩
  else ⟨a.n + 1, a.sum + v, Min.min a.min v, Max.max a.max v⟩

/-- Fold in a dimension the sample has and its previously counted version had not. -/
def DimAgg.count (a : DimAgg F) (v already : Option F) : DimAgg F :=
  match v, already with
  | some v, none => a.merge v
  | _, _ => a

namespace Bucket

/-- The empty bucket. -/
def default : Bucket F :=
  ⟨0, 0, .default, .default, .default, .default, .default, .default, .default, .default,
    .default, .default⟩

/-- Fold in the dimensions `s` has that `already` has not. -/
def addDims (b : Bucket F) (s already : RawSample F) : Bucket F :=
  { b with
    rtt := b.rtt.count s.rtt_ms already.rtt_ms
    loss := b.loss.count s.loss_pct already.loss_pct
    jitter := b.jitter.count s.jitter_ms already.jitter_ms
    tcp := b.tcp.count s.tcp_mbps already.tcp_mbps
    udp := b.udp.count s.udp_mbps already.udp_mbps
    udp_jitter := b.udp_jitter.count s.udp_jitter_ms already.udp_jitter_ms
    udp_loss := b.udp_loss.count s.udp_loss_pct already.udp_loss_pct
    mark_loss := b.mark_loss.count s.mark_loss_pct already.mark_loss_pct
    mark_rate := b.mark_rate.count s.mark_rate_mbps already.mark_rate_mbps }

/-- Fold in a sample that was not counted before. -/
def add (b : Bucket F) (s : RawSample F) : Bucket F :=
  let b := { b with bucket := bucketTs s.ts }
  let b := if s.isProbe then { b with n := b.n + 1, util := b.util.merge s.util_mbps } else b
  b.addDims s .default

/-- Fold in what `s` has that `already`, the previously counted version, had not.  A probe
    merged onto a block second is counted then. -/
def mergeInto (b : Bucket F) (s already : RawSample F) : Bucket F :=
  let b := if s.isProbe && !already.isProbe then
    { b with n := b.n + 1, util := b.util.merge s.util_mbps } else b
  b.addDims s already

omit [Zero F] in
@[simp] theorem addDims_bucket (b : Bucket F) (s already : RawSample F) :
    (b.addDims s already).bucket = b.bucket := rfl

@[simp] theorem add_bucket (b : Bucket F) (s : RawSample F) :
    (b.add s).bucket = bucketTs s.ts := by
  unfold add
  split <;> rfl

omit [Zero F] in
@[simp] theorem mergeInto_bucket (b : Bucket F) (s already : RawSample F) :
    (b.mergeInto s already).bucket = b.bucket := by
  unfold mergeInto
  split <;> rfl

end Bucket

/-! ### The buckets of one link -/

/-- What the ring step of an ingest hands on: the version of the second it replaced, if any,
    and the stored version. -/
structure Accepted (F : Type*) where
  merged_from : Option (RawSample F)
  sample : RawSample F
deriving DecidableEq, Repr

/-- The buckets of one link, sorted by their start. -/
structure Minutes (F : Type*) where
  rows : List (Bucket F)
  ascending : Ascending Bucket.bucket rows

namespace Minutes

/-- No buckets. -/
def empty : Minutes F := ⟨[], List.Pairwise.nil⟩

/-- The bucket that starts at `b`. -/
def bucketAt (m : Minutes F) (b : ℕ) : Option (Bucket F) := slot Bucket.bucket b m.rows

/-- The bucket an accepted sample leaves for its minute: a new one, the old one with the
    dimensions the merge added, or the old one with the sample. -/
def rolled (held : Option (Bucket F)) (acc : Accepted F) : Bucket F :=
  match held, acc.merged_from with
  | none, _ => Bucket.default.add acc.sample
  | some b, some prev => b.mergeInto acc.sample prev
  | some b, none => b.add acc.sample

/-- Roll an accepted sample into the bucket of its minute. -/
def update (m : Minutes F) (acc : Accepted F) : Minutes F :=
  ⟨put Bucket.bucket (rolled (m.bucketAt (bucketTs acc.sample.ts)) acc) m.rows, m.ascending.put _⟩

/-- Drop the buckets that start before `cut`. -/
def prune (m : Minutes F) (cut : ℕ) : Minutes F :=
  ⟨m.rows.dropWhile (fun b => b.bucket < cut),
    m.ascending.sublist (List.dropWhile_suffix _).sublist⟩

omit [LinearOrder F] [Zero F] [Add F] in
/-- Two bucket lists with the same bucket at every start are equal. -/
theorem ext_bucketAt {m m' : Minutes F} (h : ∀ b, m.bucketAt b = m'.bucketAt b) : m = m' := by
  have hrows : m.rows = m'.rows := m.ascending.eq_of_slot m'.ascending h
  cases m; cases m'; cases hrows; rfl

omit [LinearOrder F] [Zero F] [Add F] in
/-- A prune drops the buckets that start before its cut, and no other. -/
theorem bucketAt_prune (m : Minutes F) (cut b : ℕ) :
    (m.prune cut).bucketAt b = if b < cut then none else m.bucketAt b :=
  slot_dropWhile_lt m.ascending cut b

theorem rolled_bucket {held : Option (Bucket F)} {acc : Accepted F}
    (h : ∀ b, held = some b → b.bucket = bucketTs acc.sample.ts) :
    (rolled held acc).bucket = bucketTs acc.sample.ts := by
  unfold rolled
  split
  · exact Bucket.add_bucket _ _
  · rename_i prev hprev
    rw [Bucket.mergeInto_bucket]
    exact h _ rfl
  · exact Bucket.add_bucket _ _

/-- **Frame.** An accepted sample changes the bucket of its minute alone. -/
theorem bucketAt_update (m : Minutes F) (acc : Accepted F) (b : ℕ) :
    (m.update acc).bucketAt b =
      if b = bucketTs acc.sample.ts then some (rolled (m.bucketAt (bucketTs acc.sample.ts)) acc)
      else m.bucketAt b := by
  have hkey : (rolled (m.bucketAt (bucketTs acc.sample.ts)) acc).bucket = bucketTs acc.sample.ts :=
    rolled_bucket (fun _ hb => key_of_slot m.ascending hb)
  rw [bucketAt, update, slot_put m.ascending, hkey]
  rfl

end Minutes

/-! ### The order of roll-ups -/

section Order

variable {F : Type*} [LinearOrder F] [Zero F] [AddCommSemigroup F]

omit [Zero F] in
theorem DimAgg.merge_right_comm (a : DimAgg F) (v w : F) :
    (a.merge v).merge w = (a.merge w).merge v := by
  unfold DimAgg.merge
  by_cases hn : a.n = 0
  · simp only [if_pos hn, Nat.one_ne_zero, if_false, add_comm, min_comm, max_comm]
  · simp only [if_neg hn, Nat.add_eq_zero_iff, Nat.one_ne_zero, and_false, if_false,
      add_right_comm, min_right_comm, max_right_comm]

omit [Zero F] in
theorem DimAgg.count_right_comm (a : DimAgg F) (v v' w w' : Option F) :
    (a.count v v').count w w' = (a.count w w').count v v' := by
  cases v <;> cases v' <;> cases w <;> cases w' <;>
    simp only [DimAgg.count, DimAgg.merge_right_comm]

/-- Whether a roll-up counts a probe: a new one, or one merged onto a block second. -/
def Accepted.counts (acc : Accepted F) : Bool :=
  acc.sample.isProbe && (acc.merged_from.map RawSample.isProbe).getD false == false

/-- The version the sample replaced, if any, holds nothing that a bucket counts. -/
def Accepted.Fresh (acc : Accepted F) : Prop :=
  ∀ prev, acc.merged_from = some prev → prev.isProbe = false ∧ ∀ d, prev.dim d = none

instance (acc : Accepted F) : Decidable acc.Fresh :=
  match h : acc.merged_from with
  | none => .isTrue (fun prev hprev => absurd (h.symm.trans hprev) (by simp))
  | some prev =>
    decidable_of_iff (prev.isProbe = false ∧ ∀ d, (prev.dim d).isNone)
      ⟨fun hp prev' hprev => by
        obtain rfl := Option.some.inj (h.symm.trans hprev)
        exact ⟨hp.1, fun d => Option.isNone_iff_eq_none.mp (hp.2 d)⟩,
      fun hf => ⟨(hf prev h).1, fun d => Option.isNone_iff_eq_none.mpr ((hf prev h).2 d)⟩⟩

namespace Minutes

/-- Roll an accepted sample into a bucket that exists, field by field. -/
theorem rolled_some (b : Bucket F) (acc : Accepted F)
    (hstart : b.bucket = bucketTs acc.sample.ts) :
    rolled (some b) acc =
      { bucket := b.bucket
        n := if acc.counts then b.n + 1 else b.n
        rtt := b.rtt.count acc.sample.rtt_ms (acc.merged_from.bind RawSample.rtt_ms)
        loss := b.loss.count acc.sample.loss_pct (acc.merged_from.bind RawSample.loss_pct)
        jitter := b.jitter.count acc.sample.jitter_ms (acc.merged_from.bind RawSample.jitter_ms)
        tcp := b.tcp.count acc.sample.tcp_mbps (acc.merged_from.bind RawSample.tcp_mbps)
        udp := b.udp.count acc.sample.udp_mbps (acc.merged_from.bind RawSample.udp_mbps)
        udp_jitter :=
          b.udp_jitter.count acc.sample.udp_jitter_ms (acc.merged_from.bind RawSample.udp_jitter_ms)
        udp_loss :=
          b.udp_loss.count acc.sample.udp_loss_pct (acc.merged_from.bind RawSample.udp_loss_pct)
        util := if acc.counts then b.util.merge acc.sample.util_mbps else b.util
        mark_loss :=
          b.mark_loss.count acc.sample.mark_loss_pct (acc.merged_from.bind RawSample.mark_loss_pct)
        mark_rate :=
          b.mark_rate.count acc.sample.mark_rate_mbps
            (acc.merged_from.bind RawSample.mark_rate_mbps) } := by
  obtain ⟨prev, s⟩ := acc
  cases prev with
  | none =>
    show b.add s = _
    unfold Bucket.add Accepted.counts
    cases s.isProbe <;> simp [Bucket.addDims, RawSample.default, hstart]
  | some prev =>
    show b.mergeInto s prev = _
    unfold Bucket.mergeInto Accepted.counts
    cases s.isProbe <;> cases hprev : prev.isProbe <;> simp [Bucket.addDims, hprev]

/-- A bucket that exists takes two accepted samples in either order. -/
theorem rolled_some_right_comm (b : Bucket F) (acc acc' : Accepted F)
    (hstart : b.bucket = bucketTs acc.sample.ts) (hstart' : b.bucket = bucketTs acc'.sample.ts) :
    rolled (some (rolled (some b) acc)) acc' = rolled (some (rolled (some b) acc')) acc := by
  have hkey : ∀ x : Accepted F, b.bucket = bucketTs x.sample.ts →
      (rolled (some b) x).bucket = b.bucket := fun x hx => by rw [rolled_some b x hx]
  rw [rolled_some _ acc' ((hkey acc hstart).trans hstart'),
    rolled_some _ acc ((hkey acc' hstart').trans hstart), rolled_some b acc hstart,
    rolled_some b acc' hstart']
  simp only [DimAgg.count_right_comm]
  cases acc.counts <;> cases acc'.counts <;>
    simp only [if_true, if_false, Bool.false_eq_true, DimAgg.merge_right_comm]

/-- The empty bucket of a minute. -/
def blank (start : ℕ) : Bucket F := { Bucket.default with bucket := start }

/-- A missing bucket takes a fresh sample as an empty one does. -/
theorem rolled_none {acc : Accepted F} (h : acc.Fresh) :
    rolled none acc = rolled (some (blank (bucketTs acc.sample.ts))) acc := by
  obtain ⟨prev, s⟩ := acc
  have hadd : rolled none ⟨prev, s⟩ = rolled (some (blank (bucketTs s.ts))) ⟨none, s⟩ := rfl
  rw [hadd]
  cases prev with
  | none => rfl
  | some prev =>
    obtain ⟨hprobe, hdim⟩ := h prev rfl
    have hcounts : (⟨some prev, s⟩ : Accepted F).counts = (⟨none, s⟩ : Accepted F).counts := by
      simp [Accepted.counts, hprobe]
    rw [rolled_some _ _ rfl, rolled_some _ _ rfl, hcounts]
    simp only [Option.bind_some, Option.bind_none]
    rw [show prev.rtt_ms = none from hdim .rtt, show prev.loss_pct = none from hdim .loss,
      show prev.jitter_ms = none from hdim .jitter, show prev.tcp_mbps = none from hdim .tcp,
      show prev.udp_mbps = none from hdim .udp, show prev.udp_jitter_ms = none from hdim .udp_jitter,
      show prev.udp_loss_pct = none from hdim .udp_loss,
      show prev.mark_loss_pct = none from hdim .mark_loss,
      show prev.mark_rate_mbps = none from hdim .mark_rate]

/-- **The order of roll-ups.** Two accepted samples of one minute may be rolled in in either
    order, if the bucket exists or both are fresh. -/
theorem rolled_right_comm {held : Option (Bucket F)} {acc acc' : Accepted F}
    (hminute : bucketTs acc'.sample.ts = bucketTs acc.sample.ts)
    (hkey : ∀ b, held = some b → b.bucket = bucketTs acc.sample.ts)
    (hok : held.isSome ∨ acc.Fresh ∧ acc'.Fresh) :
    rolled (some (rolled held acc)) acc' = rolled (some (rolled held acc')) acc := by
  cases held with
  | some b =>
    exact rolled_some_right_comm b acc acc' (hkey b rfl) ((hkey b rfl).trans hminute.symm)
  | none =>
    obtain ⟨hfresh, hfresh'⟩ := hok.resolve_left (by simp)
    rw [rolled_none hfresh, rolled_none hfresh', hminute]
    exact rolled_some_right_comm _ acc acc' rfl hminute.symm

end Minutes

end Order

end Mielofon
