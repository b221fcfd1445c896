import Mathlib
import Mielofon.Lib.Folds
import Mielofon.Tsdb.Counting

namespace Mielofon

open Lib

/-!
# Buckets under replays

The roll-up is additive, while samples are delivered again and again: by gossip, by a peer that
was away, by a reload.  What keeps a bucket from counting a sample twice is the ring, which holds
the second or has shut it out, as long as the bucket of every held second is there.  Retention
keeps it there when buckets outlive samples by a whole bucket.

* `LedgerEvent`, `Ledger` — local ingests, batches of a peer and prunes, and the samples accepted on
  the way;
* `Tsdb.Settled` — a sample is shut out, or stated by its second, whose bucket exists;
* `Settled.ingest`, `Settled.prune` — every step keeps that;
* `Settled.replay` — such a sample leaves every bucket as it is;
* `Tsdb.Onward` — floors rise, and what a ring drops it shuts out;
* `replay_safe` — every run.
-/

/-- What happens to a store. -/
inductive LedgerEvent (F : Type*) where
  | append (link : LinkKey) (s : RawSample F)
  | merge (samples : List (LinkKey × RawSample F))
  | prune (now : ℕ)

/-- A store, and every sample it accepted: as it was delivered, and as the ring then held it. -/
structure Ledger (F : Type*) where
  tsdb : Tsdb F
  accepted : List (LinkKey × RawSample F)

variable {F : Type*} [LinearOrder F] [Zero F] [Add F]

namespace Ledger

omit [LinearOrder F] [Zero F] [Add F] in
/-- Nothing was delivered yet. -/
def start (t : Tsdb F) : Ledger F := ⟨t, []⟩

/-- Ingest one sample. -/
def ingest (x : Ledger F) (p : LinkKey × RawSample F) : Ledger F :=
  ⟨(x.tsdb.ingest p.1 p.2 true).1,
    x.accepted ++ match ((x.tsdb.ringOf p.1).offer p.2).2 with
      | some acc => [p, (p.1, acc.sample)]
      | none => []⟩

def step (x : Ledger F) : LedgerEvent F → Ledger F
  | .append link s => x.ingest (link, s)
  | .merge samples => samples.foldl ingest x
  | .prune now => { x with tsdb := x.tsdb.prune now }

/-- The ledger after a run. -/
def after (x : Ledger F) (es : List (LedgerEvent F)) : Ledger F := es.foldl step x

/-- The ledger of a run from a store. -/
def run (t : Tsdb F) (es : List (LedgerEvent F)) : Ledger F := (start t).after es

/-- The store goes through the operations of the code. -/
theorem tsdb_step (x : Ledger F) (e : LedgerEvent F) : (x.step e).tsdb = match e with
    | .append link s => x.tsdb.append link s
    | .merge samples => x.tsdb.mergeDelta samples
    | .prune now => x.tsdb.prune now := by
  cases e with
  | append link s => rfl
  | prune now => rfl
  | merge samples =>
    show (samples.foldl ingest x).tsdb = x.tsdb.mergeDelta samples
    unfold Tsdb.mergeDelta
    induction samples generalizing x with
    | nil => rfl
    | cons p samples ih => exact ih (x.ingest p)

end Ledger

/-! ### A merge that counts nothing -/

omit [Zero F] in
/-- A merge with nothing more than its previous version counts nothing. -/
theorem Bucket.mergeInto_eq_self (b : Bucket F) {s already : RawSample F}
    (hprobe : s.isProbe = already.isProbe) (hdim : ∀ d, (s.dim d).isSome = (already.dim d).isSome) :
    b.mergeInto s already = b := by
  have hcount : ∀ (d : Dim) (a : DimAgg F), a.count (s.dim d) (already.dim d) = a := by
    intro d a
    have hd := hdim d
    cases hs : s.dim d with
    | none => rfl
    | some v =>
      cases hold : already.dim d with
      | none => rw [hs, hold] at hd; exact absurd hd (by simp)
      | some w => rfl
  have hcond : ¬ (s.isProbe && !already.isProbe) = true := by
    rw [hprobe]
    cases already.isProbe <;> decide
  unfold mergeInto
  rw [if_neg hcond]
  have hrtt := hcount .rtt b.rtt
  have hloss := hcount .loss b.loss
  have hjitter := hcount .jitter b.jitter
  have htcp := hcount .tcp b.tcp
  have hudp := hcount .udp b.udp
  have hudpjitter := hcount .udp_jitter b.udp_jitter
  have hudploss := hcount .udp_loss b.udp_loss
  have hmarkloss := hcount .mark_loss b.mark_loss
  have hmarkrate := hcount .mark_rate b.mark_rate
  simp only [RawSample.dim] at hrtt hloss hjitter htcp hudp hudpjitter hudploss hmarkloss hmarkrate
  simp only [addDims, hrtt, hloss, hjitter, htcp, hudp, hudpjitter, hudploss, hmarkloss, hmarkrate]

/-! ### A settled sample -/

omit [Zero F] [Add F] in
/-- What is accepted states the sample offered. -/
theorem Ring.Offer.stated {r r' : Ring F} {s : RawSample F} {acc : Accepted F}
    (h : Offer r s r' (some acc)) : s.Stated acc.sample := by
  cases h with
  | merged held => exact (RawSample.within_mergedWith_right held s).stated
  | added | evicted => exact (RawSample.Within.refl s).stated

omit [Zero F] [Add F] in
/-- What is accepted onto a second that is held is the merge. -/
theorem Ring.Offer.eq_merged {r r' : Ring F} {s held : RawSample F} {acc : Accepted F}
    (h : Offer r s r' (some acc)) (hheld : r.sampleAt s.ts = some held) :
    acc = ⟨some held, held.mergedWith s⟩ := by
  cases h with
  | merged held' _ _ hheld' =>
    obtain rfl := Option.some.inj (hheld'.symm.trans hheld)
    rfl
  | added _ _ hnone | evicted _ _ _ hnone => exact absurd (hnone.symm.trans hheld) (by simp)

namespace Tsdb

omit [Zero F] [Add F] in
/-- The second of the sample is shut out, or its ring states the sample and its bucket is there. -/
def Settled (t : Tsdb F) (l : LinkKey) (s : RawSample F) : Prop :=
  s.ts ≤ (t.ringOf l).floor ∨
    ((t.minutesOf l).bucketAt (bucketTs s.ts)).isSome ∧
      ∃ held, (t.ringOf l).sampleAt s.ts = some held ∧ s.Stated held

variable {t : Tsdb F} {l link : LinkKey} {s x : RawSample F}

/-- A refused sample leaves the buckets alone. -/
theorem minutesOf_ingest_of_refused (persist : Bool) (h : ((t.ringOf link).offer s).2 = none)
    (l : LinkKey) : (t.ingest link s persist).1.minutesOf l = t.minutesOf l := by
  rw [ingest_of_refused persist h]
  rfl

/-- No ingest removes a bucket. -/
theorem isSome_bucketAt_ingest (link : LinkKey) (s : RawSample F) (persist : Bool) {start : ℕ}
    (h : ((t.minutesOf l).bucketAt start).isSome) :
    (((t.ingest link s persist).1.minutesOf l).bucketAt start).isSome := by
  cases hacc : ((t.ringOf link).offer s).2 with
  | none => rwa [minutesOf_ingest_of_refused persist hacc]
  | some acc =>
    rw [minutesOf_ingest persist hacc, bucketAt_bucketSection]
    split
    · rfl
    · exact h

/-- Whatever is ingested, a settled sample stays settled. -/
theorem Settled.ingest (h : t.Settled l x) (link : LinkKey) (s : RawSample F) (persist : Bool) :
    (t.ingest link s persist).1.Settled l x := by
  unfold Settled at h ⊢
  rw [ringOf_ingest]
  by_cases hl : l = link
  · subst hl
    rw [if_pos rfl]
    have hoffer := t.ringOf_offer_spec l s
    rcases h with hfloor | ⟨hbucket, held, hheld, hst⟩
    · exact Or.inl (hfloor.trans hoffer.floor_le)
    · -- the version held is evicted, stays, or is merged onto and states the sample still
      have hbucket' := isSome_bucketAt_ingest l s persist hbucket
      rcases hoffer.kept hheld with hshut | hsame | ⟨-, hmerged⟩
      · exact Or.inl hshut
      · exact Or.inr ⟨hbucket', held, hsame, hst⟩
      · exact Or.inr ⟨hbucket', _, hmerged, hst.mergedWith s⟩
  · rw [if_neg hl]
    exact h.imp id (fun ⟨hbucket, hheld⟩ => ⟨isSome_bucketAt_ingest link s persist hbucket, hheld⟩)

/-- An accepted sample is settled, and so is the version the ring holds of it. -/
theorem settled_of_accepted (persist : Bool) {acc : Accepted F}
    (hacc : ((t.ringOf link).offer s).2 = some acc) :
    (t.ingest link s persist).1.Settled link s ∧
      (t.ingest link s persist).1.Settled link acc.sample := by
  have hoffer := t.ringOf_offer_spec link s
  rw [hacc] at hoffer
  obtain ⟨-, -, hheld⟩ := hoffer.accepted
  have hbucket : (((t.ingest link s persist).1.minutesOf link).bucketAt (bucketTs s.ts)).isSome := by
    rw [minutesOf_ingest persist hacc, bucketAt_bucketSection, hoffer.stamped, if_pos ⟨rfl, rfl⟩]
    rfl
  have hring : ((t.ingest link s persist).1.ringOf link).sampleAt s.ts = some acc.sample := by
    rw [ringOf_ingest, if_pos rfl, hheld]
  refine ⟨Or.inr ⟨hbucket, acc.sample, hring, hoffer.stated⟩, Or.inr ?_⟩
  rw [hoffer.stamped]
  exact ⟨hbucket, acc.sample, hring, (RawSample.Within.refl _).stated⟩

/-! ### Retention -/

omit [LinearOrder F] [Zero F] [Add F] in
/-- Where buckets outlive samples by a bucket, the bucket of a second that is kept is kept. -/
theorem aggCut_le_bucketTs (hret : t.cfg.raw_retention_secs + bucketSecs ≤ t.cfg.agg_retention_secs)
    {now ts : ℕ} (hts : t.rawCut now ≤ ts) : t.aggCut now ≤ bucketTs ts := by
  unfold rawCut at hts
  unfold aggCut bucketTs
  have hmod : ts % bucketSecs < bucketSecs := Nat.mod_lt _ (by decide)
  omega

omit [Zero F] [Add F] in
theorem Settled.prune (hret : t.cfg.raw_retention_secs + bucketSecs ≤ t.cfg.agg_retention_secs)
    (h : t.Settled l x) (now : ℕ) : (t.prune now).Settled l x := by
  unfold Settled at h ⊢
  rw [ringOf_prune, minutesOf_prune]
  rcases h with hfloor | ⟨hbucket, held, hheld, hst⟩
  · exact Or.inl (hfloor.trans (Ring.floor_le_prune _ _))
  · rcases Nat.lt_or_ge x.ts (t.rawCut now) with hold | hkept
    · exact Or.inl (Ring.le_floor_prune (Ring.mem_seconds.mpr ⟨held, hheld⟩) hold)
    · -- the second is kept, and retention lets its bucket outlive it
      refine Or.inr ⟨?_, held, ?_, hst⟩
      · rwa [Minutes.bucketAt_prune, if_neg (Nat.not_lt.mpr (aggCut_le_bucketTs hret hkept))]
      · rwa [Ring.sampleAt_prune, if_neg (Nat.not_lt.mpr hkept)]

/-! ### A sample delivered again -/

/-- A settled sample leaves every bucket as it is. -/
theorem Settled.replay (h : t.Settled link s) (persist : Bool) (l : LinkKey) :
    (t.ingest link s persist).1.minutesOf l = t.minutesOf l := by
  cases hacc : ((t.ringOf link).offer s).2 with
  | none => exact minutesOf_ingest_of_refused persist hacc l
  | some acc =>
    have hoffer := t.ringOf_offer_spec link s
    rw [hacc] at hoffer
    obtain ⟨hfloor, hprev, -⟩ := hoffer.accepted
    rcases h with hshut | ⟨hbucket, held, hheld, hst⟩
    · exact absurd hfloor (Nat.not_lt.mpr hshut)
    · -- what was accepted is a merge onto the version held, which states no more than it did
      have hmerged := hoffer.eq_merged hheld
      obtain ⟨b, hb⟩ := Option.isSome_iff_exists.mp hbucket
      have hsame : Minutes.rolled (some b) acc = b := by
        rw [hmerged]
        exact b.mergeInto_eq_self hst.isProbe_mergedWith hst.isSome_dim_mergedWith
      apply Minutes.ext_bucketAt
      intro start
      rw [minutesOf_ingest persist hacc, bucketAt_bucketSection]
      split
      · rename_i hat
        -- the bucket of the sample itself, which the merge adds nothing to
        obtain ⟨rfl, rfl⟩ := hat
        rw [hoffer.stamped, hb, hsame]
      · rfl

/-! ### What a ring drops -/

omit [LinearOrder F] [Zero F] [Add F] in
/-- No floor has sunk since, and every second held is held still or shut out. -/
def Onward (t t' : Tsdb F) : Prop :=
  ∀ l, (t.ringOf l).floor ≤ (t'.ringOf l).floor ∧
    ∀ ts ∈ (t.ringOf l).seconds, ts ∈ (t'.ringOf l).seconds ∨ ts ≤ (t'.ringOf l).floor

omit [LinearOrder F] [Zero F] [Add F] in
theorem Onward.refl (t : Tsdb F) : t.Onward t :=
  fun _ => ⟨le_rfl, fun _ hts => Or.inl hts⟩

omit [LinearOrder F] [Zero F] [Add F] in
theorem Onward.trans {t t' t'' : Tsdb F} (h : t.Onward t') (h' : t'.Onward t'') : t.Onward t'' := by
  intro l
  refine ⟨(h l).1.trans (h' l).1, fun ts hts => ?_⟩
  rcases (h l).2 ts hts with hheld | hshut
  · exact (h' l).2 ts hheld
  · exact Or.inr (hshut.trans (h' l).1)

theorem onward_ingest (t : Tsdb F) (link : LinkKey) (s : RawSample F) (persist : Bool) :
    t.Onward (t.ingest link s persist).1 := by
  intro l
  rw [ringOf_ingest]
  split
  · rename_i hl
    subst hl
    have hoffer := t.ringOf_offer_spec l s
    refine ⟨hoffer.floor_le, fun ts hts => ?_⟩
    obtain ⟨held, hheld⟩ := Ring.mem_seconds.mp hts
    rcases hoffer.kept hheld with hshut | hsame | ⟨-, hmerged⟩
    · exact Or.inr hshut
    · exact Or.inl (Ring.mem_seconds.mpr ⟨_, hsame⟩)
    · exact Or.inl (Ring.mem_seconds.mpr ⟨_, hmerged⟩)
  · exact ⟨le_rfl, fun _ hts => Or.inl hts⟩

omit [LinearOrder F] [Zero F] [Add F] in
theorem onward_prune (t : Tsdb F) (now : ℕ) : t.Onward (t.prune now) := by
  intro l
  rw [ringOf_prune]
  refine ⟨Ring.floor_le_prune _ _, fun ts hts => ?_⟩
  rcases Nat.lt_or_ge ts (t.rawCut now) with hold | hkept
  · exact Or.inr (Ring.le_floor_prune hts hold)
  · obtain ⟨held, hheld⟩ := Ring.mem_seconds.mp hts
    refine Or.inl (Ring.mem_seconds.mpr ⟨held, ?_⟩)
    rwa [Ring.sampleAt_prune, if_neg (Nat.not_lt.mpr hkept)]

omit [LinearOrder F] [Zero F] [Add F] in
/-- A second that was dropped is not held later. -/
theorem Onward.not_mem {t t' t'' : Tsdb F} (h : t.Onward t') (h' : t'.Onward t'') {ts : ℕ}
    (hts : ts ∈ (t.ringOf l).seconds) (hdropped : ts ∉ (t'.ringOf l).seconds) :
    ts ∉ (t''.ringOf l).seconds := by
  intro hback
  -- dropped means shut out, and floors only rise
  have hshut : ts ≤ (t'.ringOf l).floor := ((h l).2 ts hts).resolve_left hdropped
  have := Ring.floor_lt_of_mem_seconds hback
  have := (h' l).1
  omega

end Tsdb

/-! ### Runs -/

namespace Ledger

variable {x : Ledger F}

/-- Every sample accepted so far is settled, and buckets outlive samples by a bucket. -/
structure Safe (x : Ledger F) : Prop where
  outlive : x.tsdb.cfg.raw_retention_secs + bucketSecs ≤ x.tsdb.cfg.agg_retention_secs
  settled : ∀ p ∈ x.accepted, x.tsdb.Settled p.1 p.2

theorem Safe.ingest (h : x.Safe) (p : LinkKey × RawSample F) : (x.ingest p).Safe := by
  refine ⟨?_, fun q hq => ?_⟩
  · show (x.tsdb.ingest p.1 p.2 true).1.cfg.raw_retention_secs + bucketSecs ≤ _
    rw [Ledger.ingest, Tsdb.cfg_ingest]
    exact h.outlive
  · rcases List.mem_append.mp hq with hq | hq
    · exact (h.settled q hq).ingest p.1 p.2 true
    · split at hq
      · rename_i acc hacc
        obtain ⟨hs, hversion⟩ := Tsdb.settled_of_accepted true hacc
        rcases List.mem_cons.mp hq with rfl | hq
        · exact hs
        · rw [List.mem_singleton.mp hq]
          exact hversion
      · exact absurd hq List.not_mem_nil

theorem Safe.step (h : x.Safe) (e : LedgerEvent F) : (x.step e).Safe := by
  cases e with
  | append link s => exact h.ingest (link, s)
  | merge samples =>
    show (samples.foldl Ledger.ingest x).Safe
    -- a batch is its samples one after another
    induction samples generalizing x with
    | nil => exact h
    | cons p samples ih => exact ih (h.ingest p)
  | prune now => exact ⟨h.outlive, fun p hp => (h.settled p hp).prune h.outlive now⟩

theorem Safe.after (h : x.Safe) (es : List (LedgerEvent F)) : (x.after es).Safe := by
  induction es generalizing x with
  | nil => exact h
  | cons e es ih => exact ih (h.step e)

theorem onward_step (x : Ledger F) (e : LedgerEvent F) : x.tsdb.Onward (x.step e).tsdb := by
  cases e with
  | append link s => exact Tsdb.onward_ingest _ _ _ _
  | merge samples =>
    exact foldl_rel (R := fun x y : Ledger F => x.tsdb.Onward y.tsdb) (fun _ => Tsdb.Onward.refl _)
      (fun _ _ _ => Tsdb.Onward.trans) (fun x p => Tsdb.onward_ingest _ _ _ _) samples x
  | prune now => exact Tsdb.onward_prune _ _

theorem onward_after (x : Ledger F) (es : List (LedgerEvent F)) : x.tsdb.Onward (x.after es).tsdb :=
  foldl_rel (R := fun x y : Ledger F => x.tsdb.Onward y.tsdb) (fun _ => Tsdb.Onward.refl _)
    (fun _ _ _ => Tsdb.Onward.trans) onward_step es x

/-- A batch of settled samples leaves every bucket as it is. -/
theorem Safe.replay_batch (h : x.Safe) {samples : List (LinkKey × RawSample F)}
    (hmem : ∀ p ∈ samples, p ∈ x.accepted) (l : LinkKey) :
    (x.tsdb.mergeDelta samples).minutesOf l = x.tsdb.minutesOf l := by
  induction samples generalizing x with
  | nil => rfl
  | cons p samples ih =>
    have hp := h.settled p (hmem p List.mem_cons_self)
    have hrest : ∀ q ∈ samples, q ∈ (x.ingest p).accepted :=
      fun q hq => List.mem_append_left _ (hmem q (List.mem_cons_of_mem _ hq))
    exact (ih (h.ingest p) hrest).trans (hp.replay true l)

end Ledger

/-- **Buckets are replay-safe.** On a store whose buckets outlive its samples by a bucket, after
    every run of local ingests, batches and prunes: a sample accepted on the way, delivered again
    on its own or in a batch of such samples, leaves every bucket as it is; every ring ascends and
    lies above its floor; and whatever happens next, no floor sinks, and a second that a ring has
    dropped does not come back. -/
theorem replay_safe (t : Tsdb F)
    (hret : t.cfg.raw_retention_secs + bucketSecs ≤ t.cfg.agg_retention_secs)
    (es : List (LedgerEvent F)) :
    (∀ p ∈ (Ledger.run t es).accepted, ∀ l,
      ((Ledger.run t es).tsdb.append p.1 p.2).minutesOf l = (Ledger.run t es).tsdb.minutesOf l) ∧
    (∀ samples, (∀ p ∈ samples, p ∈ (Ledger.run t es).accepted) → ∀ l,
      ((Ledger.run t es).tsdb.mergeDelta samples).minutesOf l =
        (Ledger.run t es).tsdb.minutesOf l) ∧
    (∀ l, ((Ledger.run t es).tsdb.ringOf l).samples.Pairwise (fun a b => a.ts < b.ts) ∧
      ∀ s ∈ ((Ledger.run t es).tsdb.ringOf l).samples,
        ((Ledger.run t es).tsdb.ringOf l).floor < s.ts) ∧
    (∀ l more, ((Ledger.run t es).tsdb.ringOf l).floor ≤
      ((Ledger.run t (es ++ more)).tsdb.ringOf l).floor) ∧
    ∀ l more later, ∀ ts ∈ ((Ledger.run t es).tsdb.ringOf l).seconds,
      ts ∉ ((Ledger.run t (es ++ more)).tsdb.ringOf l).seconds →
        ts ∉ ((Ledger.run t (es ++ more ++ later)).tsdb.ringOf l).seconds := by
  have hsafe : (Ledger.run t es).Safe :=
    Ledger.Safe.after ⟨hret, fun p hp => absurd hp List.not_mem_nil⟩ es
  have hrun : ∀ es more, Ledger.run t (es ++ more) = (Ledger.run t es).after more :=
    fun es more => List.foldl_append
  refine ⟨fun p hp l => (hsafe.settled p hp).replay true l,
    fun samples hmem l => hsafe.replay_batch hmem l,
    fun l => ⟨Ring.ascending _, Ring.above _⟩, fun l more => ?_, fun l more later ts hts hdropped => ?_⟩
  · rw [hrun]
    exact (Ledger.onward_after _ more l).1
  · rw [hrun (es ++ more), hrun es]
    rw [hrun es] at hdropped
    exact (Ledger.onward_after _ more).not_mem (Ledger.onward_after _ later) hts hdropped

/-! ### An amended second, amended back -/

section Example

private def spoke : LinkKey := ⟨"node-0", "hub-a", "awg_hub_a"⟩

private def pinged (rtt : ℕ) : RawSample ℕ :=
  RawSample.fromDims .quiet 1000 (some rtt) none none none 0

/-- A second is probed twice, and retention runs. -/
private def probedTwice : Ledger ℕ :=
  Ledger.run (Tsdb.new ⟨"", 7200, 604800⟩)
    [.append spoke (pinged 10), .merge [(spoke, pinged 20)], .prune 1100]

/-- The first probe, delivered again, amends the ring and not the bucket. -/
theorem first_probe_counts_once :
    (probedTwice.tsdb.append spoke (pinged 10)).minutesOf spoke = probedTwice.tsdb.minutesOf spoke ∧
      ((probedTwice.tsdb.append spoke (pinged 10)).ringOf spoke).sampleAt 1000 ≠
        (probedTwice.tsdb.ringOf spoke).sampleAt 1000 := by
  have hsafe := replay_safe (Tsdb.new ⟨"", 7200, 604800⟩) (by decide)
    [.append spoke (pinged 10), .merge [(spoke, pinged 20)], .prune 1100]
  exact ⟨hsafe.1 (spoke, pinged 10) (by decide) spoke, by decide⟩

end Example

end Mielofon
