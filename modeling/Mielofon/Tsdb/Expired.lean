import Mielofon.Tsdb.MarkBlocks

namespace Mielofon

open Lib

/-!
# What a prune leaves behind

A prune pops each structure from its front.  The rings and the bucket lists are in order of time,
so nothing expired stays in them.  The delta log is in order of arrival: an entry that came later
than a newer one stays behind it, and is pushed to peers after its retention.

* `Tsdb.NothingExpired` — nothing is older than the cut that applies to it;
* `Tsdb.OldFirst` — no log entry older than the cut stands behind one that is not;
* `Tsdb.Timely` — a sample, if accepted, is no older than what the log holds;
* `nothing_expired_iff` — every prune of a run, and all prunes at every point of it;
* `expired_entry_stays` — an entry that is pushed after it expired.
-/

variable {F : Type*}

namespace Tsdb

/-- Nothing the store holds is older than the cut that applies to it. -/
structure NothingExpired (t : Tsdb F) (now : ℕ) : Prop where
  rings : ∀ link, ∀ s ∈ (t.ringOf link).samples, t.rawCut now ≤ s.ts
  buckets : ∀ link, ∀ b ∈ (t.minutesOf link).rows, t.aggCut now ≤ b.bucket
  log : ∀ e ∈ t.recent, t.rawCut now ≤ e.2.2.ts

/-- No log entry older than the cut stands behind one that is not. -/
def OldFirst (t : Tsdb F) (now : ℕ) : Prop :=
  t.recent.Pairwise (fun e e' => e'.2.2.ts < t.rawCut now → e.2.2.ts < t.rawCut now)

/-- The log is in order of time. -/
def TimeOrdered (t : Tsdb F) : Prop := t.recent.Pairwise (fun e e' => e.2.2.ts ≤ e'.2.2.ts)

/-- **A prune leaves nothing expired exactly when the old entries of the log come first.** -/
theorem nothingExpired_prune_iff (t : Tsdb F) (now : ℕ) :
    (t.prune now).NothingExpired now ↔ t.OldFirst now := by
  have hlog : (∀ e ∈ (t.prune now).recent, t.rawCut now ≤ e.2.2.ts) ↔ t.OldFirst now := by
    have hdrop := forall_mem_dropWhile_iff
      (fun e : Entry F => decide (e.2.2.ts < t.rawCut now)) t.recent
    simp only [decide_eq_false_iff_not, decide_eq_true_eq, not_lt] at hdrop
    exact hdrop
  refine ⟨fun h => hlog.mp h.log, fun h => ⟨fun link s hs => ?_, fun link b hb => ?_, hlog.mpr h⟩⟩
  · rw [ringOf_prune] at hs
    -- a ring is in order of time
    have hat := Ring.sampleAt_of_mem hs
    rw [Ring.sampleAt_prune] at hat
    split at hat
    · exact absurd hat (by simp)
    · rename_i hge
      exact not_lt.mp hge
  · rw [minutesOf_prune] at hb
    exact ((mem_dropWhile_lt_iff (t.minutesOf link).ascending).mp hb).2

/-- Every time the retention could cut at finds the old entries first exactly when the log is in
    order of time. -/
theorem forall_oldFirst_iff (t : Tsdb F) : (∀ now, t.OldFirst now) ↔ t.TimeOrdered := by
  constructor
  · intro h
    refine List.pairwise_iff_forall_sublist.mpr (fun {e e'} hsub => ?_)
    by_contra hlt
    -- a prune that keeps the first of the two, and the second one is older
    have hfirst := List.pairwise_iff_forall_sublist.mp
      (h (e.2.2.ts + t.cfg.raw_retention_secs)) hsub
    unfold rawCut at hfirst
    omega
  · exact fun h now => h.imp (fun hle hlt => lt_of_le_of_lt hle hlt)

variable [LinearOrder F]

/-- A sample, if the ring accepts it, is no older than what the log holds. -/
def Timely (t : Tsdb F) (link : LinkKey) (s : RawSample F) : Prop :=
  ((t.ringOf link).offer s).2.isSome → ∀ e ∈ t.recent, e.2.2.ts ≤ s.ts

variable [Zero F] [Add F]

theorem timeOrdered_ingest_iff (t : Tsdb F) (link : LinkKey) (s : RawSample F) (persist : Bool) :
    (t.ingest link s persist).1.TimeOrdered ↔ t.TimeOrdered ∧ t.Timely link s := by
  unfold TimeOrdered Timely
  cases h : ((t.ringOf link).offer s).2 with
  | none =>
    rw [ingest_of_refused persist h]
    simp
  | some acc =>
    have hspec := t.ringOf_offer_spec link s
    rw [h] at hspec
    rw [ingest_of_accepted persist h]
    show (t.recent ++ [(t.seq, link, acc.sample)]).Pairwise _ ↔ _
    simp only [List.pairwise_append, List.pairwise_singleton, List.mem_singleton, forall_eq,
      hspec.stamped, Option.isSome_some, true_and, forall_const]

theorem TimeOrdered.handle {t : Tsdb F} (h : t.TimeOrdered) {e : StoreEvent F}
    (he : ∀ link s persist, e = .ingest link s persist → t.Timely link s) :
    (t.handle e).TimeOrdered := by
  cases e with
  | ingest link s persist =>
    exact (t.timeOrdered_ingest_iff link s persist).mpr ⟨h, he link s persist rfl⟩
  | prune now => exact h.sublist (List.dropWhile_sublist _)

/-- The log is in order of time all through a run exactly when it starts so and every accepted
    sample is no older than what was logged before it. -/
theorem timeOrdered_replay_iff (t : Tsdb F) (es : List (StoreEvent F)) :
    (∀ before, before <+: es → (t.replay before).TimeOrdered) ↔
      t.TimeOrdered ∧ ∀ before link s persist, before ++ [.ingest link s persist] <+: es →
        (t.replay before).Timely link s := by
  constructor
  · refine fun h => ⟨h [] (List.nil_prefix), fun before link s persist hpre => ?_⟩
    have hafter := h _ hpre
    rw [replay_concat] at hafter
    exact ((timeOrdered_ingest_iff _ link s persist).mp hafter).2
  · rintro ⟨hstart, htimely⟩ before hpre
    induction before using List.reverseRecOn with
    | nil => exact hstart
    | append_singleton before e ih =>
      rw [replay_concat]
      refine (ih ((List.prefix_append before [e]).trans hpre)).handle ?_
      rintro link s persist rfl
      exact htimely before link s persist hpre

/-- **What a prune leaves behind.** In a state that a run reaches a prune leaves nothing expired
    exactly when no old log entry stands behind one that is not; and every prune at every point of
    the run leaves nothing expired exactly when the log starts in order of time and every accepted
    sample is no older than what was logged before it. -/
theorem nothing_expired_iff (t : Tsdb F) (es : List (StoreEvent F)) :
    (∀ now, ((t.replay es).prune now).NothingExpired now ↔ (t.replay es).OldFirst now) ∧
      ((∀ before, before <+: es → ∀ now, ((t.replay before).prune now).NothingExpired now) ↔
        t.TimeOrdered ∧ ∀ before link s persist, before ++ [.ingest link s persist] <+: es →
          (t.replay before).Timely link s) := by
  refine ⟨(t.replay es).nothingExpired_prune_iff, ?_⟩
  rw [← timeOrdered_replay_iff]
  simp only [nothingExpired_prune_iff, forall_oldFirst_iff]

/-- A sample of second 100 comes from a peer after one of second 200. -/
private def lateArrival : List (StoreEvent ℕ) :=
  [.ingest ⟨"hub-a", "hub-b", "awg0"⟩ (RawSample.fromDims .quiet 200 none none none none 0) true,
    .ingest ⟨"hub-a", "hub-c", "awg1"⟩ (RawSample.fromDims .quiet 100 none none none none 0) true]

/-- A prune at 250 that keeps the last 100 seconds drops the late sample from its ring and not from
    the log. -/
theorem expired_entry_stays :
    ¬ ∀ (cfg : TsConfig) (es : List (StoreEvent ℕ)) (now : ℕ),
      (((new cfg).replay es).prune now).NothingExpired now := by
  intro hall
  have hclean := hall ⟨"", 100, 1000⟩ lateArrival 250
  exact absurd (hclean.log (2, ⟨"hub-a", "hub-c", "awg1"⟩,
    RawSample.fromDims .quiet 100 none none none none 0) (by decide)) (by decide)

-- the delta of a peer still carries it
example : ((((new ⟨"", 100, 1000⟩).replay lateArrival).prune 250).takeForPeer "hub-d").1.map
    (fun p => p.2.ts) = [200, 100] := by decide

end Tsdb

end Mielofon
