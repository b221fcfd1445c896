import Mathlib
import Mielofon.Gossip.Cluster

namespace Mielofon

open Lib

/-!
# A record with a single writer

One member derives the record of a link; the others only merge.  The merge lets an equal
timestamp win, so a copy that went out before a second put under the same timestamp replaces
the newer record when it comes back.

* `Written` — a cluster, and as history the record its owner put last;
* `SingleWriter` — only the owner puts the record, with timestamps that do not decrease;
* `Unshared` — no other copy carries the timestamp of a differing record that is put;
* `record_never_regresses` — under both the owner holds what it put last, at every moment;
* `echo_regresses` — a run in which an answer brings the older record back.
-/

variable {F M : Type*}

/-- A cluster, and the record of the link its owner put last. -/
structure Written (M F : Type*) where
  cluster : Cluster M F
  last : Option (QualityRecord F)

variable [DecidableEq M]

/-- The record put last after an action: a put of the owner on the link is remembered. -/
def lastAfter (owner : M) (k : LinkKey) (last : Option (QualityRecord F)) :
    Action M F → Option (QualityRecord F)
  | .put m key rec => if m = owner ∧ key = k then some rec else last
  | .prune .. | .setNode .. | .push .. | .advance _ | .lose _ => last

/-- One action of the cluster. -/
def writerStep (grace : ℕ) (owner : M) (k : LinkKey) (w : Written M F) (a : Action M F) :
    Option (Written M F) :=
  (step grace w.cluster a).map (fun c => ⟨c, lastAfter owner k w.last a⟩)

/-- Only `owner` puts records of `k`, with timestamps that do not decrease, and nothing is
    pruned. -/
def SingleWriter (owner : M) (k : LinkKey) (w : Written M F) : Action M F → Prop
  | .put m key rec => key = k → m = owner ∧ ∀ prev ∈ w.last, prev.ts ≤ rec.ts
  | .prune .. => False
  | .setNode .. | .push .. | .advance _ | .lose _ => True

/-- A record put on `k` has a timestamp that no differing record of `k` carries, held by
    another member or by an exchange under way. -/
def Unshared (owner : M) (k : LinkKey) (w : Written M F) : Action M F → Prop
  | .put _ key rec => key = k →
    (∀ p, p ≠ owner → ∀ r ∈ (w.cluster.kv p).get k, r.ts = rec.ts → r = rec) ∧
      ∀ msg ∈ w.cluster.flight, ∀ e ∈ msg.records, e.1 = k → e.2.ts = rec.ts → e.2 = rec
  | .prune .. | .setNode .. | .push .. | .advance _ | .lose _ => True

instance (owner : M) (k : LinkKey) (w : Written M F) (a : Action M F) :
    Decidable (SingleWriter owner k w a) :=
  match a with
  | .put m key rec =>
    inferInstanceAs (Decidable (key = k → m = owner ∧ ∀ prev ∈ w.last, prev.ts ≤ rec.ts))
  | .prune .. => .isFalse id
  | .setNode .. | .push .. | .advance _ | .lose _ => .isTrue trivial

instance [Fintype M] [DecidableEq F] (owner : M) (k : LinkKey) (w : Written M F)
    (a : Action M F) : Decidable (Unshared owner k w a) :=
  match a with
  | .put _ key rec => inferInstanceAs (Decidable (key = k →
    (∀ p, p ≠ owner → ∀ r ∈ (w.cluster.kv p).get k, r.ts = rec.ts → r = rec) ∧
      ∀ msg ∈ w.cluster.flight, ∀ e ∈ msg.records, e.1 = k → e.2.ts = rec.ts → e.2 = rec))
  | .prune .. | .setNode .. | .push .. | .advance _ | .lose _ => .isTrue trivial

/-! ### The copies outside the owner -/

omit [DecidableEq M] in
/-- Another member holds `r` for `k`, or an exchange carries it. -/
def Cluster.Elsewhere (c : Cluster M F) (owner : M) (k : LinkKey) (r : QualityRecord F) : Prop :=
  (∃ p, p ≠ owner ∧ (c.kv p).get k = some r) ∨ ∃ msg ∈ c.flight, (k, r) ∈ msg.records

omit [DecidableEq M] in
theorem Cluster.Elsewhere.copy {c : Cluster M F} {owner : M} {k : LinkKey} {r : QualityRecord F}
    (h : c.Elsewhere owner k r) : c.Copy k r :=
  h.imp (fun ⟨p, _, hp⟩ => ⟨p, hp⟩) id

theorem Cluster.Copy.elsewhere {c : Cluster M F} {k : LinkKey} {r : QualityRecord F}
    (h : c.Copy k r) (owner : M) : (c.kv owner).get k = some r ∨ c.Elsewhere owner k r := by
  rcases h with ⟨p, hp⟩ | h
  · by_cases hpo : p = owner
    · exact Or.inl (hpo ▸ hp)
    · exact Or.inr (Or.inl ⟨p, hpo, hp⟩)
  · exact Or.inr (Or.inr h)

/-- The owner holds the record it put last, and every other copy is that record or an older
    one. -/
structure WriterInv (owner : M) (k : LinkKey) (w : Written M F) : Prop where
  stored : (w.cluster.kv owner).get k = w.last
  older : ∀ r, w.cluster.Elsewhere owner k r →
    ∃ cur, w.last = some cur ∧ (r.ts < cur.ts ∨ r = cur)

omit [DecidableEq M] in
/-- Merging older copies leaves the record of the owner as it is. -/
private theorem merge_older {s : LwwStore F} {v : View F} {k : LinkKey}
    {last : Option (QualityRecord F)} (hs : s.get k = last)
    (hold : ∀ r, (k, r) ∈ v.records → ∃ cur, last = some cur ∧ (r.ts < cur.ts ∨ r = cur)) :
    (s.merge v.records).get k = last := by
  by_cases hk : k ∈ v.records.map Prod.fst
  · obtain ⟨⟨k', r⟩, hr, rfl⟩ := List.mem_map.mp hk
    obtain ⟨cur, hcur, hle⟩ := hold r hr
    rw [LwwStore.get_merge_of_nodup v.nodup hr, hs, hcur]
    rcases hle with hlt | rfl
    · exact if_neg (not_le.mpr hlt)
    · exact ite_self _
  · rw [LwwStore.get_merge_of_notMem hk, hs]

/-- No action but a put of the owner changes the record of the owner. -/
private theorem stored_of_step {grace : ℕ} {owner : M} {k : LinkKey} {w : Written M F}
    {c' : Cluster M F} {a : Action M F} (h : WriterInv owner k w)
    (hok : SingleWriter owner k w a) (hput : NoPut k w.cluster a)
    (hs : step grace w.cluster a = some c') : (c'.kv owner).get k = w.last := by
  have hupdate : ∀ (m : M) (s : LwwStore F), s.get k = (w.cluster.kv m).get k →
      (Function.update w.cluster.kv m s owner).get k = w.last := by
    intro m s hm
    by_cases ho : owner = m
    · subst ho
      rw [Function.update_self, hm, h.stored]
    · rw [Function.update_of_ne ho, h.stored]
  -- whatever the owner hears of its own link is older than what it holds
  have habsorb : ∀ (m : M) (v : View F) (nodes : List (String × NodeEntry)),
      (∃ msg ∈ w.cluster.flight, v.records = msg.records) →
        (absorb w.cluster.kv m v nodes owner).get k = w.last := by
    rintro m v nodes ⟨msg, hmsg, hrec⟩
    by_cases ho : owner = m
    · subst ho
      rw [absorb_self_get]
      exact merge_older h.stored (fun r hr => h.older r (Or.inr ⟨msg, hmsg, hrec ▸ hr⟩))
    · rw [absorb_of_ne w.cluster.kv v nodes ho, h.stored]
  cases a with
  | put m key rec =>
    obtain rfl := Option.some.inj hs
    exact hupdate m _ (LwwStore.get_put_of_ne _ _ (Ne.symm hput))
  | setNode m rid name links ts =>
    obtain rfl := Option.some.inj hs
    exact hupdate m _ (LwwStore.setNode_get _ _ _ _ _ _)
  | prune m now => exact hok.elim
  | push src dst =>
    simp only [step] at hs
    split at hs
    · exact absurd hs (by simp)
    · obtain rfl := Option.some.inj hs
      exact h.stored
  | advance i =>
    simp only [step] at hs
    split at hs
    · exact absurd hs (by simp)
    · rename_i msg hi
      obtain rfl := Option.some.inj hs
      have hmem : msg ∈ w.cluster.flight := List.mem_of_getElem? hi
      cases msg with
      | queued src dst v => exact h.stored
      | request src dst v nodes => exact habsorb dst v nodes ⟨_, hmem, rfl⟩
      | merged src dst => exact h.stored
      | reply src dst v nodes => exact habsorb src v nodes ⟨_, hmem, rfl⟩
  | lose i =>
    simp only [step] at hs
    split at hs
    · obtain rfl := Option.some.inj hs
      exact h.stored
    · exact absurd hs (by simp)

/-- The owner puts a record of its link. -/
private theorem writerInv_put {owner : M} {k : LinkKey} {w : Written M F} {rec : QualityRecord F}
    (h : WriterInv owner k w) (hts : ∀ prev ∈ w.last, prev.ts ≤ rec.ts)
    (hshared : Unshared owner k w (.put owner k rec)) :
    WriterInv owner k ⟨{ w.cluster with
      kv := Function.update w.cluster.kv owner ((w.cluster.kv owner).put k rec).1 }, some rec⟩ := by
  obtain ⟨hstores, hflight⟩ := hshared rfl
  constructor
  · have hkept : ¬ ((w.cluster.kv owner).inner.get k).any (fun prev => rec.ts < prev.ts) := by
      have hlast : (w.cluster.kv owner).inner.get k = w.last := h.stored
      rw [hlast, Option.any_eq_true]
      rintro ⟨prev, hprev, hlt⟩
      have hle := hts prev hprev
      have hlt : rec.ts < prev.ts := of_decide_eq_true hlt
      omega
    show (Function.update w.cluster.kv owner ((w.cluster.kv owner).put k rec).1 owner).get k = some rec
    rw [Function.update_self, LwwStore.put, if_neg hkept]
    exact Map.get_set_self _ _ _
  · intro r hr
    refine ⟨rec, rfl, ?_⟩
    -- the copies are those that were there before
    have hold : w.cluster.Elsewhere owner k r := by
      rcases hr with ⟨p, hp, hget⟩ | hmsg
      · have hget : (Function.update w.cluster.kv owner
            ((w.cluster.kv owner).put k rec).1 p).get k = some r := hget
        rw [Function.update_of_ne hp] at hget
        exact Or.inl ⟨p, hp, hget⟩
      · exact Or.inr hmsg
    obtain ⟨cur, hcur, hle⟩ := h.older r hold
    have hcurts := hts cur hcur
    have hrts : r.ts ≤ cur.ts := by
      rcases hle with hlt | rfl
      · exact hlt.le
      · exact le_refl _
    rcases Nat.lt_or_ge r.ts rec.ts with hlt | hge
    · exact Or.inl hlt
    · have heq : r.ts = rec.ts := by omega
      rcases hold with ⟨p, hp, hget⟩ | ⟨msg, hmsg, hin⟩
      · exact Or.inr (hstores p hp r hget heq)
      · exact Or.inr (hflight msg hmsg (k, r) hin rfl heq)

/-- **Step lemma.** -/
theorem writerInv_step {grace : ℕ} {owner : M} {k : LinkKey} {w w' : Written M F}
    {a : Action M F} (h : WriterInv owner k w) (hok : SingleWriter owner k w a)
    (hshared : Unshared owner k w a) (hs : writerStep grace owner k w a = some w') :
    WriterInv owner k w' := by
  obtain ⟨c', hc', rfl⟩ := Option.map_eq_some_iff.mp hs
  by_cases hput : NoPut k w.cluster a
  · have hlast : lastAfter owner k w.last a = w.last := by
      cases a with
      | put m key rec => exact if_neg (fun hk => hput hk.2)
      | setNode | prune | push | advance | lose => rfl
    have hstored := stored_of_step h hok hput hc'
    refine ⟨hstored.trans hlast.symm, fun r hr => ?_⟩
    show ∃ cur, lastAfter owner k w.last a = some cur ∧ _
    rw [hlast]
    -- no copy comes out of nothing
    rcases (copy_of_step hput hc' hr.copy).elsewhere owner with hcur | hold
    · exact ⟨r, h.stored.symm.trans hcur, Or.inr rfl⟩
    · exact h.older r hold
  · cases a with
    | put m key rec =>
      obtain rfl : key = k := not_not.mp hput
      obtain ⟨rfl, hts⟩ := hok rfl
      obtain rfl := Option.some.inj hc'
      have hinv := writerInv_put h hts hshared
      have hlast : lastAfter m key w.last (.put m key rec) = some rec := if_pos ⟨rfl, rfl⟩
      exact hlast ▸ hinv
    | setNode | prune | push | advance | lose => exact absurd trivial hput

/-- **A single writer's record never regresses.** In every run of a cluster in which only the
    owner puts records of the link, none under a timestamp that another copy carries with
    another record, the owner holds at every moment the record it put last. -/
theorem record_never_regresses {grace : ℕ} {owner : M} {k : LinkKey} {w : Written M F}
    (h : Runs (writerStep grace owner k)
      (fun w a => SingleWriter owner k w a ∧ Unshared owner k w a) ⟨Cluster.init, none⟩ w) :
    (w.cluster.kv owner).get k = w.last := by
  have hinv : WriterInv owner k w :=
    h.invariant ⟨rfl, fun r hr => by
      rcases hr with ⟨p, -, hp⟩ | ⟨msg, hmsg, -⟩
      · exact absurd (show none = some r from hp) (by simp)
      · exact absurd hmsg List.not_mem_nil⟩
      (fun w a w' hI hok hs => writerInv_step hI hok.1 hok.2 hs)
  exact hinv.stored

/-! ### Two records of one second -/

/-- The link of the runs below. -/
private def ownKey : LinkKey := ⟨"hub-a", "hub-b", "awg0"⟩

/-- A record the owner derives at a second. -/
private def classed (ts : ℕ) (q : Quality) : QualityRecord ℕ :=
  ⟨ts, none, none, none, none, none, none, none, 0, .quiet, some q, none, none, none, none, none⟩

/-- The owner puts a record and pushes it; the other member merges it, and its answer is on
    the way when the owner puts another one. -/
private def answered (ts : ℕ) : List (Action Bool ℕ) :=
  [.put true ownKey (classed 60 .good), .push true false, .advance 0, .advance 0, .advance 0,
    .put true ownKey (classed ts .bad), .advance 0]

/-- The run in which the second record has a newer timestamp. -/
theorem record_kept : ∃ w : Written Bool ℕ, w.last = some (classed 61 .bad) ∧
    (w.cluster.kv true).get ownKey = w.last := by
  have hrun : exec (writerStep 10 true ownKey)
      (fun w a => SingleWriter true ownKey w a ∧ Unshared true ownKey w a)
      ⟨Cluster.init, none⟩ (answered 61) = some _ := rfl
  exact ⟨_, rfl, record_never_regresses (Runs.of_exec _ hrun)⟩

/-- **An echo regresses the record.** The owner puts a second record under the timestamp of
    the first, whose copy is on its way back: the copy replaces it. -/
theorem echo_regresses : ∃ w : Written Bool ℕ,
    Runs (writerStep 10 true ownKey) (SingleWriter true ownKey) ⟨Cluster.init, none⟩ w ∧
      w.last = some (classed 60 .bad) ∧
      (w.cluster.kv true).get ownKey = some (classed 60 .good) := by
  have hrun : exec (writerStep 10 true ownKey) (SingleWriter true ownKey) ⟨Cluster.init, none⟩
      (answered 60) = some _ := rfl
  exact ⟨_, Runs.of_exec _ hrun, rfl, rfl⟩

end Mielofon
