import Mielofon.Lib.LastWriter
import Mielofon.Gossip.Cluster

namespace Mielofon

open Lib

/-!
# One exchange equalises two members

The responder of an exchange merges the pusher's view before it answers, and the answer is
everything it then holds.  Of two records with one timestamp the one that arrives replaces the
one held: the responder takes the pusher's, and gives that same record back.

* `get_merge_view` — a merge of a whole store writes each of its records over the one held;
* `exchangeActions` — what happens in an exchange that nothing comes between;
* `exchange_equalises` — after it both members hold the same records.
-/

variable {F M : Type*}

/-- Under each key a merge of another store's view is one arrival of what that store holds. -/
theorem LwwStore.get_merge_view (s t : LwwStore F) (k : LinkKey) :
    (s.merge t.view.records).get k = writeFrom QualityRecord.ts (s.get k) (t.get k) := by
  cases hk : t.get k with
  | none =>
    refine get_merge_of_notMem (fun hmem => ?_)
    obtain ⟨⟨k', r⟩, hr, rfl⟩ := List.mem_map.mp hmem
    rw [mem_view.mp hr] at hk
    exact absurd hk (by simp)
  | some r => exact get_merge_of_nodup t.view.nodup (mem_view.mpr hk)

variable [DecidableEq M]

/-- An exchange of `src` with `dst` that nothing comes between: it is queued as the `n`-th one
    under way, sent, merged by `dst`, answered, and the answer is merged by `src`. -/
def exchangeActions (src dst : M) (n : ℕ) : List (Action M F) :=
  [.push src dst, .advance n, .advance n, .advance n, .advance n]

/-- The exchange that was queued last takes its next step. -/
private theorem step_advance_last (grace : ℕ) (kv : M → LwwStore F) (l : List (Msg M F))
    (msg : Msg M F) :
    step grace ⟨kv, l ++ [msg]⟩ (.advance l.length) =
      some ⟨(advance kv msg).1, l ++ (advance kv msg).2.toList⟩ := by
  have hlast : (l ++ [msg])[l.length]? = some msg := by simp
  simp only [step, hlast]
  cases (advance kv msg).2 with
  | none => simp [settle, List.eraseIdx_append_of_length_le]
  | some msg' => simp [settle]

/-- The stores after an exchange that nothing came between. -/
theorem exec_exchangeActions (grace : ℕ) (c : Cluster M F) {src dst : M} (h : src ≠ dst) :
    exec (step grace) Always c (exchangeActions src dst c.flight.length) =
      some ⟨let kv := absorb c.kv dst (c.kv src).view (c.kv src).allNodes
            absorb kv src (kv dst).view (kv dst).allNodes, c.flight⟩ := by
  have hpush : step grace c (.push src dst) =
      some ⟨c.kv, c.flight ++ [.queued src dst (c.kv src).view]⟩ := if_neg h
  have hok : ∀ (c : Cluster M F) (a : Action M F), Always c a := fun _ _ => trivial
  simp only [exchangeActions, exec, hok, if_true, hpush, Option.bind_some, step_advance_last,
    advance, Option.toList, List.append_nil]

/-- **One exchange equalises two members.** After an exchange that nothing came between, the
    pusher and the responder hold the same records, of every link of which either held one, each
    as new as the newer of the two. -/
theorem exchange_equalises (grace : ℕ) (c : Cluster M F) {src dst : M} (h : src ≠ dst) :
    ∃ c', exec (step grace) Always c (exchangeActions src dst c.flight.length) = some c' ∧
      (∀ k, (c'.kv src).get k = (c'.kv dst).get k) ∧
      (∀ k, ((c'.kv src).get k).isSome ↔ ((c.kv src).get k).isSome ∨ ((c.kv dst).get k).isSome) ∧
      ∀ k r, (c'.kv src).get k = some r →
        r.ts = max ((((c.kv src).get k).map QualityRecord.ts).getD 0)
          ((((c.kv dst).get k).map QualityRecord.ts).getD 0) := by
  -- what the responder holds once it merged the push, and what the pusher makes of the answer
  have hdst : ∀ k, (absorb c.kv dst (c.kv src).view (c.kv src).allNodes dst).get k =
      writeFrom QualityRecord.ts ((c.kv dst).get k) ((c.kv src).get k) := fun k => by
    rw [absorb_self_get, LwwStore.get_merge_view]
  refine ⟨_, exec_exchangeActions grace c h, ?_⟩
  dsimp only
  generalize hkv : absorb c.kv dst (c.kv src).view (c.kv src).allNodes = kv at hdst ⊢
  have hsame : ∀ k, (absorb kv src (kv dst).view (kv dst).allNodes src).get k = (kv dst).get k :=
    fun k => by
      have hsrc : kv src = c.kv src := by rw [← hkv, absorb_of_ne _ _ _ h]
      rw [absorb_self_get, LwwStore.get_merge_view, hsrc, hdst, writeFrom_writeFrom]
  refine ⟨fun k => ?_, fun k => ?_, fun k r hr => ?_⟩
  · rw [hsame, absorb_of_ne _ _ _ h.symm]
  · rw [hsame, hdst, isSome_writeFrom, or_comm]
  · rw [hsame, hdst] at hr
    rw [stamp_writeFrom hr, max_comm]

/-- Two members whose records of a link have one timestamp and different classes. -/
private def tiedMembers : Cluster Bool ℕ :=
  ⟨fun m => (LwwStore.new.put ⟨"hub-a", "hub-b", "awg0"⟩
    ⟨60, none, none, none, none, none, none, none, 0, .quiet, some (if m then .good else .bad),
      none, none, none, none, none⟩).1, []⟩

theorem exchange_equalises_tied :
    ∃ c', exec (step 600) Always tiedMembers (exchangeActions true false 0) = some c' ∧
      (∀ k, (c'.kv true).get k = (c'.kv false).get k) ∧
      (∀ k, ((c'.kv true).get k).isSome ↔
        ((tiedMembers.kv true).get k).isSome ∨ ((tiedMembers.kv false).get k).isSome) ∧
      ∀ k r, (c'.kv true).get k = some r →
        r.ts = max ((((tiedMembers.kv true).get k).map QualityRecord.ts).getD 0)
          ((((tiedMembers.kv false).get k).map QualityRecord.ts).getD 0) :=
  exchange_equalises 600 tiedMembers (by decide)

end Mielofon
