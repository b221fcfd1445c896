import Mielofon.Fence
import Mielofon.Worker
import Mielofon.Tsdb.Database

namespace Mielofon

open Lib

/-!
# Link ids

A link is two node names and an interface, its id the three with slashes between them
(`mielofon-proto`).  The leases, the slots of commands, the costs sent and the rows of the
database are all kept under the id, and the rows are read back through it; nothing that takes
links in looks for slashes in their names.

* `parseLinkId_eq_iff` — which keys their id gives back;
* `Apart` — what is kept for one link says nothing of another;
* `apart_iff` — two links are apart exactly when their ids differ;
* `Identified`, `identified_iff` — for which links the ids can stand for the keys;
* `exists_register` — a registration can bring in any link.
-/

theorem toList_id (l : LinkKey) :
    l.id.toList = l.from.toList ++ '/' :: (l.to.toList ++ '/' :: l.interface.toList) := by
  simp [LinkKey.id, String.toList_append]

/-- A slash in the name of a node is where the id is cut in its place. -/
theorem parseLinkId_ne_of_from {l : LinkKey} (h : '/' ∈ l.from.toList) : parseLinkId l.id ≠ l := by
  obtain ⟨a, b, hfrom, ha⟩ := List.eq_append_cons_of_mem h
  have hcut : cutSlash l.id.toList =
      some (a, b ++ '/' :: (l.to.toList ++ '/' :: l.interface.toList)) := by
    rw [toList_id, hfrom, List.append_assoc, List.cons_append, cutSlash_append ha]
  intro heq
  have hlen := congrArg (fun k => k.from.toList.length) heq
  unfold parseLinkId at hlen
  rw [hcut] at hlen
  dsimp only at hlen
  split at hlen
  · rw [hfrom] at hlen
    simp at hlen
  · rw [toList_id] at hlen
    simp at hlen

theorem parseLinkId_ne_of_to {l : LinkKey} (hfrom : '/' ∉ l.from.toList) (h : '/' ∈ l.to.toList) :
    parseLinkId l.id ≠ l := by
  obtain ⟨a, b, hto, ha⟩ := List.eq_append_cons_of_mem h
  have hcut : cutSlash (l.to.toList ++ '/' :: l.interface.toList) =
      some (a, b ++ '/' :: l.interface.toList) := by
    rw [hto, List.append_assoc, List.cons_append, cutSlash_append ha]
  intro heq
  have hlen := congrArg (fun k => k.to.toList.length) heq
  unfold parseLinkId at hlen
  rw [toList_id, cutSlash_append hfrom] at hlen
  dsimp only at hlen
  rw [hcut, hto] at hlen
  simp at hlen

/-- **An id gives its key back** exactly when the names of the nodes have no slash. -/
theorem parseLinkId_eq_iff (l : LinkKey) : parseLinkId l.id = l ↔ l.Plain := by
  refine ⟨fun h => ?_, parseLinkId_id⟩
  by_contra hplain
  by_cases hfrom : '/' ∈ l.from.toList
  · exact parseLinkId_ne_of_from hfrom h
  · refine parseLinkId_ne_of_to hfrom ?_ h
    by_contra hto
    exact hplain ⟨hfrom, hto⟩

/-! ### What is kept by id -/

namespace WorkerRegistry

variable {r : WorkerRegistry} {agent : String} {l l' : LinkKey} {kind kind' : Kind}

/-- A command of the kind is in flight on the link. -/
def Marked (r : WorkerRegistry) (agent : String) (link : LinkKey) (kind : Kind) : Prop :=
  ∃ w, r.worker agent = some w ∧ (link.id, kind) ∈ w.in_flight

/-- Whatever changes the slots of an agent but not this one leaves it marked or free. -/
theorem marked_modify {f : Worker → Worker}
    (hf : ∀ w, (l'.id, kind') ∈ (f w).in_flight ↔ (l'.id, kind') ∈ w.in_flight) :
    (r.modify agent f).Marked agent l' kind' ↔ r.Marked agent l' kind' := by
  unfold Marked
  rw [worker_modify, if_pos rfl]
  cases r.worker agent with
  | none => simp
  | some w => simp [hf]

theorem marked_beginCmd (h : l.id ≠ l'.id) :
    (r.beginCmd agent l kind).1.Marked agent l' kind' ↔ r.Marked agent l' kind' := by
  unfold beginCmd
  split
  · split
    · rfl
    · refine marked_modify (fun w => ?_)
      rw [Finset.mem_insert, or_iff_right]
      exact fun heq => h (Prod.mk.inj heq).1.symm
  · rfl

theorem marked_endCmd (h : l.id ≠ l'.id) :
    (r.endCmd agent l kind).Marked agent l' kind' ↔ r.Marked agent l' kind' := by
  refine marked_modify (fun w => ?_)
  rw [Finset.mem_erase, and_iff_right]
  exact fun heq => h (Prod.mk.inj heq).1.symm

/-- Whatever changes the costs of an agent but not this one leaves it as it was. -/
theorem appliedSent_modify {f : Worker → Worker}
    (hf : ∀ w, (f w).applied_sent.get l'.id = w.applied_sent.get l'.id) :
    (r.modify agent f).appliedSent agent l' = r.appliedSent agent l' := by
  unfold appliedSent
  rw [worker_modify, if_pos rfl]
  cases r.worker agent with
  | none => rfl
  | some w => exact hf w

end WorkerRegistry

/-- What is kept for `l` says nothing of `l'`: releasing and granting a lease, claiming and freeing
    a slot, remembering and forgetting a cost, and inserting a row. -/
structure Apart (l l' : LinkKey) : Prop where
  released : ∀ (f : Fence) token, (f.release l.id token).1.lease.get l'.id = f.lease.get l'.id
  granted : ∀ (f : Fence) agent ttl_secs now token lease,
    (f.acquire agent l ttl_secs now token).1.lease.get l'.id = some lease →
      f.lease.get l'.id = some lease
  claimed : ∀ (r : WorkerRegistry) agent kind kind',
    (r.beginCmd agent l kind).1.Marked agent l' kind' ↔ r.Marked agent l' kind'
  freed : ∀ (r : WorkerRegistry) agent kind kind',
    (r.endCmd agent l kind).Marked agent l' kind' ↔ r.Marked agent l' kind'
  remembered : ∀ (r : WorkerRegistry) agent cost,
    (r.setAppliedSent agent l cost).appliedSent agent l' = r.appliedSent agent l'
  forgotten : ∀ (r : WorkerRegistry) agent now,
    (r.noteApplyFailed agent l now).appliedSent agent l' = r.appliedSent agent l'
  inserted : ∀ (rows : Map (String × ℕ) (RawSample ℕ)) s ts,
    (Db.insertRaw rows [(l, s)]).get (l'.id, ts) = rows.get (l'.id, ts)

/-- **Two links are apart exactly when their ids differ.** -/
theorem apart_iff (l l' : LinkKey) : Apart l l' ↔ l.id ≠ l'.id := by
  constructor
  · intro h hid
    -- a cost sent for one is the cost sent for the other
    have hsent := h.remembered ⟨(∅ : Map String Worker).set "a" .default, 0⟩ "a" 1
    unfold WorkerRegistry.appliedSent WorkerRegistry.setAppliedSent at hsent
    rw [WorkerRegistry.worker_modify, if_pos rfl, WorkerRegistry.worker, Map.get_set_self,
      hid] at hsent
    simp only [Option.map_some, Option.bind_some, Map.get_set_self, Worker.default,
      Map.get_empty] at hsent
    exact absurd hsent (by simp)
  · intro h
    refine ⟨fun f token => ?_, fun f agent ttl_secs now token lease hlease => ?_,
      fun r agent kind kind' => WorkerRegistry.marked_beginCmd h,
      fun r agent kind kind' => WorkerRegistry.marked_endCmd h,
      fun r agent cost => WorkerRegistry.appliedSent_modify (fun w => Map.get_set_ne _ _ h.symm),
      fun r agent now => WorkerRegistry.appliedSent_modify (fun w => ?_),
      fun rows s ts => ?_⟩
    · unfold Fence.release
      split
      · split
        · show Map.get (Map.erase _ _) _ = _
          rw [Map.get_erase, if_neg h.symm]
        · rfl
      · rfl
    · rcases Fence.get_acquire hlease with hbefore | ⟨hid, -⟩
      · exact hbefore
      · exact absurd hid.symm h
    · show Map.get (Map.erase _ _) _ = _
      rw [Map.get_erase, if_neg h.symm]
    · exact Map.get_set_ne _ _ (fun hkey => h (Prod.mk.inj hkey).1.symm)

/-! ### Which links ids stand for -/

/-- The ids of two links stand for their keys: each gives its key back, and what is kept for one of
    two links says nothing of the other. -/
structure Identified (l l' : LinkKey) : Prop where
  injective : l.id = l'.id → l = l'
  parsed : parseLinkId l.id = l
  parsed' : parseLinkId l'.id = l'
  apart : l ≠ l' → Apart l l' ∧ Apart l' l

/-- **Link ids identify links** exactly where no name of a node has a slash in it. -/
theorem identified_iff (l l' : LinkKey) : Identified l l' ↔ l.Plain ∧ l'.Plain := by
  constructor
  · exact fun h => ⟨(parseLinkId_eq_iff l).mp h.parsed, (parseLinkId_eq_iff l').mp h.parsed'⟩
  · rintro ⟨h, h'⟩
    refine ⟨h.eq_of_id_eq h', parseLinkId_id h, parseLinkId_id h', fun hne => ?_⟩
    have hid : l.id ≠ l'.id := fun hid => hne (h.eq_of_id_eq h' hid)
    exact ⟨(apart_iff l l').mpr hid, (apart_iff l' l).mpr hid.symm⟩

/-- A registration can bring in any link: the name of the agent must not be empty, and nothing is
    asked of the names of the links. -/
theorem exists_register (l : LinkKey) : ∃ agent, agent ≠ "" ∧
    ∃ w, (WorkerRegistry.new.register agent [l] none ∅ none).1.worker agent = some w ∧
      w.links = [l] := by
  have hlinks : ∀ agent, WorkerRegistry.settle agent [] l = l →
      ∃ w, (WorkerRegistry.new.register agent [l] none ∅ none).1.worker agent = some w ∧
        w.links = [l] := fun agent hsettle => by
    refine ⟨_, by rw [WorkerRegistry.worker_register, if_pos rfl], ?_⟩
    show [WorkerRegistry.settle agent [] l] = [l]
    rw [hsettle]
  by_cases hto : l.to = ""
  · refine ⟨"hub-a", by decide, hlinks _ ?_⟩
    have hkey : nameKey "" ≠ nameKey "hub-a" := by decide
    rw [WorkerRegistry.settle, List.find?_nil]
    exact if_neg (by rw [hto]; exact hkey)
  · refine ⟨l.to, hto, hlinks _ ?_⟩
    rw [WorkerRegistry.settle, List.find?_nil]
    exact if_pos rfl

/-- Two links between nodes with a slash in their names have one id. -/
theorem slashed_names_share_id : ¬ ∀ l l' : LinkKey, Identified l l' := fun h =>
  absurd ((h ⟨"a/b", "c", "awg0"⟩ ⟨"a", "b/c", "awg0"⟩).injective (by decide)) (by decide)

end Mielofon
