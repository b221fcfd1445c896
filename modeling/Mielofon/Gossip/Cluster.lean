import Mathlib.Logic.Function.Basic
import Mielofon.Lib.Runs
import Mielofon.Kv

namespace Mielofon

open Lib

/-!
# Record gossip between the members of a cluster

Each member pushes its record view to the others and merges the view the responder answers
with (`gossip.rs`).  The steps that different members or tasks can interleave are separate
actions: a push is queued with the view its round took, sent, merged by the responder,
answered with the responder's view, and the answer merged by the pusher.  Any of these can be
delayed or lost, and in between members put records and prune on their own clocks.

* `View` — what `all` lists: at most one record for each link;
* `Msg`, `Cluster` — an exchange under way, and the members' stores with all exchanges;
* `step` — one action of the system;
* `Cluster.Copy` — a record is held by a store or carried by an exchange;
* `copy_of_step` — no action but a put makes a record that was not there.
-/

variable {F M : Type*}

/-- A member's records as `all` lists them: one for each key. -/
structure View (F : Type*) where
  records : List (LinkKey × QualityRecord F)
  nodup : (records.map Prod.fst).Nodup

/-- The view a store gives of its records. -/
def LwwStore.view (s : LwwStore F) : View F := ⟨s.all, s.inner.nodup_pairs_keys⟩

/-- An exchange under way between a pusher `src` and a responder `dst`. -/
inductive Msg (M F : Type*) where
  /-- `push_one` spawned with the records of its round, request not yet sent. -/
  | queued (src dst : M) (records : View F)
  /-- The request, with the pusher's directory at the moment it was sent. -/
  | request (src dst : M) (records : View F) (nodes : List (String × NodeEntry))
  /-- Merged by the responder, answer not yet built. -/
  | merged (src dst : M)
  /-- The responder's view on its way back. -/
  | reply (src dst : M) (records : View F) (nodes : List (String × NodeEntry))

/-- The records an exchange carries. -/
def Msg.records : Msg M F → List (LinkKey × QualityRecord F)
  | .queued _ _ v => v.records
  | .request _ _ v _ => v.records
  | .merged _ _ => []
  | .reply _ _ v _ => v.records

/-- The member that merges the records an exchange carries. -/
def Msg.target : Msg M F → M
  | .queued _ dst _ => dst
  | .request _ dst _ _ => dst
  | .merged src _ => src
  | .reply src _ _ _ => src

/-- The stores of the members and the exchanges under way. -/
structure Cluster (M F : Type*) where
  kv : M → LwwStore F
  flight : List (Msg M F)

/-- The cluster before anything happened. -/
def Cluster.init : Cluster M F := ⟨fun _ => LwwStore.new, []⟩

/-- What can happen in a cluster. -/
inductive Action (M F : Type*) where
  /-- Member `m` derives a record. -/
  | put (m : M) (key : LinkKey) (rec : QualityRecord F)
  /-- A node registers with member `m`. -/
  | setNode (m : M) (rid name : String) (links : List LinkKey) (ts : ℕ)
  /-- Member `m` prunes at its own `now`. -/
  | prune (m : M) (now : ℕ)
  /-- A gossip round of `src` queues a push to `dst`. -/
  | push (src dst : M)
  /-- The `i`-th exchange takes its next step. -/
  | advance (i : ℕ)
  /-- The `i`-th exchange fails. -/
  | lose (i : ℕ)

variable [DecidableEq M]

/-- Merge records and directory entries into the store of `m`. -/
def absorb (kv : M → LwwStore F) (m : M) (records : View F)
    (nodes : List (String × NodeEntry)) : M → LwwStore F :=
  Function.update kv m (((kv m).merge records.records).mergeNodes nodes).1

/-- The next step of an exchange: the stores after it, and what is left of the exchange. -/
def advance (kv : M → LwwStore F) : Msg M F → (M → LwwStore F) × Option (Msg M F)
  | .queued src dst v => (kv, some (.request src dst v (kv src).allNodes))
  | .request src dst v nodes => (absorb kv dst v nodes, some (.merged src dst))
  | .merged src dst => (kv, some (.reply src dst (kv dst).view (kv dst).allNodes))
  | .reply src _ v nodes => (absorb kv src v nodes, none)

/-- Put what is left of the `i`-th exchange in its place. -/
def settle (flight : List (Msg M F)) (i : ℕ) : Option (Msg M F) → List (Msg M F)
  | some msg => flight.set i msg
  | none => flight.eraseIdx i

/-- One action of the cluster; `grace` is the configured age at which records expire. -/
def step (grace : ℕ) (c : Cluster M F) : Action M F → Option (Cluster M F)
  | .put m key rec => some { c with kv := Function.update c.kv m ((c.kv m).put key rec).1 }
  | .setNode m rid name links ts =>
    some { c with kv := Function.update c.kv m ((c.kv m).setNode rid name links ts).1 }
  | .prune m now => some { c with kv := Function.update c.kv m ((c.kv m).prune now grace) }
  | .push src dst =>
    if src = dst then none
    else some { c with flight := c.flight ++ [.queued src dst (c.kv src).view] }
  | .advance i =>
    match c.flight[i]? with
    | none => none
    | some msg =>
      some ⟨(advance c.kv msg).1, settle c.flight i (advance c.kv msg).2⟩
  | .lose i => if i < c.flight.length then some { c with flight := c.flight.eraseIdx i } else none

/-! ### Copies of a record -/

/-- A store holds `r` for `k`, or an exchange carries it. -/
def Cluster.Copy (c : Cluster M F) (k : LinkKey) (r : QualityRecord F) : Prop :=
  (∃ p, (c.kv p).get k = some r) ∨ ∃ msg ∈ c.flight, (k, r) ∈ msg.records

/-- No member derives a new record for `k`. -/
def NoPut (k : LinkKey) (_ : Cluster M F) : Action M F → Prop
  | .put _ key _ => key ≠ k
  | _ => True

instance (k : LinkKey) (c : Cluster M F) (a : Action M F) : Decidable (NoPut k c a) :=
  match a with
  | .put _ key _ => inferInstanceAs (Decidable (key ≠ k))
  | .setNode .. | .prune .. | .push .. | .advance _ | .lose _ => .isTrue trivial

omit [DecidableEq M] in
theorem mem_view {s : LwwStore F} {k : LinkKey} {r : QualityRecord F} :
    (k, r) ∈ s.view.records ↔ s.get k = some r :=
  Map.mem_pairs

@[simp] theorem absorb_self_get (kv : M → LwwStore F) (m : M) (v : View F)
    (nodes : List (String × NodeEntry)) (k : LinkKey) :
    (absorb kv m v nodes m).get k = ((kv m).merge v.records).get k := by
  rw [absorb, Function.update_self, LwwStore.mergeNodes_get]

theorem absorb_of_ne (kv : M → LwwStore F) {m p : M} (v : View F)
    (nodes : List (String × NodeEntry)) (h : p ≠ m) : absorb kv m v nodes p = kv p :=
  Function.update_of_ne h _ _

/-- What a member holds after merging it held before or was in the view. -/
theorem absorb_get_cases {kv : M → LwwStore F} {m p : M} {v : View F}
    {nodes : List (String × NodeEntry)} {k : LinkKey} {r : QualityRecord F}
    (h : (absorb kv m v nodes p).get k = some r) :
    (kv p).get k = some r ∨ (k, r) ∈ v.records := by
  by_cases hp : p = m
  · subst hp
    rw [absorb_self_get] at h
    exact LwwStore.get_merge_cases h
  · rw [absorb_of_ne kv v nodes hp] at h
    exact Or.inl h

/-- The next step of an exchange neither stores nor carries a record that was not there. -/
theorem copy_of_advance {kv : M → LwwStore F} {msg : Msg M F} {k : LinkKey}
    {r : QualityRecord F}
    (h : (∃ p, ((advance kv msg).1 p).get k = some r) ∨
      ∃ msg', (advance kv msg).2 = some msg' ∧ (k, r) ∈ msg'.records) :
    (∃ p, (kv p).get k = some r) ∨ (k, r) ∈ msg.records := by
  cases msg with
  | queued src dst v =>
    rcases h with h | ⟨msg', hmsg, h⟩
    · exact Or.inl h
    · obtain rfl := Option.some.inj hmsg
      exact Or.inr h
  | request src dst v nodes =>
    rcases h with ⟨p, h⟩ | ⟨msg', hmsg, h⟩
    · exact (absorb_get_cases h).imp (fun h => ⟨p, h⟩) id
    · obtain rfl := Option.some.inj hmsg
      exact absurd h List.not_mem_nil
  | merged src dst =>
    rcases h with h | ⟨msg', hmsg, h⟩
    · exact Or.inl h
    · -- the answer carries what the responder holds
      obtain rfl := Option.some.inj hmsg
      exact Or.inl ⟨dst, mem_view.mp h⟩
  | reply src dst v nodes =>
    rcases h with ⟨p, h⟩ | ⟨msg', hmsg, -⟩
    · exact (absorb_get_cases h).imp (fun h => ⟨p, h⟩) id
    · exact absurd hmsg (Option.some_ne_none msg').symm

omit [DecidableEq M] in
/-- After the `i`-th exchange moved on, an exchange is an old one or what is left of it. -/
theorem mem_settle {flight : List (Msg M F)} {i : ℕ} {left : Option (Msg M F)} {msg : Msg M F}
    (h : msg ∈ settle flight i left) : msg ∈ flight ∨ left = some msg := by
  cases left with
  | none => exact Or.inl (List.mem_of_mem_eraseIdx h)
  | some m =>
    rcases List.mem_or_eq_of_mem_set h with h | h
    · exact Or.inl h
    · exact Or.inr (congrArg some h.symm)

/-- A store in which only member `m` changed, to a store holding nothing new under `k`. -/
private theorem copy_of_update {c : Cluster M F} {m : M} {s : LwwStore F} {k : LinkKey}
    {r : QualityRecord F} (hs : ∀ r, s.get k = some r → (c.kv m).get k = some r)
    (h : Cluster.Copy { c with kv := Function.update c.kv m s } k r) : c.Copy k r := by
  rcases h with ⟨p, h⟩ | h
  · by_cases hp : p = m
    · subst hp
      simp only [Function.update_self] at h
      exact Or.inl ⟨p, hs r h⟩
    · simp only [Function.update_of_ne hp] at h
      exact Or.inl ⟨p, h⟩
  · exact Or.inr h

/-- **No copy out of nothing.** Whatever record of `k` exists after an action other than a put
    on `k` existed before it. -/
theorem copy_of_step {grace : ℕ} {c c' : Cluster M F} {a : Action M F} {k : LinkKey}
    {r : QualityRecord F} (hok : NoPut k c a) (hs : step grace c a = some c')
    (h : c'.Copy k r) : c.Copy k r := by
  cases a with
  | put m key rec =>
    obtain rfl := Option.some.inj hs
    refine copy_of_update (fun r hr => ?_) h
    rwa [LwwStore.get_put_of_ne _ _ (Ne.symm hok)] at hr
  | setNode m rid name links ts =>
    obtain rfl := Option.some.inj hs
    refine copy_of_update (fun r hr => ?_) h
    rwa [LwwStore.setNode_get] at hr
  | prune m now =>
    obtain rfl := Option.some.inj hs
    exact copy_of_update (fun r hr => LwwStore.get_prune_cases hr) h
  | push src dst =>
    simp only [step] at hs
    split at hs
    · exact absurd hs (by simp)
    · obtain rfl := Option.some.inj hs
      rcases h with h | ⟨msg, hmsg, h⟩
      · exact Or.inl h
      · rcases List.mem_append.mp hmsg with hmsg | hmsg
        · exact Or.inr ⟨msg, hmsg, h⟩
        · obtain rfl := List.mem_singleton.mp hmsg
          exact Or.inl ⟨src, mem_view.mp h⟩
  | advance i =>
    simp only [step] at hs
    split at hs
    · exact absurd hs (by simp)
    · rename_i msg hi
      obtain rfl := Option.some.inj hs
      have hmem : msg ∈ c.flight := List.mem_of_getElem? hi
      -- a message handled puts records where it goes, and an answer, from what was there
      have hold : ((∃ p, ((advance c.kv msg).1 p).get k = some r) ∨
          ∃ msg', (advance c.kv msg).2 = some msg' ∧ (k, r) ∈ msg'.records) → c.Copy k r := fun h =>
        (copy_of_advance h).imp id (fun h => ⟨msg, hmem, h⟩)
      rcases h with h | ⟨msg', hmsg', h⟩
      · exact hold (Or.inl h)
      · rcases mem_settle hmsg' with hmsg' | hmsg'
        · exact Or.inr ⟨msg', hmsg', h⟩
        · exact hold (Or.inr ⟨msg', hmsg', h⟩)
  | lose i =>
    simp only [step] at hs
    split at hs
    · obtain rfl := Option.some.inj hs
      refine h.imp id (fun ⟨msg, hmsg, h⟩ => ⟨msg, List.mem_of_mem_eraseIdx hmsg, h⟩)
    · exact absurd hs (by simp)

end Mielofon
