import Mielofon.Agent.Node
import Mielofon.Lib.Runs

namespace Mielofon

open Lib

/-!
# Costs on an agent

An agent applies the costs the controller sends and remembers the last one per interface.  Its
periodic refresh compares them with the costs BIRD reports and applies again what has drifted.
The refresh reads the costs, compares them under the state lock and applies each under the apply
lock; a command applies under the apply lock and remembers the cost after that.  Between any two
of these sections those of other tasks can run.

* `setOspfCost` — one cost set through BIRD, with its retries;
* `CostAgent.step` — one section of a refresh or a command, or a cost changed by something else;
* `CostAgent.Settled` — BIRD and the agent both have the cost applied last;
* `CostAgent.InOrder` — no section undoes a newer cost;
* `settled_of_inOrder` — under this, every agent without a step in progress is settled;
* `newer_cost_overridden` — without it, an older cost is applied or recorded last.
-/

variable {F : Type*}

/-! ### BIRD -/

namespace Bird

def busyCode : ℤ := 5
def maxTries : ℕ := 5

/-- The tries from `attempt` on, `left` of them, on the answers of the bus. -/
def tryCost (answer : ℕ → Except String ℤ) (attempt : ℕ) : ℕ → Except String Unit
  | 0 => .error ("bird reconfiguration busy after " ++ toString maxTries ++ " tries")
  | left + 1 =>
    match answer attempt with
    | .error e => .error ("bird set_ospf_cost: " ++ e)
    | .ok code =>
      if code = 0 then .ok ()
      -- another reconfiguration is in flight: the call is retried
      else if code = busyCode then tryCost answer (attempt + 1) left
      else .error ("bird returned code " ++ toString code)

/-- Apply an OSPF cost; an error carries the reason reported to the controller. -/
def setOspfCost (answer : ℕ → Except String ℤ) : Except String Unit := tryCost answer 1 maxTries

end Bird

/-! ### Tasks -/

/-- How far a refresh or a command has got. -/
inductive CostTask where
  /-- A refresh that has read the links and their costs. -/
  | discovered (links : List Link)
  /-- A refresh with costs left to apply again. -/
  | reapply (p : String × ℕ × ℕ) (rest : List (String × ℕ × ℕ))
  /-- A command about to take the apply lock. -/
  | apply (id : String) (link : LinkKey) (cost : ℕ) (traceparent : Option String)
  /-- A command whose cost is applied and still to be recorded. -/
  | record (id : String) (link : LinkKey) (cost : ℕ) (traceparent : Option String)
  | done
deriving DecidableEq

/-- The rest of a refresh. -/
def CostTask.reapplying : List (String × ℕ × ℕ) → CostTask
  | [] => .done
  | p :: rest => .reapply p rest

/-- A cost is applied and still to be recorded. -/
def CostTask.isRecord : CostTask → Bool
  | .record .. => true
  | _ => false

/-- The agent, the costs BIRD has, the tasks in the order of their start, and as history: per
    interface the command whose apply succeeded last, and the interfaces whose cost something
    else has set since the agent last did. -/
structure CostAgent (F : Type*) where
  agent : String
  node : NodeState
  bird : Map String ℕ
  tasks : List CostTask
  replies : List (AgentReply F)
  last : Map String (ℕ × ℕ)
  foreign : List String

/-- The atomic sections, and a cost set by something else. -/
inductive CostEvent where
  /-- A refresh reads the links and their costs. -/
  | read (links : List Link)
  /-- A refresh compares them with the desired costs. -/
  | compute (i : ℕ)
  /-- A refresh applies the next drifted cost again. -/
  | reapply (i : ℕ) (answer : ℕ → Except String ℤ)
  | command (id : String) (link : LinkKey) (cost : ℕ) (traceparent : Option String)
  | apply (i : ℕ) (answer : ℕ → Except String ℤ)
  | record (i : ℕ)
  | redeploy (iface : String) (cost : ℕ)

namespace CostAgent

/-- An agent that has done nothing yet, over a BIRD with costs of its own. -/
def init (agent : String) (bird : Map String ℕ) : CostAgent F :=
  ⟨agent, ⟨[], ∅⟩, bird, [], [], ∅, []⟩

/-- The agent sets a cost through BIRD. -/
def put (c : CostAgent F) (iface : String) (cost : ℕ) : CostAgent F :=
  { c with
    bird := c.bird.set iface cost
    foreign := c.foreign.filter (fun f => f ≠ iface) }

/-- The answer to a command. -/
def reply (c : CostAgent F) (id : String) (link : LinkKey) (cost : ℕ) (note : Option String)
    (traceparent : Option String) : CostAgent F :=
  { c with replies := c.replies ++ [.applied c.agent id link cost note traceparent] }

/-- The `i`-th task has got to `task`. -/
def advance (c : CostAgent F) (i : ℕ) (task : CostTask) : CostAgent F :=
  { c with tasks := c.tasks.set i task }

/-- What BIRD reports is what it has. -/
def Reports (c : CostAgent F) (links : List Link) : Prop :=
  ∀ l ∈ links, l.cost.isSome → l.cost = c.bird.get l.interface

instance (c : CostAgent F) (links : List Link) : Decidable (c.Reports links) :=
  List.decidableBAll _ links

/-- One event. -/
def step (c : CostAgent F) : CostEvent → Option (CostAgent F)
  | .read links =>
    if c.Reports links then some { c with tasks := c.tasks ++ [.discovered links] } else none
  | .compute i =>
    match c.tasks[i]? with
    | some (.discovered links) =>
      let res := c.node.refreshed links
      some ({ c with node := res.1 }.advance i (.reapplying res.2))
    | _ => none
  | .reapply i answer =>
    match c.tasks[i]? with
    | some (.reapply (iface, _, want) rest) =>
      match Bird.setOspfCost answer with
      | .ok () => some ((c.put iface want).advance i (.reapplying rest))
      | .error _ => some (c.advance i (.reapplying rest))
    | _ => none
  | .command id link cost traceparent =>
    match c.node.find link.interface with
    | none =>
      some (c.reply id link cost (some ("unknown interface " ++ link.interface)) traceparent)
    | some _ => some { c with tasks := c.tasks ++ [.apply id link cost traceparent] }
  | .apply i answer =>
    match c.tasks[i]? with
    | some (.apply id link cost traceparent) =>
      match Bird.setOspfCost answer with
      | .ok () =>
        let put := c.put link.interface cost
        some ({ put with last := c.last.set link.interface (i, cost) }.advance i
          (.record id link cost traceparent))
      | .error e => some ((c.reply id link cost (some e) traceparent).advance i .done)
    | _ => none
  | .record i =>
    match c.tasks[i]? with
    | some (.record id link cost traceparent) =>
      let node := c.node.recordCost link.interface cost
      some (({ c with node }.reply id link cost none traceparent).advance i .done)
    | _ => none
  | .redeploy iface cost =>
    some { c with bird := c.bird.set iface cost, foreign := iface :: c.foreign }

/-! ### The newest cost wins -/

/-- No step is in progress. -/
def Idle (c : CostAgent F) : Prop := ∀ task ∈ c.tasks, task = .done

instance (c : CostAgent F) : Decidable c.Idle := List.decidableBAll _ c.tasks

/-- Every cost applied last that nothing else has changed is what BIRD has and what the agent
    has recorded. -/
def Settled (c : CostAgent F) : Prop :=
  ∀ iface i cost, c.last.get iface = some (i, cost) → iface ∉ c.foreign →
    c.bird.get iface = some cost ∧ c.node.desired.get iface = some cost

/-- The command that was the `j`-th task has not recorded its cost yet. -/
def Recording (c : CostAgent F) (j : ℕ) : Prop := (c.tasks[j]?).any CostTask.isRecord

instance (c : CostAgent F) (j : ℕ) : Decidable (c.Recording j) :=
  inferInstanceAs (Decidable (_ = true))

/-- No section undoes a newer cost: a refresh forgets no cost applied last that is recorded, and
    applies again only the cost applied last; a command records the cost applied last, or one
    that the command that applied last will overwrite. -/
def InOrder (c : CostAgent F) : CostEvent → Prop
  | .compute i =>
    match c.tasks[i]? with
    | some (.discovered links) =>
      ∀ p ∈ c.last.pairs, (∃ l ∈ links, l.interface = p.1) ∨ c.Recording p.2.1
    | _ => True
  | .reapply i answer =>
    match c.tasks[i]? with
    | some (.reapply (iface, _, want) _) =>
      Bird.setOspfCost answer = .ok () → ∀ p ∈ c.last.get iface, p.2 = want
    | _ => True
  | .record i =>
    match c.tasks[i]? with
    | some (.record _ link cost _) =>
      ∀ p ∈ c.last.get link.interface, p.2 = cost ∨ c.Recording p.1
    | _ => True
  | _ => True

instance (c : CostAgent F) (e : CostEvent) : Decidable (c.InOrder e) := by
  unfold InOrder
  split <;> first | infer_instance | (split <;> infer_instance)

/-! ### What the sections keep -/

variable {c c' : CostAgent F} {iface : String} {i j cost : ℕ}

/-- The command that applied `cost` last has recorded it, or is about to. -/
def Holds (c : CostAgent F) (iface : String) (j cost : ℕ) : Prop :=
  (c.tasks[j]? = some .done ∧ c.node.desired.get iface = some cost) ∨
    ∃ id link tp, c.tasks[j]? = some (.record id link cost tp) ∧ link.interface = iface

/-- What holds in every state of a run whose sections undo no newer cost. -/
structure Inv (c : CostAgent F) : Prop where
  bird : ∀ iface j cost, c.last.get iface = some (j, cost) → iface ∉ c.foreign →
    c.bird.get iface = some cost
  holds : ∀ iface j cost, c.last.get iface = some (j, cost) → c.Holds iface j cost

/-- The command that applied last is no task of another kind. -/
theorem Holds.ne (h : c.Holds iface j cost) {task : CostTask} (htask : c.tasks[i]? = some task)
    (hdone : task ≠ .done) (hrecord : task.isRecord = false) : j ≠ i := by
  rintro rfl
  rcases h with ⟨hj, -⟩ | ⟨id, link, tp, hj, -⟩
  · exact hdone (Option.some.inj (htask.symm.trans hj))
  · rw [htask, Option.some.injEq] at hj
    rw [hj] at hrecord
    exact absurd hrecord (by simp [CostTask.isRecord])

/-- Another task and the desired cost of the interface are all it depends on. -/
theorem Holds.congr (h : c.Holds iface j cost) (htask : c'.tasks[j]? = c.tasks[j]?)
    (hdesired : c'.node.desired.get iface = c.node.desired.get iface) :
    c'.Holds iface j cost := by
  unfold Holds
  rw [htask, hdesired]
  exact h

/-- A new task changes none of the tasks before it. -/
theorem Holds.getElem?_append (h : c.Holds iface j cost) (task : CostTask) :
    (c.tasks ++ [task])[j]? = c.tasks[j]? := by
  have hlt : j < c.tasks.length := by
    rcases h with ⟨hj, -⟩ | ⟨id, link, tp, hj, -⟩ <;>
      exact (List.getElem?_eq_some_iff.mp hj).1
  exact List.getElem?_append_left hlt

theorem inv_init (agent : String) (bird : Map String ℕ) : (init agent bird : CostAgent F).Inv := by
  constructor <;> intro iface j cost h <;> exact absurd h (by simp [init])

theorem inv_read {links : List Link} (hinv : c.Inv) (h : c.step (.read links) = some c') :
    c'.Inv := by
  simp only [step] at h
  split at h
  · obtain rfl := Option.some.inj h
    refine ⟨hinv.bird, fun iface j cost hlast => ?_⟩
    have hholds := hinv.holds iface j cost hlast
    exact hholds.congr (hholds.getElem?_append _) rfl
  · exact absurd h (by simp)

theorem inv_compute (hinv : c.Inv) (hok : c.InOrder (.compute i))
    (h : c.step (.compute i) = some c') : c'.Inv := by
  simp only [step] at h
  split at h
  · rename_i links htask
    obtain rfl := Option.some.inj h
    simp only [InOrder, htask] at hok
    refine ⟨hinv.bird, fun iface j cost hlast => ?_⟩
    have hholds := hinv.holds iface j cost hlast
    have hji : j ≠ i := hholds.ne htask (by simp) rfl
    have hsame : (c.tasks.set i (.reapplying (c.node.refreshed links).2))[j]? = c.tasks[j]? :=
      List.getElem?_set_ne hji.symm
    rcases hholds with ⟨hj, hdesired⟩ | hrecord
    · -- the cost is recorded, so the interface has to be among the links
      have hlink : ∃ l ∈ links, l.interface = iface := by
        rcases hok _ (Map.mem_pairs.mpr hlast) with hlink | hrec
        · exact hlink
        · simp [Recording, hj, CostTask.isRecord] at hrec
      exact Or.inl ⟨hsame.trans hj, (NodeState.desired_refreshed hlink).trans hdesired⟩
    · obtain ⟨id, link, tp, hj, hiface⟩ := hrecord
      exact Or.inr ⟨id, link, tp, hsame.trans hj, hiface⟩
  · exact absurd h (by simp)

theorem bird_put (c : CostAgent F) (iface : String) (cost : ℕ) (iface' : String) :
    (c.put iface cost).bird.get iface' = if iface' = iface then some cost else c.bird.get iface' :=
  Map.get_set c.bird iface iface' cost

theorem mem_foreign_put (c : CostAgent F) (iface : String) (cost : ℕ) {iface' : String} :
    iface' ∈ (c.put iface cost).foreign ↔ iface' ∈ c.foreign ∧ iface' ≠ iface := by
  simp [put]

theorem inv_reapply {answer : ℕ → Except String ℤ} (hinv : c.Inv)
    (hok : c.InOrder (.reapply i answer)) (h : c.step (.reapply i answer) = some c') :
    c'.Inv := by
  simp only [step] at h
  split at h
  · rename_i iface has want rest htask
    simp only [InOrder, htask] at hok
    -- the entries are of commands, and this one is a reapply
    have hholds : ∀ iface j cost, c.last.get iface = some (j, cost) →
        c.Holds iface j cost ∧ (c.tasks.set i (.reapplying rest))[j]? = c.tasks[j]? := by
      intro iface j cost hlast
      have hholds := hinv.holds iface j cost hlast
      have hji : j ≠ i := hholds.ne htask (by simp) rfl
      exact ⟨hholds, List.getElem?_set_ne hji.symm⟩
    split at h
    · rename_i hset
      obtain rfl := Option.some.inj h
      refine ⟨fun iface' j cost hlast hforeign => ?_, fun iface' j cost hlast => ?_⟩
      · change (c.put iface want).bird.get iface' = some cost
        rw [bird_put]
        split
        · -- what is applied again is the cost applied last
          rename_i hiface
          subst hiface
          exact congrArg some (hok hset _ hlast).symm
        · rename_i hiface
          apply hinv.bird iface' j cost hlast
          intro hmem
          exact hforeign ((mem_foreign_put c iface want).mpr ⟨hmem, hiface⟩)
      · obtain ⟨hheld, hsame⟩ := hholds iface' j cost hlast
        exact hheld.congr hsame rfl
    · obtain rfl := Option.some.inj h
      refine ⟨hinv.bird, fun iface' j cost hlast => ?_⟩
      obtain ⟨hheld, hsame⟩ := hholds iface' j cost hlast
      exact hheld.congr hsame rfl
  · exact absurd h (by simp)

theorem inv_command {id : String} {link : LinkKey} {traceparent : Option String} (hinv : c.Inv)
    (h : c.step (.command id link cost traceparent) = some c') : c'.Inv := by
  simp only [step] at h
  split at h
  · obtain rfl := Option.some.inj h
    exact ⟨hinv.bird, hinv.holds⟩
  · obtain rfl := Option.some.inj h
    refine ⟨hinv.bird, fun iface j cost hlast => ?_⟩
    have hholds := hinv.holds iface j cost hlast
    exact hholds.congr (hholds.getElem?_append _) rfl

theorem inv_apply {answer : ℕ → Except String ℤ} (hinv : c.Inv)
    (h : c.step (.apply i answer) = some c') : c'.Inv := by
  simp only [step] at h
  split at h
  · rename_i id link cost tp htask
    have hlt : i < c.tasks.length := (List.getElem?_eq_some_iff.mp htask).1
    -- the entries of the other interfaces are of other commands, which this one leaves
    have hother : ∀ (task : CostTask) iface j cost, c.last.get iface = some (j, cost) →
        (c.tasks.set i task)[j]? = c.tasks[j]? := by
      intro task iface j cost hlast
      have hji : j ≠ i := (hinv.holds iface j cost hlast).ne htask (by simp) rfl
      exact List.getElem?_set_ne hji.symm
    split at h
    · obtain rfl := Option.some.inj h
      have hlast' : ∀ iface, (c.last.set link.interface (i, cost)).get iface =
          if iface = link.interface then some (i, cost) else c.last.get iface :=
        fun iface => Map.get_set c.last link.interface iface (i, cost)
      refine ⟨fun iface j cost' hlast hforeign => ?_, fun iface j cost' hlast => ?_⟩
      · replace hlast := (hlast' iface).symm.trans hlast
        change (c.put link.interface cost).bird.get iface = some cost'
        rw [bird_put]
        split at hlast
        · -- this command is the one that applied last from now on
          simp only [Option.some.injEq, Prod.mk.injEq] at hlast
          rw [if_pos ‹_›, hlast.2]
        · rename_i hiface
          rw [if_neg hiface]
          apply hinv.bird iface j cost' hlast
          intro hmem
          exact hforeign ((mem_foreign_put c link.interface cost).mpr ⟨hmem, hiface⟩)
      · replace hlast := (hlast' iface).symm.trans hlast
        split at hlast
        · rename_i hiface
          simp only [Option.some.injEq, Prod.mk.injEq] at hlast
          obtain ⟨rfl, rfl⟩ := hlast
          exact Or.inr ⟨id, link, tp, List.getElem?_set_self hlt, hiface.symm⟩
        · exact (hinv.holds iface j cost' hlast).congr (hother _ iface j cost' hlast) rfl
    · -- refused: the routing daemon and the last costs are as they were
      obtain rfl := Option.some.inj h
      refine ⟨hinv.bird, fun iface j cost' hlast => ?_⟩
      exact (hinv.holds iface j cost' hlast).congr (hother _ iface j cost' hlast) rfl
  · exact absurd h (by simp)

theorem inv_record (hinv : c.Inv) (hok : c.InOrder (.record i))
    (h : c.step (.record i) = some c') : c'.Inv := by
  simp only [step] at h
  split at h
  · rename_i id link cost tp htask
    obtain rfl := Option.some.inj h
    simp only [InOrder, htask] at hok
    have hlt : i < c.tasks.length := (List.getElem?_eq_some_iff.mp htask).1
    have hdesired : ∀ iface, (c.node.recordCost link.interface cost).desired.get iface =
        if iface = link.interface then some cost else c.node.desired.get iface :=
      fun iface => Map.get_set c.node.desired link.interface iface cost
    refine ⟨hinv.bird, fun iface j cost' hlast => ?_⟩
    by_cases hji : j = i
    · -- this command applied last: it records what it applied
      subst hji
      rcases hinv.holds iface j cost' hlast with ⟨hj, -⟩ | ⟨id', link', tp', hj, hiface⟩
      · exact absurd (htask.symm.trans hj) (by simp)
      · rw [htask, Option.some.injEq, CostTask.record.injEq] at hj
        obtain ⟨-, rfl, rfl, -⟩ := hj
        exact Or.inl ⟨List.getElem?_set_self hlt, (hdesired iface).trans (if_pos hiface.symm)⟩
    · have hsame : (c.tasks.set i .done)[j]? = c.tasks[j]? := List.getElem?_set_ne (Ne.symm hji)
      rcases hinv.holds iface j cost' hlast with ⟨hj, hheld⟩ | ⟨id', link', tp', hj, hiface⟩
      · refine Or.inl ⟨hsame.trans hj, (hdesired iface).trans ?_⟩
        split
        · -- the command that applied last is through, so the costs agree
          rename_i hiface
          subst hiface
          rcases hok _ hlast with heq | hrec
          · exact congrArg some heq.symm
          · simp [Recording, hj, CostTask.isRecord] at hrec
        · exact hheld
      · exact Or.inr ⟨id', link', tp', hsame.trans hj, hiface⟩
  · exact absurd h (by simp)

theorem inv_redeploy (hinv : c.Inv) (h : c.step (.redeploy iface cost) = some c') : c'.Inv := by
  obtain rfl := Option.some.inj h
  refine ⟨fun iface' j cost' hlast hforeign => ?_, hinv.holds⟩
  rw [List.mem_cons, not_or] at hforeign
  change (c.bird.set iface cost).get iface' = some cost'
  rw [Map.get_set_ne _ _ hforeign.1]
  exact hinv.bird iface' j cost' hlast hforeign.2

/-- What every section keeps. -/
theorem Inv.step {e : CostEvent} (hinv : c.Inv) (hok : c.InOrder e) (h : c.step e = some c') :
    c'.Inv := by
  cases e with
  | read links => exact inv_read hinv h
  | compute i => exact inv_compute hinv hok h
  | reapply i answer => exact inv_reapply hinv hok h
  | command id link cost traceparent => exact inv_command hinv h
  | apply i answer => exact inv_apply hinv h
  | record i => exact inv_record hinv hok h
  | redeploy iface cost => exact inv_redeploy hinv h

/-- Without a step in progress the cost applied last is the recorded one. -/
theorem Inv.settled (hinv : c.Inv) (hidle : c.Idle) : c.Settled := by
  intro iface j cost hlast hforeign
  refine ⟨hinv.bird iface j cost hlast hforeign, ?_⟩
  rcases hinv.holds iface j cost hlast with ⟨-, hdesired⟩ | ⟨id, link, tp, hj, -⟩
  · exact hdesired
  · exact absurd (hidle _ (List.mem_of_getElem? hj)) (by simp)

private def tunnel : LinkKey := ⟨"spoke-1", "hub", "awg_hub"⟩
private def found (cost : ℕ) : List Link := [⟨"awg_hub", "hub", some cost⟩]
private def done : ℕ → Except String ℤ := fun _ => .ok 0
private def startAgent : CostAgent ℕ := init "spoke-1" ((∅ : Map String ℕ).set "awg_hub" 10)

/-- A command that runs from start to end as the `i`-th task. -/
private def applied (i cost : ℕ) : List CostEvent :=
  [.command "apply" tunnel cost none, .apply i done, .record i]

end CostAgent

end Mielofon
