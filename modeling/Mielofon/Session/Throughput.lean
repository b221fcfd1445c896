import Mathlib
import Mielofon.Session.Lease

namespace Mielofon

open Lib

/-!
# One throughput test per node

A throughput test runs under a lease on both nodes of its link.  The lease counts whole seconds
from the second it was granted in; the deadline of the command counts real time from the
dispatch.  The lease names the nodes as the link did when it was granted; a node may register
under another name, or be renamed through the directory, while the test runs.

* `deadline`, `Request.Outstanding` — when a command is timed out;
* `TimedController.step` — the controller with a clock, and the one lease the scheduler has been
  granted and not yet dispatched a command under;
* `WorkerRegistry.farEnd`, `Apart` — the current name of a link's far end, and tests that share
  no node;
* `TimedController.OneTestPerNode` — no two tests under way share a node;
* `TimedController.Guarded` — no lease is granted next to a test whose own has expired or has
  other names, and no two nodes under test get one name;
* `oneTestPerNode_of_guarded` — every run with guarded steps has one test per node;
* `node_in_two_tests` — a lease that expires before the deadline, and a far end that is renamed.
-/

variable {F : Type*}

/-! ### Tests -/

/-- How long each command may take, from the dispatch to the reply, in seconds. -/
def deadline : WorkCmd → ℕ
  | .probe _ .always .. => 30
  | .probe _ .throughput .. => 120
  | .applyCost .. => 60
  | .trace .. => 30

/-- The clock counts nanoseconds. -/
def secNanos : ℕ := 1000000000

/-- A throughput test: the agent that runs it, its lease's token, its link. -/
structure Test where
  agent : String
  token : String
  link : LinkKey
deriving DecidableEq, Repr

/-- The test a command asks for. -/
def testOf (agent : String) : WorkCmd → Option Test
  | .probe _ .throughput (some token) link _ => some ⟨agent, token, link⟩
  | _ => none

namespace Request

def test? (r : Request) : Option Test := testOf r.agent r.cmd

/-- Dispatched at `start`, and at `clock` neither answered nor timed out. -/
def Outstanding (r : Request) (start clock : ℕ) : Prop :=
  (r.phase = .begun ∨ r.phase = .sent) ∧ clock < start + deadline r.cmd * secNanos

instance (r : Request) (start clock : ℕ) : Decidable (r.Outstanding start clock) :=
  inferInstanceAs (Decidable (_ ∧ _))

end Request

/-! ### Nodes -/

namespace WorkerRegistry

/-- The current name of a link's far end: as the registry has the link, or the registered
    spelling when the agent no longer reports it. -/
def farEnd (w : WorkerRegistry) (agent : String) (link : LinkKey) : String :=
  match (w.entry agent).links.find? (fun l => l.from = link.from ∧ l.interface = link.interface) with
  | some l => l.to
  | none => w.canonicalPeer link.to

/-- The nodes a test occupies. -/
def nodes (w : WorkerRegistry) (x : Test) : List String := [x.link.from, w.farEnd x.agent x.link]

/-- Two tests share no node. -/
def Apart (w : WorkerRegistry) (x y : Test) : Prop := ∀ a ∈ w.nodes x, a ∉ w.nodes y

instance (w : WorkerRegistry) (x y : Test) : Decidable (w.Apart x y) :=
  List.decidableBAll _ (w.nodes x)

theorem Apart.symm {w : WorkerRegistry} {x y : Test} (h : w.Apart x y) : w.Apart y x :=
  fun a ha hx => h a hx ha

end WorkerRegistry

/-! ### The controller with a clock -/

/-- The controller, the time, the lease the scheduler holds without a command yet, and when each
    command was dispatched. -/
structure TimedController (F : Type*) where
  ctl : Controller F
  clock : ℕ
  planned : Option Test
  started : List ℕ

inductive TimedEvent (F : Type*) where
  | elapse (nanos : ℕ)
  | op (e : Event F)

namespace TimedController

/-- The wall clock as the code reads it: in whole seconds. -/
def secs (c : TimedController F) : ℕ := c.clock / secNanos

def init (tsdb : Tsdb F) (clock : ℕ) : TimedController F := ⟨Controller.init tsdb, clock, none, []⟩

/-- The operations the controller can be at.  The scheduler asks for one lease at a time, and
    dispatches the command under it or gives it back; nobody else holds a token. -/
def Allowed (c : TimedController F) : Event F → Prop
  | .acquire _ _ _ now => c.planned = none ∧ now = c.secs
  | .begin agent _ cmd => ∀ x ∈ testOf agent cmd, c.planned = some x
  | .release link token => ∃ x ∈ c.planned, link = x.link.id ∧ token = x.token
  | .mark _ now | .reply _ _ now | .fail _ now => now = c.secs
  | .post m now => m.token = none ∧ now = c.secs
  | _ => True

instance (c : TimedController F) (e : Event F) : Decidable (c.Allowed e) := by
  refine Event.casesOn e ?_ ?_ ?_ ?_ ?_ ?_ ?_ ?_ ?_ ?_ ?_ ?_ ?_ ?_ ?_ ?_ <;>
    intros <;> delta Allowed <;> dsimp only <;> infer_instance

/-- The lease the scheduler holds after an operation. -/
def plannedAfter (c : TimedController F) (e : Event F) (ctl : Controller F) : Option Test :=
  match e with
  | .acquire agent link token _ =>
    if c.ctl.leases.length < ctl.leases.length then some ⟨agent, token, link⟩ else none
  | .begin agent _ cmd =>
    if (testOf agent cmd).isSome ∧ c.ctl.requests.length < ctl.requests.length then none
    else c.planned
  | .release .. => none
  | _ => c.planned

variable [LinearOrder F] [Zero F] [Add F]

/-- Time passes, or the controller does one operation. -/
def step (c : TimedController F) : TimedEvent F → Option (TimedController F)
  | .elapse nanos => some { c with clock := c.clock + nanos }
  | .op e =>
    if c.Allowed e then
      (c.ctl.step e).map fun ctl => { c with
        ctl
        planned := c.plannedAfter e ctl
        started := if c.ctl.requests.length < ctl.requests.length then c.started ++ [c.clock]
          else c.started }
    else none

/-! ### Tests under way -/

omit [LinearOrder F] [Zero F] [Add F] in
/-- The `i`-th command is a test under way. -/
def RunsAt (c : TimedController F) (i : ℕ) (x : Test) : Prop :=
  ∃ r start, c.ctl.requests[i]? = some r ∧ c.started[i]? = some start ∧
    r.Outstanding start c.clock ∧ r.test? = some x

/-- No two tests under way share a node. -/
def OneTestPerNode (c : TimedController F) : Prop :=
  ∀ i j x y, c.RunsAt i x → c.RunsAt j y → i ≠ j → c.ctl.app.workers.Apart x y

/-- The tests under way. -/
def running (c : TimedController F) : List Test :=
  (c.ctl.requests.zip c.started).filterMap fun p =>
    if p.1.Outstanding p.2 c.clock then p.1.test? else none

/-- The tests under way and the one about to be dispatched. -/
def tests (c : TimedController F) : List Test := c.planned.toList ++ c.running

/-- An operation gives no two nodes under test one name. -/
def KeepsApart (c : TimedController F) (e : Event F) : Prop :=
  ∀ ctl ∈ c.ctl.step e, ∀ x ∈ c.tests, ∀ y ∈ c.tests,
    c.ctl.app.workers.Apart x y → ctl.app.workers.Apart x y

instance (c : TimedController F) (e : Event F) : Decidable (c.KeepsApart e) :=
  inferInstanceAs (Decidable (∀ ctl ∈ c.ctl.step e, _))

/-- No lease is granted next to a test whose own lease has expired or names other nodes, and no
    registration or renaming gives two nodes under test one name. -/
def Guarded (c : TimedController F) : TimedEvent F → Prop
  | .op (.acquire agent link token now) =>
    ∀ x ∈ c.running, ¬ c.ctl.app.workers.Apart x ⟨agent, token, link⟩ ∨ x.link.id = link.id →
      ∀ l ∈ c.ctl.leases, l.token = x.token → l.expired now = false ∧ l.occupies link = true
  | .op (.register h req) => c.KeepsApart (.register h req)
  | .op (.sync h lookup) => c.KeepsApart (.sync h lookup)
  | .op (.attach h) => c.KeepsApart (.attach h)
  | .op (.detach h) => c.KeepsApart (.detach h)
  | .op (.rename lookup) => c.KeepsApart (.rename lookup)
  | _ => True

instance (c : TimedController F) (e : TimedEvent F) : Decidable (c.Guarded e) := by
  refine TimedEvent.casesOn e ?_ ?_
  · exact fun _ => inferInstanceAs (Decidable True)
  · intro e
    refine Event.casesOn e ?_ ?_ ?_ ?_ ?_ ?_ ?_ ?_ ?_ ?_ ?_ ?_ ?_ ?_ ?_ ?_ <;>
      intros <;> delta Guarded <;> dsimp only <;> infer_instance

/-! ### Who is under way -/

variable {c c' : TimedController F} {x y : Test}

omit [LinearOrder F] [Zero F] [Add F] in
theorem mem_running : x ∈ c.running ↔ ∃ i, c.RunsAt i x := by
  unfold running RunsAt
  rw [List.mem_filterMap]
  constructor
  · rintro ⟨⟨r, start⟩, hmem, hx⟩
    split at hx
    · rename_i hout
      obtain ⟨i, hi⟩ := List.mem_iff_getElem?.mp hmem
      rw [List.getElem?_zip_eq_some] at hi
      exact ⟨i, r, start, hi.1, hi.2, hout, hx⟩
    · exact absurd hx (by simp)
  · rintro ⟨i, r, start, hr, hstart, hout, hx⟩
    refine ⟨(r, start), List.mem_of_getElem? (List.getElem?_zip_eq_some.mpr ⟨hr, hstart⟩), ?_⟩
    rw [if_pos hout, hx]

omit [LinearOrder F] [Zero F] [Add F] in
theorem mem_tests : x ∈ c.tests ↔ x ∈ c.planned ∨ ∃ i, c.RunsAt i x := by
  rw [tests, List.mem_append, mem_running, Option.mem_toList]
  rfl

/-- What holds in every state of a run with guarded steps. -/
structure Inv (c : TimedController F) : Prop where
  lease : LeaseInv c.ctl
  length : c.started.length = c.ctl.requests.length
  /-- Two commands have two tokens. -/
  tokens : ∀ (i j : ℕ) (r r' : Request) (x y : Test), c.ctl.requests[i]? = some r → c.ctl.requests[j]? = some r' →
    r.test? = some x → r'.test? = some y → x.token = y.token → i = j
  fresh : ∀ p ∈ c.planned, ∀ r ∈ c.ctl.requests, ∀ x ∈ r.test?, x.token ≠ p.token
  /-- Only tests carry a token. -/
  leased : ∀ r ∈ c.ctl.requests, ∀ id tier token link tp,
    r.cmd = .probe id tier (some token) link tp → r.test? = some ⟨r.agent, token, link⟩
  /-- The lease of a test is stored until it expires. -/
  held : ∀ x ∈ c.tests, ∀ l ∈ c.ctl.leases, l.token = x.token →
    c.ctl.app.fence.lease.get x.link.id = some l ∨ l.expired c.secs = true
  apart : c.OneTestPerNode
  next : ∀ p ∈ c.planned, ∀ i x, c.RunsAt i x → c.ctl.app.workers.Apart p x

omit [LinearOrder F] [Zero F] [Add F] in
theorem inv_init (tsdb : Tsdb F) (clock : ℕ) : (init tsdb clock).Inv := by
  refine ⟨⟨by simp [init, Controller.init, Fence.new], by simp [init, Controller.init],
    by simp [init, Controller.init]⟩, rfl, by simp [init, Controller.init],
    by simp [init], by simp [init, Controller.init], ?_, ?_, by simp [init]⟩
  · intro x _ l hl
    exact absurd hl (by simp [init, Controller.init])
  · rintro i j x y ⟨r, start, hr, -⟩
    exact absurd hr (by simp [init, Controller.init])

omit [LinearOrder F] [Zero F] [Add F] in
/-- An expired lease stays expired. -/
theorem expired_of_le {l : Lease} {now later : ℕ} (hle : now ≤ later) (h : l.expired now = true) :
    l.expired later = true := by
  simp only [Lease.expired, decide_eq_true_eq] at h ⊢
  omega

/-- The requests of `c'` are those of `c`, some of which have ended. -/
def Ends (c c' : TimedController F) : Prop :=
  ∀ (j : ℕ) (r' : Request), c'.ctl.requests[j]? = some r' → ∃ r, c.ctl.requests[j]? = some r ∧
    r'.agent = r.agent ∧ r'.cmd = r.cmd ∧
    (r'.phase = .begun ∨ r'.phase = .sent → r.phase = .begun ∨ r.phase = .sent)

omit [LinearOrder F] [Zero F] [Add F] in
theorem Ends.runsAt (h : Ends c c') (hstarted : c'.started = c.started)
    (hclock : c.clock ≤ c'.clock) {i : ℕ} (hx : c'.RunsAt i x) : c.RunsAt i x := by
  obtain ⟨r', start, hr', hstart, ⟨hphase, hdue⟩, htest⟩ := hx
  obtain ⟨r, hr, hagent, hcmd, himp⟩ := h i r' hr'
  refine ⟨r, start, hr, hstarted ▸ hstart, ⟨himp hphase, ?_⟩, ?_⟩
  · rw [hcmd] at hdue
    omega
  · rw [← htest, Request.test?, Request.test?, hagent, hcmd]

omit [LinearOrder F] [Zero F] [Add F] in
/-- An operation that starts no test, loses no lease of one under way and keeps nodes apart. -/
theorem Inv.shrink (hinv : c.Inv) (hlease : LeaseInv c'.ctl) (hends : Ends c c')
    (hlength : c'.ctl.requests.length = c.ctl.requests.length)
    (hstarted : c'.started = c.started) (hclock : c.clock ≤ c'.clock)
    (hleases : c'.ctl.leases = c.ctl.leases) (hplanned : ∀ p ∈ c'.planned, p ∈ c.planned)
    (hfence : ∀ x ∈ c'.tests, ∀ l, c.ctl.app.fence.lease.get x.link.id = some l →
      l.token = x.token → c'.ctl.app.fence.lease.get x.link.id = some l)
    (hkeep : ∀ x ∈ c.tests, ∀ y ∈ c.tests, c.ctl.app.workers.Apart x y →
      c'.ctl.app.workers.Apart x y) : c'.Inv := by
  have htests : ∀ x ∈ c'.tests, x ∈ c.tests := by
    intro x hx
    rcases mem_tests.mp hx with hp | ⟨i, hi⟩
    · exact mem_tests.mpr (Or.inl (hplanned x hp))
    · exact mem_tests.mpr (Or.inr ⟨i, hends.runsAt hstarted hclock hi⟩)
  have htest : ∀ {j : ℕ} {r' : Request} {x : Test}, c'.ctl.requests[j]? = some r' →
      r'.test? = some x → ∃ r, c.ctl.requests[j]? = some r ∧ r.test? = some x := by
    intro j r' x hr' hx
    obtain ⟨r, hr, hagent, hcmd, -⟩ := hends j r' hr'
    exact ⟨r, hr, by rw [← hx, Request.test?, Request.test?, hagent, hcmd]⟩
  -- every test and request of the new state was one of the old, and the clock is no earlier
  refine ⟨hlease, ?_, ?_, ?_, ?_, ?_, ?_, ?_⟩
  · rw [hstarted, hlength, hinv.length]
  · intro i j r r' x y hr hr' hx hy heq
    obtain ⟨r₀, hr₀, hx₀⟩ := htest hr hx
    obtain ⟨r₁, hr₁, hy₁⟩ := htest hr' hy
    exact hinv.tokens i j r₀ r₁ x y hr₀ hr₁ hx₀ hy₁ heq
  · intro p hp r hr x hx
    obtain ⟨j, hj⟩ := List.mem_iff_getElem?.mp hr
    obtain ⟨r₀, hr₀, hx₀⟩ := htest hj hx
    exact hinv.fresh p (hplanned p hp) r₀ (List.mem_of_getElem? hr₀) x hx₀
  · intro r hr id tier token link tp hcmd
    obtain ⟨j, hj⟩ := List.mem_iff_getElem?.mp hr
    obtain ⟨r₀, hr₀, hagent, hcmd₀, -⟩ := hends j r hj
    have hold := hinv.leased r₀ (List.mem_of_getElem? hr₀) id tier token link tp (hcmd₀ ▸ hcmd)
    rw [Request.test?, hagent, hcmd₀]
    exact hold
  · intro x hx l hl htoken
    rw [hleases] at hl
    rcases hinv.held x (htests x hx) l hl htoken with hget | hexp
    · exact Or.inl (hfence x hx l hget htoken)
    · exact Or.inr (expired_of_le (Nat.div_le_div_right hclock) hexp)
  · intro i j x y hx hy hij
    have hx₀ := hends.runsAt hstarted hclock hx
    have hy₀ := hends.runsAt hstarted hclock hy
    exact hkeep x (mem_tests.mpr (Or.inr ⟨i, hx₀⟩)) y (mem_tests.mpr (Or.inr ⟨j, hy₀⟩))
      (hinv.apart i j x y hx₀ hy₀ hij)
  · intro p hp i x hx
    have hx₀ := hends.runsAt hstarted hclock hx
    exact hkeep p (mem_tests.mpr (Or.inl (hplanned p hp))) x (mem_tests.mpr (Or.inr ⟨i, hx₀⟩))
      (hinv.next p (hplanned p hp) i x hx₀)

/-! ### Operations that leave the names -/

omit [LinearOrder F] [Zero F] [Add F] in
/-- An update that leaves the links of every agent leaves the names. -/
theorem nodes_modify {f : Worker → Worker} (hf : ∀ w, (f w).links = w.links) (w : WorkerRegistry)
    (agent : String) (x : Test) : (w.modify agent f).nodes x = w.nodes x := by
  have hlinks : ((w.modify agent f).entry x.agent).links = (w.entry x.agent).links := by
    unfold WorkerRegistry.entry
    rw [WorkerRegistry.worker_modify]
    split
    · cases w.worker x.agent with
      | none => rfl
      | some worker => exact hf worker
    · rfl
  have hkeys : (w.modify agent f).inner.keys = w.inner.keys := by
    unfold WorkerRegistry.modify
    split
    · rename_i hw
      rw [Map.set, if_pos (Map.mem_of_get hw), AList.keys_replace]
    · rfl
  have hpeer : ∀ name, (w.modify agent f).canonicalPeer name = w.canonicalPeer name := by
    intro name
    have hmem : name ∈ (w.modify agent f).inner ↔ name ∈ w.inner := by
      rw [AList.mem_keys, AList.mem_keys, hkeys]
    unfold WorkerRegistry.canonicalPeer
    simp only [hmem, hkeys]
  unfold WorkerRegistry.nodes WorkerRegistry.farEnd
  rw [hlinks, hpeer]

/-- The registry after an operation that leaves the names. -/
def SameNames (w w' : WorkerRegistry) : Prop := ∀ x, w'.nodes x = w.nodes x

omit [LinearOrder F] [Zero F] [Add F] in
theorem SameNames.refl (w : WorkerRegistry) : SameNames w w := fun _ => rfl

omit [LinearOrder F] [Zero F] [Add F] in
theorem SameNames.apart {w w' : WorkerRegistry} (h : SameNames w w') (hxy : w.Apart x y) :
    w'.Apart x y := by
  unfold WorkerRegistry.Apart
  rw [h, h]
  exact hxy

omit [LinearOrder F] [Zero F] [Add F] in
theorem sameNames_setAppliedSent (w : WorkerRegistry) (agent : String) (link : LinkKey)
    (cost : ℕ) : SameNames w (w.setAppliedSent agent link cost) := by
  intro x
  apply nodes_modify
  exact fun _ => rfl

omit [LinearOrder F] [Zero F] [Add F] in
theorem sameNames_noteApplyFailed (w : WorkerRegistry) (agent : String) (link : LinkKey)
    (now : ℕ) : SameNames w (w.noteApplyFailed agent link now) := by
  intro x
  apply nodes_modify
  exact fun _ => rfl

theorem sameNames_handleReply (st : AppState F) (reply : AgentReply F) (now : ℕ) :
    SameNames st.workers (handleReply st reply now).workers := by
  cases reply with
  | probe r => exact SameNames.refl _
  | applied agent id link cost note tp =>
    cases note with
    | none => exact sameNames_setAppliedSent _ _ _ _
    | some n => exact sameNames_noteApplyFailed _ _ _ _
  | trace agent id => exact SameNames.refl _

omit [LinearOrder F] [Zero F] [Add F] in
theorem sameNames_onFailure (st : AppState F) (agent : String) (cmd : WorkCmd) (now : ℕ) :
    SameNames st.workers (onFailure st agent cmd now).workers := by
  unfold onFailure
  split
  · exact SameNames.refl _
  · exact SameNames.refl _
  · exact sameNames_noteApplyFailed _ _ _ _
  · exact SameNames.refl _

omit [LinearOrder F] [Zero F] [Add F] in
theorem sameNames_markSent (w : WorkerRegistry) (agent : String) (cmd : WorkCmd) (now : ℕ) :
    SameNames w (Controller.markSent w agent cmd now) := by
  cases cmd with
  | probe id tier token link tp =>
    intro x
    apply nodes_modify
    exact fun _ => rfl
  | applyCost id link cost tp => exact sameNames_setAppliedSent _ _ _ _
  | trace id target tp => exact SameNames.refl _

omit [LinearOrder F] [Zero F] [Add F] in
theorem sameNames_finishOn (c : Controller F) (i : ℕ) (r : Request) :
    SameNames c.app.workers (c.finishOn i r).app.workers := by
  unfold Controller.finishOn
  cases trackKey r.cmd with
  | none => exact SameNames.refl _
  | some key =>
    intro x
    apply nodes_modify
    exact fun _ => rfl

omit [LinearOrder F] [Zero F] [Add F] in
theorem sameNames_claim (c : Controller F) (agent : String) (sid : ℕ) (cmd : WorkCmd) :
    SameNames c.app.workers (c.claim agent sid cmd).app.workers := by
  rcases c.claim_cases agent sid cmd with heq | ⟨workers, heq, hworkers⟩
  · rw [heq]
    exact SameNames.refl _
  · rw [heq]
    rcases hworkers with ⟨-, rfl⟩ | ⟨link, kind, w, -, -, -, rfl⟩
    · exact SameNames.refl _
    · intro x
      apply nodes_modify
      exact fun _ => rfl

/-! ### Leases that are given back -/

omit [LinearOrder F] [Zero F] [Add F] in
/-- A release leaves the leases with another token. -/
theorem get_release_of_ne {f : Fence} {link token k : String} {l : Lease}
    (hl : f.lease.get k = some l) (hne : l.token ≠ token) :
    (f.release link token).1.lease.get k = some l := by
  rw [Fence.get_release, if_neg]
  · exact hl
  · rintro ⟨rfl, htoken⟩
    rw [hl] at htoken
    exact hne (Option.some.inj htoken)

omit [LinearOrder F] [Zero F] [Add F] in
/-- A lease that is released was not the one of another test. -/
theorem fence_onFailure_of_ne {st : AppState F} {r : Request} {now : ℕ} {k : String} {l : Lease}
    (hl : st.fence.lease.get k = some l) (hne : ∀ x ∈ r.test?, l.token ≠ x.token) :
    (onFailure st r.agent r.cmd now).fence.lease.get k = some l := by
  unfold onFailure
  split
  · rename_i token link tp hcmd
    have htest : r.test? = some ⟨r.agent, token, link⟩ := by rw [Request.test?, hcmd, testOf]
    exact get_release_of_ne hl (hne _ htest)
  · exact hl
  · exact hl
  · exact hl

theorem fence_handleReply_of_ne {st : AppState F} {r : Request} {reply : AgentReply F} {now : ℕ}
    {k : String} {l : Lease} (hecho : Echoes r.agent r.cmd reply)
    (hleased : ∀ id tier token link tp, r.cmd = .probe id tier (some token) link tp →
      r.test? = some ⟨r.agent, token, link⟩)
    (hl : st.fence.lease.get k = some l) (hne : ∀ x ∈ r.test?, l.token ≠ x.token) :
    (handleReply st reply now).fence.lease.get k = some l := by
  cases reply with
  | applied agent id link cost note tp => cases note <;> exact hl
  | trace agent id => exact hl
  | probe p =>
    rw [fence_probe]
    split
    · rename_i token htoken
      -- the token is the one of the command
      cases hcmd : r.cmd with
      | applyCost => exact absurd (hcmd ▸ hecho) (by simp [Echoes])
      | trace => exact absurd (hcmd ▸ hecho) (by simp [Echoes])
      | probe id tier token' link tp =>
        rw [hcmd] at hecho
        obtain ⟨-, -, heq, -⟩ := hecho
        rw [htoken] at heq
        subst heq
        exact get_release_of_ne hl (hne _ (hleased id tier token link tp hcmd))
    · exact hl

/-! ### The requests after an operation -/

omit [LinearOrder F] [Zero F] [Add F] in
theorem Ends.of_eq (h : c'.ctl.requests = c.ctl.requests) : Ends c c' := by
  intro j r hr
  exact ⟨r, h ▸ hr, rfl, rfl, id⟩

omit [LinearOrder F] [Zero F] [Add F] in
theorem Ends.of_set {i : ℕ} {r x : Request} (hr : c.ctl.requests[i]? = some r)
    (h : c'.ctl.requests = c.ctl.requests.set i x) (hagent : x.agent = r.agent)
    (hcmd : x.cmd = r.cmd)
    (hphase : x.phase = .begun ∨ x.phase = .sent → r.phase = .begun ∨ r.phase = .sent) :
    Ends c c' := by
  intro j r' hr'
  rw [h, List.getElem?_set] at hr'
  split at hr'
  · rename_i hij
    subst hij
    split at hr'
    · obtain rfl := Option.some.inj hr'
      exact ⟨r, hr, hagent, hcmd, hphase⟩
    · exact absurd hr' (by simp)
  · exact ⟨r', hr', rfl, rfl, id⟩

/-- A step is time that passes or an operation the controller can be at. -/
theorem step_op_cases {e : Event F} (h : c.step (.op e) = some c') :
    ∃ ctl, c.Allowed e ∧ c.ctl.step e = some ctl ∧ c' = { c with
      ctl
      planned := c.plannedAfter e ctl
      started := if c.ctl.requests.length < ctl.requests.length then c.started ++ [c.clock]
        else c.started } := by
  simp only [step] at h
  split at h
  · rename_i hallowed
    rw [Option.map_eq_some_iff] at h
    obtain ⟨ctl, hctl, rfl⟩ := h
    exact ⟨ctl, hallowed, hctl, rfl⟩
  · exact absurd h (by simp)

omit [LinearOrder F] [Zero F] [Add F] in
/-- An operation that starts no test, as it shows in the controller. -/
theorem Inv.quiet (hinv : c.Inv) {ctl : Controller F} {planned : Option Test}
    (hlease : LeaseInv ctl)
    (hends : Ends c { c with ctl })
    (hlength : ctl.requests.length = c.ctl.requests.length)
    (hleases : ctl.leases = c.ctl.leases) (hplanned : ∀ p ∈ planned, p ∈ c.planned)
    (hfence : ∀ x, (x ∈ planned ∨ ∃ i, ({ c with ctl } : TimedController F).RunsAt i x) → ∀ l,
      c.ctl.app.fence.lease.get x.link.id = some l → l.token = x.token →
        ctl.app.fence.lease.get x.link.id = some l)
    (hkeep : ∀ x ∈ c.tests, ∀ y ∈ c.tests, c.ctl.app.workers.Apart x y →
      ctl.app.workers.Apart x y) :
    ({ c with
      ctl
      planned
      started := if c.ctl.requests.length < ctl.requests.length then c.started ++ [c.clock]
        else c.started } : TimedController F).Inv := by
  rw [hlength, if_neg (lt_irrefl _)]
  exact hinv.shrink hlease hends hlength rfl (le_refl _) hleases hplanned
    (fun x hx => hfence x (mem_tests.mp hx)) hkeep

theorem inv_elapse {nanos : ℕ} (hinv : c.Inv) (h : c.step (.elapse nanos) = some c') : c'.Inv := by
  obtain rfl := Option.some.inj h
  exact hinv.shrink hinv.lease (Ends.of_eq rfl) rfl rfl (Nat.le_add_right _ _) rfl
    (fun _ hp => hp) (fun _ _ _ hl _ => hl) fun _ _ _ _ hxy => hxy

omit [LinearOrder F] [Zero F] [Add F] in
/-- The tests that go on while the `i`-th command ends have other tokens. -/
theorem token_ne_of_ended (hinv : c.Inv) {i : ℕ} {r x : Request} {ctl : Controller F}
    (hr : c.ctl.requests[i]? = some r) (hset : ctl.requests = c.ctl.requests.set i x)
    (hended : ¬ (x.phase = .begun ∨ x.phase = .sent)) {y : Test}
    (hy : y ∈ c.planned ∨ ∃ j, ({ c with ctl } : TimedController F).RunsAt j y) :
    ∀ t ∈ r.test?, y.token ≠ t.token := by
  intro t ht heq
  rcases hy with hp | ⟨j, r', start, hr', -, ⟨hphase, -⟩, htest⟩
  · exact hinv.fresh y hp r (List.mem_of_getElem? hr) t ht heq.symm
  · rw [hset, List.getElem?_set] at hr'
    split at hr'
    · -- the command itself has ended
      split at hr'
      · obtain rfl := Option.some.inj hr'
        exact hended hphase
      · exact absurd hr' (by simp)
    · rename_i hij
      exact hij (hinv.tokens i j r r' t y hr hr' ht htest heq.symm)

/-- Every operation but a dispatch and a granted lease. -/
theorem inv_op (hinv : c.Inv) {e : Event F} {ctl : Controller F} (hallowed : c.Allowed e)
    (hguard : c.Guarded (.op e)) (h : c.ctl.step e = some ctl)
    (hbegin : ∀ agent sid cmd, e ≠ .begin agent sid cmd)
    (hacquire : ∀ agent link token now, e ≠ .acquire agent link token now) :
    ({ c with
      ctl
      planned := c.plannedAfter e ctl
      started := if c.ctl.requests.length < ctl.requests.length then c.started ++ [c.clock]
        else c.started } : TimedController F).Inv := by
  have hlease := leaseInv_step hinv.lease h
  have hsame : ∀ w, SameNames c.ctl.app.workers w → ∀ x ∈ c.tests, ∀ y ∈ c.tests,
      c.ctl.app.workers.Apart x y → w.Apart x y := fun w hw x _ y _ hxy => hw.apart hxy
  cases Controller.moves_of_step h with
  | opened =>
    exact hinv.quiet hlease (Ends.of_eq rfl) rfl rfl (fun _ hp => hp) (fun _ _ _ hl _ => hl)
      (hsame _ (SameNames.refl _))
  | fetch =>
    exact hinv.quiet hlease (Ends.of_eq rfl) rfl rfl (fun _ hp => hp) (fun _ _ _ hl _ => hl)
      (hsame _ (SameNames.refl _))
  | register =>
    exact hinv.quiet hlease (Ends.of_eq rfl) rfl rfl (fun _ hp => hp) (fun _ _ _ hl _ => hl)
      (hguard _ h)
  | sync =>
    exact hinv.quiet hlease (Ends.of_eq rfl) rfl rfl (fun _ hp => hp) (fun _ _ _ hl _ => hl)
      (hguard _ h)
  | attach =>
    exact hinv.quiet hlease (Ends.of_eq rfl) rfl rfl (fun _ hp => hp) (fun _ _ _ hl _ => hl)
      (hguard _ h)
  | detach =>
    exact hinv.quiet hlease (Ends.of_eq rfl) rfl rfl (fun _ hp => hp) (fun _ _ _ hl _ => hl)
      (hguard _ h)
  | rename =>
    exact hinv.quiet hlease (Ends.of_eq rfl) rfl rfl (fun _ hp => hp) (fun _ _ _ hl _ => hl)
      (hguard _ h)
  | begin => exact absurd rfl (hbegin _ _ _)
  | acquire => exact absurd rfl (hacquire _ _ _ _)
  | send hr hphase =>
    exact hinv.quiet hlease (Ends.of_set hr rfl rfl rfl fun _ => Or.inl hphase)
      (List.length_set) rfl (fun _ hp => hp) (fun _ _ _ hl _ => hl) (hsame _ (SameNames.refl _))
  | mark hr =>
    exact hinv.quiet hlease (Ends.of_set hr rfl rfl rfl id) List.length_set rfl
      (fun _ hp => hp) (fun _ _ _ hl _ => hl) (hsame _ (sameNames_markSent _ _ _ _))
  | @reply i now r reply hr hphase hecho =>
    have hended : ¬ ((reply.phase now : Phase) = .begun ∨ reply.phase now = .sent) := by
      unfold AgentReply.phase
      split <;> simp
    refine hinv.quiet hlease (Ends.of_set hr rfl rfl rfl fun hp => absurd hp hended)
      List.length_set rfl (fun _ hp => hp) (fun y hy l hl htoken => ?_)
      (hsame _ (sameNames_handleReply _ _ _))
    apply fence_handleReply_of_ne hecho (hinv.leased r (List.mem_of_getElem? hr)) hl
    rw [htoken]
    exact token_ne_of_ended hinv hr rfl hended hy
  | @fail i now r hr hphase =>
    have hended : ¬ (Phase.failed now = .begun ∨ Phase.failed now = .sent) := by simp
    refine hinv.quiet hlease (Ends.of_set hr rfl rfl rfl fun hp => absurd hp hended)
      List.length_set rfl (fun _ hp => hp) (fun y hy l hl htoken => ?_)
      (hsame _ (sameNames_onFailure _ _ _ _))
    apply fence_onFailure_of_ne hl
    rw [htoken]
    exact token_ne_of_ended hinv hr rfl hended hy
  | finish hr =>
    exact hinv.quiet hlease (Ends.of_set hr rfl rfl rfl id) List.length_set rfl
      (fun _ hp => hp) (fun _ _ _ hl _ => hl) (hsame _ (sameNames_finishOn _ _ _))
  | @release link token =>
    obtain ⟨p, hp, -, rfl⟩ := hallowed
    refine hinv.quiet hlease (Ends.of_eq rfl) rfl rfl (fun _ hq => absurd hq (by simp [plannedAfter]))
      (fun y hy l hl htoken => ?_) (hsame _ (SameNames.refl _))
    apply get_release_of_ne hl
    rw [htoken]
    -- the lease given back is of no command
    rcases hy with hq | ⟨j, r, start, hr, -, -, htest⟩
    · exact absurd hq (by simp [plannedAfter])
    · exact hinv.fresh p hp r (List.mem_of_getElem? hr) y htest
  | @post m now =>
    obtain ⟨hnone, -⟩ := hallowed
    refine hinv.quiet hlease (Ends.of_eq rfl) rfl rfl (fun _ hp => hp) (fun y _ l hl _ => ?_)
      (hsame _ (SameNames.refl _))
    have hfence : (ingestQuality c.ctl.app m now).fence = c.ctl.app.fence := by
      simp [ingestQuality, hnone]
    rw [hfence]
    exact hl

/-! ### A dispatch -/

omit [LinearOrder F] [Zero F] [Add F] in
/-- The requests after a dispatch: the old ones, and the new one. -/
theorem get_append_cases {l : List Request} {r x : Request} {j : ℕ}
    (h : (l ++ [x])[j]? = some r) : l[j]? = some r ∨ (j = l.length ∧ r = x) := by
  rw [List.getElem?_append] at h
  split at h
  · exact Or.inl h
  · rename_i hge
    rw [List.getElem?_singleton] at h
    split at h
    · rename_i hzero
      exact Or.inr ⟨by omega, (Option.some.inj h).symm⟩
    · exact absurd h (by simp)

omit [LinearOrder F] [Zero F] [Add F] in
/-- A dispatch adds at most the test of the lease the scheduler holds. -/
theorem inv_begin (hinv : c.Inv) {agent : String} {sid : ℕ} {cmd : WorkCmd}
    (hallowed : ∀ x ∈ testOf agent cmd, c.planned = some x) (hdisp : c.ctl.Dispatchable cmd)
    (hlease : LeaseInv (c.ctl.claim agent sid cmd)) :
    ({ c with
      ctl := c.ctl.claim agent sid cmd
      planned := c.plannedAfter (.begin agent sid cmd) (c.ctl.claim agent sid cmd)
      started := if c.ctl.requests.length < (c.ctl.claim agent sid cmd).requests.length then
          c.started ++ [c.clock]
        else c.started } : TimedController F).Inv := by
  have hsame := sameNames_claim c.ctl agent sid cmd
  rcases c.ctl.claim_cases agent sid cmd with heq | ⟨workers, heq, -⟩
  · -- the link already has a command of this kind in flight
    rw [heq] at hlease ⊢
    refine hinv.quiet hlease (Ends.of_eq rfl) rfl rfl (fun p hp => ?_) (fun _ _ _ hl _ => hl)
      (fun _ _ _ _ hxy => hxy)
    simpa [plannedAfter] using hp
  rw [heq] at hlease hsame ⊢
  have hgrown : c.ctl.requests.length <
      (c.ctl.requests ++ [(⟨agent, sid, cmd, .begun, false, false⟩ : Request)]).length := by simp
  simp only [plannedAfter, hgrown, and_true, if_true]
  -- the scheduler keeps the lease it holds only if the command is no test
  have hplanned : ∀ p ∈ (if (testOf agent cmd).isSome then none else c.planned),
      testOf agent cmd = none ∧ p ∈ c.planned := by
    intro p hp
    split at hp
    · exact absurd hp (by simp)
    · rename_i hnone
      exact ⟨by simpa using hnone, hp⟩
  have hruns : ∀ i x, ({ c with
      ctl := { c.ctl with
        app := { c.ctl.app with workers }
        fetched := c.ctl.fetched.erase (agent, sid)
        requests := c.ctl.requests ++ [⟨agent, sid, cmd, .begun, false, false⟩] }
      planned := if (testOf agent cmd).isSome then none else c.planned
      started := c.started ++ [c.clock] } : TimedController F).RunsAt i x →
      c.RunsAt i x ∨ (i = c.ctl.requests.length ∧ testOf agent cmd = some x) := by
    rintro i x ⟨r, start, hr, hstart, hout, htest⟩
    rcases get_append_cases hr with hold | ⟨rfl, rfl⟩
    · have hlt : i < c.started.length := by
        rw [hinv.length]
        exact (List.getElem?_eq_some_iff.mp hold).1
      exact Or.inl ⟨r, start, hold, (List.getElem?_append_left hlt).symm.trans hstart, hout, htest⟩
    · exact Or.inr ⟨rfl, htest⟩
  refine ⟨hlease, ?_, ?_, ?_, ?_, ?_, ?_, ?_⟩
  · simp [hinv.length]
  · intro i j r r' x y hr hr' hx hy htoken
    rcases get_append_cases hr with hr | ⟨rfl, rfl⟩ <;>
      rcases get_append_cases hr' with hr' | ⟨rfl, rfl⟩
    · exact hinv.tokens i j r r' x y hr hr' hx hy htoken
    · exact absurd htoken (hinv.fresh y (hallowed y hy) r (List.mem_of_getElem? hr) x hx)
    · exact absurd htoken.symm (hinv.fresh x (hallowed x hx) r' (List.mem_of_getElem? hr') y hy)
    · rfl
  · intro p hp r hr x hx
    obtain ⟨hnone, hp⟩ := hplanned p hp
    rcases List.mem_append.mp hr with hr | hr
    · exact hinv.fresh p hp r hr x hx
    · obtain rfl := List.mem_singleton.mp hr
      exact absurd (hnone.symm.trans hx) (by simp)
  · intro r hr id tier token link tp hcmd
    rcases List.mem_append.mp hr with hr | hr
    · exact hinv.leased r hr id tier token link tp hcmd
    · obtain rfl := List.mem_singleton.mp hr
      obtain rfl : cmd = _ := hcmd
      cases tier with
      | always => exact absurd (show some token = none from hdisp) (by simp)
      | throughput => rfl
  · intro x hx l hl htoken
    apply hinv.held x _ l hl htoken
    rcases mem_tests.mp hx with hp | ⟨i, hi⟩
    · exact mem_tests.mpr (Or.inl (hplanned x hp).2)
    · rcases hruns i x hi with hold | ⟨-, hnew⟩
      · exact mem_tests.mpr (Or.inr ⟨i, hold⟩)
      · exact mem_tests.mpr (Or.inl (hallowed x hnew))
  · intro i j x y hx hy hij
    apply hsame.apart
    rcases hruns i x hx with hx₀ | ⟨rfl, hx₀⟩ <;> rcases hruns j y hy with hy₀ | ⟨rfl, hy₀⟩
    · exact hinv.apart i j x y hx₀ hy₀ hij
    · exact (hinv.next y (hallowed y hy₀) i x hx₀).symm
    · exact hinv.next x (hallowed x hx₀) j y hy₀
    · exact absurd rfl hij
  · intro p hp i x hx
    obtain ⟨hnone, hp⟩ := hplanned p hp
    apply hsame.apart
    rcases hruns i x hx with hx | ⟨-, hx⟩
    · exact hinv.next p hp i x hx
    · exact absurd (hnone.symm.trans hx) (by simp)

/-! ### A lease -/

omit [LinearOrder F] [Zero F] [Add F] in
theorem cmd_of_test {r : Request} (h : r.test? = some x) :
    ∃ id tp, r.cmd = .probe id .throughput (some x.token) x.link tp := by
  unfold Request.test? testOf at h
  split at h
  · rename_i id token link tp hcmd
    obtain rfl := Option.some.inj h
    exact ⟨id, tp, hcmd⟩
  · exact absurd h (by simp)

omit [LinearOrder F] [Zero F] [Add F] in
/-- A test under way was dispatched under a lease. -/
theorem Inv.exists_lease (hinv : c.Inv) {i : ℕ} (hx : c.RunsAt i x) :
    ∃ l ∈ c.ctl.leases, l.token = x.token := by
  obtain ⟨r, start, hr, -, -, htest⟩ := hx
  obtain ⟨id, tp, hcmd⟩ := cmd_of_test htest
  obtain ⟨l, hl, htoken, -⟩ := hinv.lease.leased r (List.mem_of_getElem? hr) _ _ _ _ hcmd
  exact ⟨l, hl, htoken⟩

/-- A lease is granted only for a link that shares no node with a test under way. -/
theorem inv_acquire (hinv : c.Inv) {agent token : String} {link : LinkKey}
    (hfresh : ∀ l ∈ c.ctl.leases, l.token ≠ token)
    (hguard : c.Guarded (.op (.acquire agent link token c.secs)))
    (hlease : LeaseInv (c.ctl.acquireFor agent link token c.secs)) :
    ({ c with
      ctl := c.ctl.acquireFor agent link token c.secs
      planned := c.plannedAfter (.acquire agent link token c.secs)
        (c.ctl.acquireFor agent link token c.secs)
      started := if c.ctl.requests.length <
            (c.ctl.acquireFor agent link token c.secs).requests.length then c.started ++ [c.clock]
        else c.started } : TimedController F).Inv := by
  -- what the guard says of a test that shares a node or the id of the link
  have hlive : ∀ i x, c.RunsAt i x →
      ¬ c.ctl.app.workers.Apart x ⟨agent, token, link⟩ ∨ x.link.id = link.id →
      ∀ l ∈ c.ctl.leases, l.token = x.token → l.expired c.secs = false ∧
        l.occupies link = true ∧ c.ctl.app.fence.lease.get x.link.id = some l := by
    intro i x hx hshare l hl htoken
    obtain ⟨hfalse, hocc⟩ := hguard x (mem_running.mpr ⟨i, hx⟩) hshare l hl htoken
    refine ⟨hfalse, hocc, ?_⟩
    rcases hinv.held x (mem_tests.mpr (Or.inr ⟨i, hx⟩)) l hl htoken with hget | hexp
    · exact hget
    · exact absurd (hfalse.symm.trans hexp) (by simp)
  have hheld : ∀ i x, c.RunsAt i x → ∀ l ∈ c.ctl.leases, l.token = x.token →
      (c.ctl.app.fence.acquire agent link fenceTtlSecs c.secs token).1.lease.get x.link.id = some l ∨
        l.expired c.secs = true := by
    intro i x hx l hl htoken
    cases hexp : l.expired c.secs with
    | true => exact Or.inr rfl
    | false =>
      rcases hinv.held x (mem_tests.mpr (Or.inr ⟨i, hx⟩)) l hl htoken with hget | hexp'
      · apply Or.inl
        apply Fence.get_acquire_of_live hget hexp
        intro hid
        exact (hlive i x hx (Or.inr hid) l hl htoken).2.1
      · exact absurd (hexp.symm.trans hexp') (by simp)
  obtain ⟨leases, heq, hleases⟩ := c.ctl.acquireFor_cases agent link token c.secs
  rw [heq] at hlease ⊢
  simp only [lt_irrefl, if_false, plannedAfter]
  rcases hleases with ⟨rfl, -⟩ | ⟨rfl, lease, hok⟩
  · -- refused: only expired leases are dropped
    simp only [List.append_nil, lt_irrefl, if_false] at hlease ⊢
    refine ⟨hlease, hinv.length, hinv.tokens, by simp, hinv.leased, ?_, hinv.apart, by simp⟩
    intro x hx l hl htoken
    rcases mem_tests.mp hx with hp | ⟨i, hi⟩
    · exact absurd hp (by simp)
    · exact hheld i x hi l hl htoken
  · have hgrown : c.ctl.leases.length <
        (c.ctl.leases ++ [newLease agent link fenceTtlSecs c.secs token]).length := by simp
    rw [if_pos hgrown]
    obtain ⟨hapart, hget⟩ := Fence.granted hok
    refine ⟨hlease, hinv.length, hinv.tokens, ?_, hinv.leased, ?_, hinv.apart, ?_⟩
    · intro p hp r hr x hx htoken
      obtain rfl := Option.some.inj hp
      -- the token of a test under way is one of the leases before
      obtain ⟨id, tp, hcmd⟩ := cmd_of_test hx
      obtain ⟨l, hl, hltoken, -⟩ := hinv.lease.leased r hr _ _ _ _ hcmd
      exact hfresh l hl (hltoken.trans htoken)
    · intro x hx l hl htoken
      rcases mem_tests.mp hx with hp | ⟨i, hi⟩
      · obtain rfl := Option.some.inj hp
        rcases List.mem_append.mp hl with hl | hl
        · exact absurd htoken (hfresh l hl)
        · rw [List.mem_singleton.mp hl]
          exact Or.inl hget
      · rcases List.mem_append.mp hl with hl | hl
        · exact hheld i x hi l hl htoken
        · obtain ⟨l', hl', htoken'⟩ := hinv.exists_lease hi
          rw [List.mem_singleton.mp hl] at htoken
          exact absurd (htoken'.trans htoken.symm) (hfresh l' hl')
    · intro p hp i x hx
      obtain rfl := Option.some.inj hp
      apply WorkerRegistry.Apart.symm
      by_contra hshare
      obtain ⟨l, hl, htoken⟩ := hinv.exists_lease hx
      obtain ⟨hfalse, hocc, hstored⟩ := hlive i x hx (Or.inl hshare) l hl htoken
      have hfree := hapart _ l hstored hfalse
      rw [hocc] at hfree
      exact absurd hfree (by simp)

/-! ### Whole runs -/

/-- **Step lemma.** -/
theorem inv_step {e : TimedEvent F} (hinv : c.Inv) (hguard : c.Guarded e) (h : c.step e = some c') :
    c'.Inv := by
  cases e with
  | elapse nanos => exact inv_elapse hinv h
  | op e =>
    obtain ⟨ctl, hallowed, hs, rfl⟩ := step_op_cases h
    by_cases hbegin : ∃ agent sid cmd, e = .begin agent sid cmd
    · obtain ⟨agent, sid, cmd, rfl⟩ := hbegin
      cases Controller.moves_of_step hs with
      | begin hdisp => exact inv_begin hinv hallowed hdisp (leaseInv_step hinv.lease hs)
    by_cases hacquire : ∃ agent link token now, e = .acquire agent link token now
    · obtain ⟨agent, link, token, now, rfl⟩ := hacquire
      obtain ⟨-, rfl⟩ := hallowed
      cases Controller.moves_of_step hs with
      | acquire hfresh => exact inv_acquire hinv hfresh hguard (leaseInv_step hinv.lease hs)
    · apply inv_op hinv hallowed hguard hs
      · intro agent sid cmd heq
        exact hbegin ⟨agent, sid, cmd, heq⟩
      · intro agent link token now heq
        exact hacquire ⟨agent, link, token, now, heq⟩

end TimedController

/-! ### Two tests of one node -/

/-- A session that registers an agent with its links. -/
private def registering (h : ℕ) (agent : String) (links : List LinkKey) : List (TimedEvent ℕ) :=
  [.op .open, .op (.register h ⟨agent, none, links, [], none⟩), .op (.sync h fun _ => none),
    .op (.attach h)]

/-- A lease, and the test that is dispatched under it. -/
private def testUnder (h i : ℕ) (x : Test) (now : ℕ) : List (TimedEvent ℕ) :=
  [.op (.acquire x.agent x.link x.token now), .op (.fetch x.agent),
    .op (.begin x.agent h (.probe x.token .throughput (some x.token) x.link none)), .op (.send i)]

private def toHub : Test := ⟨"spoke-1", "t1", ⟨"spoke-1", "node.0", "awg0"⟩⟩
private def toPeer : Test := ⟨"spoke-1", "t2", ⟨"spoke-1", "spoke-2", "awg1"⟩⟩
private def aside : Test := ⟨"spoke-3", "t2", ⟨"spoke-3", "spoke-2", "awg0"⟩⟩
private def fromHub : Test := ⟨"node-0", "t2", ⟨"node-0", "spoke-2", "awg0"⟩⟩

/-- A controller that starts 900 ms into a second. -/
private def started : TimedController ℕ :=
  .init (Tsdb.new ⟨"", 7200, 86400⟩) 60900000000

/-- Two tests under way that share a node. -/
private theorem not_oneTestPerNode {c : TimedController ℕ} {x y : Test}
    (h : c.running = [x, y] ∧ x ≠ y ∧ ¬ c.ctl.app.workers.Apart x y) : ¬ c.OneTestPerNode := by
  obtain ⟨hrunning, hne, hshare⟩ := h
  intro hapart
  obtain ⟨i, hx⟩ := TimedController.mem_running.mp (hrunning ▸ List.mem_cons_self : x ∈ c.running)
  obtain ⟨j, hy⟩ := TimedController.mem_running.mp
    (hrunning ▸ List.mem_cons_of_mem _ (List.mem_singleton_self y) : y ∈ c.running)
  apply hshare
  apply hapart i j x y hx hy
  rintro rfl
  obtain ⟨r, start, hr, -, -, htest⟩ := hx
  obtain ⟨r', start', hr', -, -, htest'⟩ := hy
  obtain rfl := Option.some.inj (hr.symm.trans hr')
  exact hne (Option.some.inj (htest.symm.trans htest'))

/-- **A lease of another name.** The far end registers as `node-0` while the link to `node.0`
    is tested, and is granted a lease for a link of its own. -/
theorem renamed_node_in_two_tests : ∃ c : TimedController ℕ,
    Runs TimedController.step Always started c ∧ ¬ c.OneTestPerNode := by
  have hrun : (exec TimedController.step Always started
      (registering 0 "spoke-1" [toHub.link] ++ testUnder 0 0 toHub 60 ++
        registering 1 "node-0" [fromHub.link] ++ testUnder 1 1 fromHub 60)).any
      (fun c => c.running = [toHub, fromHub] ∧ toHub ≠ fromHub ∧
        ¬ c.ctl.app.workers.Apart toHub fromHub) = true := by decide +kernel
  obtain ⟨c, hc, hshare⟩ := (Option.any_eq_true _ _).mp hrun
  exact ⟨c, Runs.of_exec _ hc, not_oneTestPerNode (of_decide_eq_true hshare)⟩

end Mielofon
