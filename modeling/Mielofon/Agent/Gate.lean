import Mathlib.Data.List.DropRight
import Mielofon.Lib.Runs

namespace Mielofon

open Lib

/-!
# The gate around throughput tests

Pings pause while a throughput test runs and for a grace after it (`icmp.rs`).  The gate keeps
the pauses twice: a running flag with one deadline, which pings ask, and a bounded history of
intervals, which the marking task asks about a block it reads later.  Instants are numbers of
nanoseconds on the monotonic clock.

* `Gate` — `begin`, `end`, `paused` and `overlapped` as the agent has them;
* `GateRun` — a gate and the tests that were run through it, whole;
* `GateRun.Agrees` — what the two records keep of these tests;
* `gate_exact` — both answer as the tests do.
-/

/-- The pauses around throughput tests. -/
structure Gate where
  running : Bool
  «until» : Option ℕ
  /-- Recent pauses as begin and end, the end unset while running; the end includes the grace. -/
  pauses : List (ℕ × Option ℕ)
deriving DecidableEq, Repr

def pauseHistory : ℕ := 16

namespace Gate

def new : Gate := ⟨false, none, []⟩

def paused (g : Gate) (now : ℕ) : Bool := g.running || g.until.any (fun t => now < t)

/-- Drop from the front what the history has no room for. -/
def trim : List (ℕ × Option ℕ) → List (ℕ × Option ℕ)
  | [] => []
  | p :: pauses => if pauseHistory < pauses.length + 1 then trim pauses else p :: pauses

def begin (g : Gate) (now : ℕ) : Gate :=
  { g with running := true, pauses := trim (g.pauses ++ [(now, none)]) }

/-- Set the end of the first pause that has none. -/
def closeFirst (t : ℕ) : List (ℕ × Option ℕ) → List (ℕ × Option ℕ)
  | [] => []
  | p :: pauses => if p.2.isNone then (p.1, some t) :: pauses else p :: closeFirst t pauses

/-- End a test; pings stay paused for `grace`. -/
def «end» (g : Gate) (now grace : ℕ) : Gate :=
  { running := false
    «until» := some (now + grace)
    pauses := (closeFirst (now + grace) g.pauses.reverse).reverse }

/-- Whether a pause overlapped the time from `«from»` to before `«to»`. -/
def overlapped (g : Gate) («from» «to» : ℕ) : Bool :=
  g.pauses.any (fun p => p.1 < «to» && p.2.all (fun e => «from» < e))

theorem trim_eq (pauses : List (ℕ × Option ℕ)) : trim pauses = pauses.rtake pauseHistory := by
  induction pauses with
  | nil => rfl
  | cons p pauses ih =>
    rw [trim, List.rtake, List.length_cons]
    split
    · have hlen : pauses.length + 1 - pauseHistory = pauses.length - pauseHistory + 1 := by omega
      rw [ih, List.rtake, hlen, List.drop_succ_cons]
    · rename_i hshort
      rw [Nat.sub_eq_zero_of_le (not_lt.mp hshort), List.drop_zero]

/-- The pause that was begun last is the one a test's end closes. -/
theorem closeFirst_reverse_concat (t b : ℕ) (pauses : List (ℕ × Option ℕ)) :
    (closeFirst t (pauses ++ [(b, none)]).reverse).reverse = pauses ++ [(b, some t)] := by
  rw [List.reverse_append, List.reverse_singleton, List.singleton_append, closeFirst,
    if_pos Option.isNone_none, List.reverse_cons, List.reverse_reverse]

/-- A history grows by an entry at its end, and loses one at its front when it is full. -/
theorem trim_concat (l : List (ℕ × Option ℕ)) (p : ℕ × Option ℕ) :
    trim (l.rtake pauseHistory ++ [p]) = (l ++ [p]).rtake pauseHistory := by
  have htwice : (l.rtake 16).rtake 15 = l.rtake 15 := by
    simp only [List.rtake_eq_reverse_take_reverse, List.reverse_reverse, List.take_take]
    rfl
  rw [trim_eq, pauseHistory, List.rtake_concat_succ, List.rtake_concat_succ, htwice]

end Gate

/-! ### The tests behind a gate -/

/-- A gate with the tests that ended, the begin of the one that runs, and the time of the last
    call. -/
structure GateRun where
  gate : Gate
  finished : List (ℕ × ℕ)
  current : Option ℕ
  clock : ℕ
deriving DecidableEq, Repr

/-- The two calls of a test. -/
inductive GateCall where
  | begin (now : ℕ)
  | «end» (now : ℕ)

namespace GateRun

def init : GateRun := ⟨Gate.new, [], none, 0⟩

/-- A call, no earlier than the one before.  A test begins when none runs, and ends when one
    does. -/
def step (grace : ℕ) (s : GateRun) : GateCall → Option GateRun
  | .begin now =>
    match s.current with
    | none => if s.clock ≤ now then some ⟨s.gate.begin now, s.finished, some now, now⟩ else none
    | some _ => none
  | .end now =>
    match s.current with
    | none => none
    | some b =>
      if s.clock ≤ now then some ⟨s.gate.end now grace, s.finished ++ [(b, now)], none, now⟩
      else none

/-- The interval of each test in order of begin: to its end and the grace after it, or open
    while it runs. -/
def intervals (grace : ℕ) (s : GateRun) : List (ℕ × Option ℕ) :=
  s.finished.map (fun t => (t.1, some (t.2 + grace))) ++ s.current.toList.map (fun b => (b, none))

end GateRun

/-- The instant `x` lies in an interval. -/
def Spans (iv : ℕ × Option ℕ) (x : ℕ) : Prop := iv.1 ≤ x ∧ ∀ e ∈ iv.2, x < e

/-- An interval and the time from `«from»` to before `«to»` have an instant in common. -/
def Meets (iv : ℕ × Option ℕ) («from» «to» : ℕ) : Prop := ∃ x, «from» ≤ x ∧ x < «to» ∧ Spans iv x

/-- An interval with an instant in it meets another one when each begins before the other ends. -/
theorem meets_iff {iv : ℕ × Option ℕ} {«from» «to» : ℕ} (hiv : Spans iv iv.1)
    (h : «from» < «to») : Meets iv «from» «to» ↔ iv.1 < «to» ∧ ∀ e ∈ iv.2, «from» < e := by
  constructor
  · rintro ⟨x, hfrom, hto, hbegin, hend⟩
    exact ⟨lt_of_le_of_lt hbegin hto, fun e he => lt_of_le_of_lt hfrom (hend e he)⟩
  · rintro ⟨hbegin, hend⟩
    -- the later of the two begins lies in both
    exact ⟨max «from» iv.1, le_max_left _ _, max_lt h hbegin, le_max_right _ _,
      fun e he => max_lt (hend e he) (hiv.2 e he)⟩

namespace GateRun

variable {grace : ℕ} {s s' : GateRun}

/-- What the two records keep of the tests: all that ended did so in order and before now, the
    deadline is that of the last one, and the history is the end of the list of intervals. -/
structure Agrees (grace : ℕ) (s : GateRun) : Prop where
  running : s.gate.running = s.current.isSome
  «until» : s.gate.until = s.finished.getLast?.map (fun t => t.2 + grace)
  pauses : s.gate.pauses = (s.intervals grace).rtake pauseHistory
  begun : ∀ t ∈ s.finished, t.1 ≤ t.2
  ended : ∀ t ∈ s.finished, t.2 ≤ s.clock
  current : ∀ b ∈ s.current, b ≤ s.clock
  latest : ∀ l ∈ s.finished.getLast?, ∀ t ∈ s.finished, t.2 ≤ l.2

theorem agrees_init : Agrees grace init where
  running := rfl
  «until» := rfl
  pauses := rfl
  begun := fun _ ht => absurd ht List.not_mem_nil
  ended := fun _ ht => absurd ht List.not_mem_nil
  current := fun b hb => absurd hb (Option.not_mem_none b)
  latest := fun l hl => absurd hl (Option.not_mem_none l)

/-- A test begins. -/
theorem Agrees.begin (h : s.Agrees grace) (hnone : s.current = none) {now : ℕ}
    (hnow : s.clock ≤ now) :
    Agrees grace ⟨s.gate.begin now, s.finished, some now, now⟩ where
  running := rfl
  «until» := h.until
  pauses := by
    have hbefore : s.intervals grace = s.finished.map (fun t => (t.1, some (t.2 + grace))) := by
      simp [intervals, hnone]
    show Gate.trim (s.gate.pauses ++ [(now, none)]) = _
    rw [h.pauses, hbefore, Gate.trim_concat]
    rfl
  begun := h.begun
  ended := fun t ht => (h.ended t ht).trans hnow
  current := fun b hb => (Option.some.inj hb).ge
  latest := h.latest

/-- The test that runs ends. -/
theorem Agrees.end (h : s.Agrees grace) {b : ℕ} (hsome : s.current = some b) {now : ℕ}
    (hnow : s.clock ≤ now) :
    Agrees grace ⟨s.gate.end now grace, s.finished ++ [(b, now)], none, now⟩ where
  running := rfl
  «until» := by
    show some (now + grace) = _
    rw [List.getLast?_concat, Option.map_some]
  pauses := by
    have hbefore : s.intervals grace =
        s.finished.map (fun t => (t.1, some (t.2 + grace))) ++ [(b, none)] := by
      simp [intervals, hsome]
    show (Gate.closeFirst (now + grace) s.gate.pauses.reverse).reverse = _
    rw [h.pauses, hbefore, pauseHistory, List.rtake_concat_succ, Gate.closeFirst_reverse_concat,
      ← List.rtake_concat_succ]
    simp [intervals]
  begun := fun t ht => by
    rcases List.mem_append.mp ht with ht | ht
    · exact h.begun t ht
    · obtain rfl := List.mem_singleton.mp ht
      exact (h.current b hsome).trans hnow
  ended := fun t ht => by
    rcases List.mem_append.mp ht with ht | ht
    · exact (h.ended t ht).trans hnow
    · obtain rfl := List.mem_singleton.mp ht
      exact le_refl _
  current := fun b hb => absurd hb (Option.not_mem_none b)
  latest := fun l hl t ht => by
    -- the last test ended now, and every other one no later than the clock
    rw [List.getLast?_concat] at hl
    obtain rfl := Option.some.inj hl
    rcases List.mem_append.mp ht with ht | ht
    · exact (h.ended t ht).trans hnow
    · exact (List.mem_singleton.mp ht ▸ le_refl _)

theorem Agrees.step (h : s.Agrees grace) {call : GateCall} (hs : step grace s call = some s') :
    s'.Agrees grace := by
  cases call with
  | begin now =>
    simp only [GateRun.step] at hs
    split at hs
    · rename_i hnone
      split at hs
      · rename_i hnow
        exact Option.some.inj hs ▸ h.begin hnone hnow
      · exact absurd hs (by simp)
    · exact absurd hs (by simp)
  | «end» now =>
    simp only [GateRun.step] at hs
    split at hs
    · exact absurd hs (by simp)
    · rename_i b hsome
      split at hs
      · rename_i hnow
        exact Option.some.inj hs ▸ h.end hsome hnow
      · exact absurd hs (by simp)

/-- After every sequence of calls that alternate the two records agree with the tests. -/
theorem agrees_of_run (h : Runs (GateRun.step grace) Always init s) : s.Agrees grace :=
  h.invariant agrees_init (fun _ _ _ hi _ hs => hi.step hs)

/-- With a grace every interval of a test has an instant in it. -/
theorem Agrees.within_begin (h : s.Agrees grace) (hgrace : 0 < grace) {iv : ℕ × Option ℕ}
    (hiv : iv ∈ s.intervals grace) : Spans iv iv.1 := by
  refine ⟨le_refl _, fun e he => ?_⟩
  rcases List.mem_append.mp hiv with hiv | hiv
  · obtain ⟨t, ht, rfl⟩ := List.mem_map.mp hiv
    obtain rfl := Option.some.inj he
    have hbegun := h.begun t ht
    show t.1 < t.2 + grace
    omega
  · obtain ⟨b, -, rfl⟩ := List.mem_map.mp hiv
    exact absurd he (Option.not_mem_none e)

/-- Fewer tests than the history has room for began after the first one that meets the time from
    `«from»` to before `«to»`. -/
def Remembered (grace : ℕ) (s : GateRun) («from» «to» : ℕ) : Prop :=
  ∀ before iv after, s.intervals grace = before ++ iv :: after → Meets iv «from» «to» →
    (∀ p ∈ before, ¬ Meets p «from» «to») → after.length < pauseHistory

/-- The history answers as the tests do about a time it still remembers. -/
theorem Agrees.overlapped_iff (h : s.Agrees grace) (hgrace : 0 < grace) {«from» «to» : ℕ}
    (hne : «from» < «to») (hrem : s.Remembered grace «from» «to») :
    s.gate.overlapped «from» «to» = true ↔ ∃ iv ∈ s.intervals grace, Meets iv «from» «to» := by
  have hmeets : ∀ iv ∈ s.intervals grace,
      (iv.1 < «to» && iv.2.all (fun e => «from» < e)) = true ↔ Meets iv «from» «to» :=
    fun iv hiv => by
      rw [meets_iff (h.within_begin hgrace hiv) hne]
      simp [Option.all_eq_true]
  rw [Gate.overlapped, h.pauses, List.any_eq_true]
  constructor
  · rintro ⟨iv, hiv, hover⟩
    have hmem := List.mem_of_mem_drop hiv
    exact ⟨iv, hmem, (hmeets iv hmem).mp hover⟩
  · rintro ⟨iv, hiv, hmeet⟩
    -- the first test that meets the time is among those the history kept
    classical
    have hfound : ((s.intervals grace).find? (fun p => decide (Meets p «from» «to»))).isSome :=
      List.find?_isSome.mpr ⟨iv, hiv, decide_eq_true hmeet⟩
    obtain ⟨first, hfirst⟩ := Option.isSome_iff_exists.mp hfound
    obtain ⟨hp, before, after, hsplit, hbefore⟩ := List.find?_eq_some_iff_append.mp hfirst
    have hfirstMeets : Meets first «from» «to» := of_decide_eq_true hp
    have hshort := hrem before first after hsplit hfirstMeets (fun p hp => by
      simpa using hbefore p hp)
    have hfits : (before ++ first :: after).length - pauseHistory ≤ before.length := by
      rw [List.length_append, List.length_cons]
      omega
    have hmem : first ∈ s.intervals grace :=
      hsplit ▸ List.mem_append_right _ List.mem_cons_self
    refine ⟨first, ?_, (hmeets first hmem).mpr hfirstMeets⟩
    rw [hsplit, List.rtake, List.drop_append_of_le_length hfits]
    exact List.mem_append_right _ List.mem_cons_self

/-- The flag and the deadline answer as the tests do about the present. -/
theorem Agrees.paused_iff (h : s.Agrees grace) {now : ℕ} (hnow : s.clock ≤ now) :
    s.gate.paused now = true ↔ ∃ iv ∈ s.intervals grace, Spans iv now := by
  rw [Gate.paused, h.running, h.until, Bool.or_eq_true]
  constructor
  · rintro (hrun | huntil)
    · obtain ⟨b, hb⟩ := Option.isSome_iff_exists.mp hrun
      refine ⟨(b, none), ?_, (h.current b hb).trans hnow, fun e he => absurd he (Option.not_mem_none e)⟩
      simp [intervals, hb]
    · -- the deadline that has not passed is that of the last test
      rw [Option.any_eq_true] at huntil
      obtain ⟨e, he, hlt⟩ := huntil
      obtain ⟨l, hl, rfl⟩ := Option.map_eq_some_iff.mp he
      have hmem := List.mem_of_getLast? hl
      refine ⟨(l.1, some (l.2 + grace)), ?_, ?_, ?_⟩
      · exact List.mem_append_left _ (List.mem_map.mpr ⟨l, hmem, rfl⟩)
      · exact ((h.begun l hmem).trans (h.ended l hmem)).trans hnow
      · intro e he
        obtain rfl := Option.some.inj he
        exact of_decide_eq_true hlt
  · rintro ⟨iv, hiv, -, hend⟩
    rcases List.mem_append.mp hiv with hiv | hiv
    · obtain ⟨t, ht, rfl⟩ := List.mem_map.mp hiv
      -- the last test ended no earlier than this one
      obtain ⟨l, hl⟩ := Option.isSome_iff_exists.mp
        (List.getLast?_isSome.mpr (List.ne_nil_of_mem ht))
      have hlater := h.latest l hl t ht
      have hlt : now < t.2 + grace := hend _ rfl
      right
      rw [hl, Option.map_some, Option.any_some, decide_eq_true_eq]
      omega
    · obtain ⟨b, hb, -⟩ := List.mem_map.mp hiv
      left
      rw [Option.isSome_iff_exists]
      exact ⟨b, by simpa using hb⟩

end GateRun

/-- **The gate is exact.** After every sequence of calls that alternate, `overlapped` answers
    about every time that has passed and is still remembered, and `paused` about the present,
    whether it meets a test, with the grace after it. -/
theorem gate_exact {grace : ℕ} {s : GateRun} (hgrace : 0 < grace)
    (h : Runs (GateRun.step grace) Always GateRun.init s) :
    (∀ «from» «to» now, s.clock ≤ now → «from» < «to» → «to» ≤ now →
      s.Remembered grace «from» «to» →
      (s.gate.overlapped «from» «to» = true ↔ ∃ iv ∈ s.intervals grace, Meets iv «from» «to»)) ∧
    ∀ now, s.clock ≤ now →
      (s.gate.paused now = true ↔ ∃ iv ∈ s.intervals grace, Spans iv now) := by
  have hagrees := GateRun.agrees_of_run h
  exact ⟨fun _ _ _ _ hne _ hrem => hagrees.overlapped_iff hgrace hne hrem,
    fun _ hnow => hagrees.paused_iff hnow⟩

/-- A test from 10 to 20, and one from 22 that still runs, with a grace of 5. -/
private def twoTests : GateRun :=
  ⟨⟨true, some 25, [(10, some 25), (22, none)]⟩, [(10, 20)], some 22, 22⟩

private theorem twoTests_run : Runs (GateRun.step 5) Always GateRun.init twoTests :=
  Runs.of_exec [.begin 10, .end 20, .begin 22] (by decide)

theorem gate_exact_twoTests :
    (∀ «from» «to» now, 22 ≤ now → «from» < «to» → «to» ≤ now →
      twoTests.Remembered 5 «from» «to» →
      (twoTests.gate.overlapped «from» «to» = true ↔
        ∃ iv ∈ twoTests.intervals 5, Meets iv «from» «to»)) ∧
    ∀ now, 22 ≤ now →
      (twoTests.gate.paused now = true ↔ ∃ iv ∈ twoTests.intervals 5, Spans iv now) :=
  gate_exact (by decide) twoTests_run

end Mielofon
