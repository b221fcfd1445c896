import Mielofon.Agent.Probing

namespace Mielofon

open Lib

/-!
# Throughput tests on one node exclude each other

Whatever requests, pings and refreshes interleave, at most one test holds the lock, and so the gate
is told of a begin and an end in turn.

* `Probing.SameTests` — a section that has nothing to do with the tests;
* `Probing.Tested` — one test holds the lock, and the gate has seen tests that alternate;
* `Probing.Tested.step` — every section keeps this;
* `tests_exclusive` — no two tests run at a time, and the gate answers as the tests do.
-/

/-- What a function finds at the only index where it finds anything. -/
theorem findSome?_of_only {α β : Type*} {f : α → Option β} {l : List α} {j : ℕ} {a : α}
    (h : l[j]? = some a) (honly : ∀ i b, l[i]? = some b → (f b).isSome → i = j) :
    l.findSome? f = f a := by
  cases hfound : l.findSome? f with
  | none => exact (List.findSome?_eq_none_iff.mp hfound a (List.mem_of_getElem? h)).symm
  | some v =>
    obtain ⟨b, hb, hv⟩ := List.exists_of_findSome?_eq_some hfound
    obtain ⟨i, hi⟩ := List.mem_iff_getElem?.mp hb
    obtain rfl := honly i b hi (by rw [hv]; rfl)
    rw [← hv, Option.some.inj (hi.symm.trans h)]

theorem TestPhase.holds_of_begun {F : Type*} {t : TestPhase F} (h : t.begun.isSome) :
    t.holds = true := by
  cases t <;> first | rfl | exact absurd h (by simp [TestPhase.begun])

namespace Probing

variable {F : Type*} {s s' : Probing F} {cfg : ProbeCfg F}

/-- When the test that runs began. -/
def current (s : Probing F) : Option ℕ := s.tests.findSome? TestPhase.begun

/-- The tests as the gate has seen them. -/
def gateRun (s : Probing F) (clock : ℕ) : GateRun := ⟨s.gate, s.finished, s.current, clock⟩

/-- The intervals of the tests, with the grace after each. -/
def intervals (cfg : ProbeCfg F) (s : Probing F) : List (ℕ × Option ℕ) :=
  (s.gateRun s.now).intervals cfg.grace

/-- A section that has nothing to do with the tests. -/
structure SameTests (s s' : Probing F) : Prop where
  gate : s'.gate = s.gate
  locked : s'.locked = s.locked
  tests : s'.tests = s.tests
  finished : s'.finished = s.finished
  now : s.now ≤ s'.now

theorem SameTests.refl (s : Probing F) : SameTests s s := ⟨rfl, rfl, rfl, rfl, le_refl _⟩

theorem SameTests.trans {s'' : Probing F} (h : SameTests s s') (h' : SameTests s' s'') :
    SameTests s s'' :=
  ⟨h'.gate.trans h.gate, h'.locked.trans h.locked, h'.tests.trans h.tests,
    h'.finished.trans h.finished, h.now.trans h'.now⟩

theorem sameTests_reconcile (s : Probing F) (size : ℕ) (links : List DiscoveredLink) :
    SameTests s (s.reconcile size links) := by
  refine reconcile_invariant (P := SameTests s) ⟨rfl, rfl, rfl, rfl, le_refl _⟩ fun u l hu => ?_
  have hstart : SameTests u (start size (s.changed links) u l) := by
    unfold start
    split <;> exact ⟨rfl, rfl, rfl, rfl, le_refl _⟩
  exact hu.trans hstart

/-- Exactly the test that holds the lock is at work, and what the gate has seen so far is a run of
    tests that alternate. -/
structure Tested (cfg : ProbeCfg F) (s : Probing F) : Prop where
  lock : s.locked = s.tests.any TestPhase.holds
  one : ∀ (i j : ℕ) (t u : TestPhase F), s.tests[i]? = some t → s.tests[j]? = some u →
    t.holds = true → u.holds = true → i = j
  run : ∃ clock ≤ s.now, Runs (GateRun.step cfg.grace) Always GateRun.init (s.gateRun clock)

theorem tested_init (n : ℕ) : Tested cfg (init n : Probing F) where
  lock := rfl
  one := fun i _ _ _ h => absurd h (by simp [init])
  run := ⟨0, le_refl _, Runs.refl _⟩

theorem Tested.congr (h : s.Tested cfg) (hsame : SameTests s s') : s'.Tested cfg where
  lock := by rw [hsame.locked, hsame.tests, h.lock]
  one := by rw [hsame.tests]; exact h.one
  run := by
    obtain ⟨clock, hclock, hrun⟩ := h.run
    refine ⟨clock, hclock.trans hsame.now, ?_⟩
    have heq : s'.gateRun clock = s.gateRun clock := by
      rw [gateRun, gateRun, current, current, hsame.gate, hsame.finished, hsame.tests]
    exact heq ▸ hrun

/-! ### A section of the test that holds the lock -/

section Holder

variable {j : ℕ} {t t' : TestPhase F}

/-- The tests before a section of the one that holds the lock. -/
theorem Tested.current_eq (h : s.Tested cfg) (ht : s.tests[j]? = some t) (hold : t.holds = true) :
    s.current = t.begun :=
  findSome?_of_only ht fun i u hu hbegun =>
    h.one i j u t hu ht (TestPhase.holds_of_begun hbegun) hold

/-- After it only that test may hold the lock. -/
theorem Tested.one_set (h : s.Tested cfg) (ht : s.tests[j]? = some t) (hold : t.holds = true)
    {i : ℕ} {u : TestPhase F} (hu : (s.tests.set j t')[i]? = some u) (hholds : u.holds = true) :
    i = j := by
  by_contra hne
  rw [List.getElem?_set_ne (Ne.symm hne)] at hu
  exact hne (h.one i j u t hu ht hholds hold)

theorem getElem?_set_self_of_some (ht : s.tests[j]? = some t) :
    (s.tests.set j t')[j]? = some t' := by
  obtain ⟨hlt, -⟩ := List.getElem?_eq_some_iff.mp ht
  exact List.getElem?_set_self hlt

theorem Tested.current_set (h : s.Tested cfg) (ht : s.tests[j]? = some t) (hold : t.holds = true) :
    (s.tests.set j t').findSome? TestPhase.begun = t'.begun :=
  findSome?_of_only (getElem?_set_self_of_some ht) fun _ _ hu hbegun =>
    h.one_set ht hold hu (TestPhase.holds_of_begun hbegun)

theorem Tested.any_set (h : s.Tested cfg) (ht : s.tests[j]? = some t) (hold : t.holds = true) :
    (s.tests.set j t').any TestPhase.holds = t'.holds := by
  cases hholds : t'.holds with
  | true =>
    rw [List.any_eq_true]
    exact ⟨t', List.mem_of_getElem? (getElem?_set_self_of_some ht), hholds⟩
  | false =>
    rw [List.any_eq_false]
    intro u hu huholds
    obtain ⟨i, hi⟩ := List.mem_iff_getElem?.mp hu
    obtain rfl := h.one_set ht hold hi huholds
    rw [getElem?_set_self_of_some ht] at hi
    rw [← Option.some.inj hi, hholds] at huholds
    exact absurd huholds (by simp)

/-- **Step lemma.** The test that holds the lock goes on, and the gate sees a call of it or none. -/
theorem Tested.set (h : s.Tested cfg) (ht : s.tests[j]? = some t) (hold : t.holds = true)
    {gate : Gate} {finished : List (ℕ × ℕ)} {locked : Bool} (hlocked : locked = t'.holds)
    (hcall : ∀ clock ≤ s.now, Runs (GateRun.step cfg.grace) Always
      ⟨s.gate, s.finished, t.begun, clock⟩ ⟨gate, finished, t'.begun, s.now⟩ ∨
      (gate = s.gate ∧ finished = s.finished ∧ t'.begun = t.begun)) :
    Tested cfg { s with tests := s.tests.set j t', gate, finished, locked } where
  lock := by
    show locked = (s.tests.set j t').any TestPhase.holds
    rw [h.any_set ht hold, hlocked]
  one := fun i k u v hu hv hholds hholds' =>
    (h.one_set ht hold hu hholds).trans (h.one_set ht hold hv hholds').symm
  run := by
    obtain ⟨clock, hclock, hrun⟩ := h.run
    rw [gateRun, h.current_eq ht hold] at hrun
    have hnow : ∀ clock, Probing.gateRun { s with tests := s.tests.set j t', gate, finished, locked }
        clock = ⟨gate, finished, t'.begun, clock⟩ := fun clock => by
      rw [gateRun, current, h.current_set ht hold]
    rcases hcall clock hclock with hmore | ⟨rfl, rfl, hbegun⟩
    · exact ⟨s.now, le_refl _, by rw [hnow]; exact hrun.trans hmore⟩
    · exact ⟨clock, hclock, by rw [hnow, hbegun]; exact hrun⟩

end Holder

variable [Field F] [LinearOrder F]

/-! ### Every section -/

omit [LinearOrder F] in
theorem sameTests_pingStep {i : ℕ} {t : PingTask} {phase : PingPhase} {e : ProbeEvent F}
    (h : s.pingStep cfg i t phase e = some s') : SameTests s s' := by
  unfold pingStep at h
  split at h
  · split at h
    · split at h <;> obtain rfl := Option.some.inj h <;> exact ⟨rfl, rfl, rfl, rfl, le_refl _⟩
    · cases h
  · obtain rfl := Option.some.inj h
    exact ⟨rfl, rfl, rfl, rfl, le_refl _⟩
  · obtain rfl := Option.some.inj h
    exact ⟨rfl, rfl, rfl, rfl, le_refl _⟩
  · split at h
    · cases h
    · split at h
      · obtain rfl := Option.some.inj h
        split <;> exact ⟨rfl, rfl, rfl, rfl, le_refl _⟩
      · obtain rfl := Option.some.inj h
        exact ⟨rfl, rfl, rfl, rfl, le_refl _⟩
      · split at h
        · obtain rfl := Option.some.inj h
          exact ⟨rfl, rfl, rfl, rfl, le_refl _⟩
        · cases h
  · obtain rfl := Option.some.inj h
    split <;> exact ⟨rfl, rfl, rfl, rfl, le_refl _⟩
  · split at h <;> obtain rfl := Option.some.inj h <;> exact ⟨rfl, rfl, rfl, rfl, le_refl _⟩
  · cases h

omit [LinearOrder F] in
/-- A request takes the lock, or is busy. -/
theorem Tested.run_step (h : s.Tested cfg) : s.run.Tested cfg := by
  have hcurrent : ∀ t : TestPhase F, t.begun = none →
      (s.tests ++ [t]).findSome? TestPhase.begun = s.tests.findSome? TestPhase.begun := by
    intro t ht
    rw [List.findSome?_append, List.findSome?_singleton, ht, Option.or_none]
  unfold Probing.run
  split
  · -- the test that holds the lock is still the only one
    rename_i hlocked
    refine ⟨?_, ?_, ?_⟩
    · rw [List.any_append, ← h.lock, hlocked]
      rfl
    · intro i j t u hi hj ht hu
      have hold : ∀ (k : ℕ) (v : TestPhase F), (s.tests ++ [.done (.skipped 0)])[k]? = some v →
          v.holds = true → s.tests[k]? = some v := by
        intro k v hk hv
        rw [List.getElem?_append] at hk
        split at hk
        · exact hk
        · obtain rfl := List.mem_singleton.mp (List.mem_of_getElem? hk)
          exact absurd hv (by simp [TestPhase.holds])
      exact h.one i j t u (hold i t hi ht) (hold j u hj hu) ht hu
    · obtain ⟨clock, hclock, hrun⟩ := h.run
      exact ⟨clock, hclock, by rw [gateRun, current, hcurrent _ rfl]; exact hrun⟩
  · rename_i hfree
    have hnone : ∀ (i : ℕ) (t : TestPhase F), s.tests[i]? = some t → t.holds = false := by
      intro i t ht
      have hany : s.tests.any TestPhase.holds = false := by
        rw [← h.lock]
        simpa using hfree
      simpa using List.any_eq_false.mp hany t (List.mem_of_getElem? ht)
    have hlast : ∀ (k : ℕ) (v : TestPhase F), (s.tests ++ [.sampling])[k]? = some v →
        v.holds = true → k = s.tests.length := by
      intro k v hk hv
      rw [List.getElem?_append] at hk
      split at hk
      · rw [hnone k v hk] at hv
        exact absurd hv (by simp)
      · obtain ⟨hlt, -⟩ := List.getElem?_eq_some_iff.mp hk
        rw [List.length_singleton] at hlt
        omega
    refine ⟨?_, ?_, ?_⟩
    · rw [List.any_append]
      exact (Bool.or_true _).symm
    · intro i j t u hi hj ht hu
      exact (hlast i t hi ht).trans (hlast j u hj hu).symm
    · obtain ⟨clock, hclock, hrun⟩ := h.run
      exact ⟨clock, hclock, by rw [gateRun, current, hcurrent _ rfl]; exact hrun⟩

theorem Tested.testStep {j : ℕ} {t : TestPhase F} {e : ProbeEvent F} (h : s.Tested cfg)
    (ht : s.tests[j]? = some t) (hs : s.testStep cfg j t e = some s') : s'.Tested cfg := by
  have hlocked : t.holds = true → s.locked = true := fun hold => by
    rw [h.lock, List.any_eq_true]
    exact ⟨t, List.mem_of_getElem? ht, hold⟩
  unfold Probing.testStep at hs
  split at hs
  · -- the utilisation is sampled: a link in use ends the test here
    split at hs <;> obtain rfl := Option.some.inj hs
    · exact h.set ht rfl rfl (fun _ _ => Or.inr ⟨rfl, rfl, rfl⟩)
    · exact h.set ht rfl (hlocked rfl) (fun _ _ => Or.inr ⟨rfl, rfl, rfl⟩)
  · obtain rfl := Option.some.inj hs
    refine h.set ht rfl (hlocked rfl) (fun clock hclock => Or.inl ?_)
    exact Runs.cons (.begin s.now) trivial (by simp [GateRun.step, TestPhase.begun, setTest, hclock])
      (Runs.refl _)
  · obtain rfl := Option.some.inj hs
    split
    · exact h.set ht rfl (hlocked rfl) (fun _ _ => Or.inr ⟨rfl, rfl, rfl⟩)
    · exact h.set ht rfl (hlocked rfl) (fun _ _ => Or.inr ⟨rfl, rfl, rfl⟩)
  · obtain rfl := Option.some.inj hs
    exact h.set ht rfl (hlocked rfl) (fun _ _ => Or.inr ⟨rfl, rfl, rfl⟩)
  · obtain rfl := Option.some.inj hs
    refine h.set ht rfl (hlocked rfl) (fun clock hclock => Or.inl ?_)
    exact Runs.cons (.end s.now) trivial (by simp [GateRun.step, TestPhase.begun, hclock])
      (Runs.refl _)
  · obtain rfl := Option.some.inj hs
    exact h.set ht rfl rfl (fun _ _ => Or.inr ⟨rfl, rfl, rfl⟩)
  · cases hs

theorem Tested.step {e : ProbeEvent F} (h : s.Tested cfg) (hs : s.step cfg e = some s') :
    s'.Tested cfg := by
  rcases step_cases hs with ⟨d, rfl⟩ | rfl | ⟨j, t, ht, htest⟩ | ⟨links, rfl⟩ | ⟨i, t, -, hping⟩
  · exact h.congr ⟨rfl, rfl, rfl, rfl, Nat.le_add_right _ _⟩
  · exact h.run_step
  · exact h.testStep ht htest
  · exact h.congr (sameTests_reconcile s _ links)
  · exact h.congr (sameTests_pingStep hping)

theorem tested_of_run {n : ℕ} (h : Runs (Probing.step cfg) Always (init n) s) : s.Tested cfg :=
  h.invariant (tested_init n) (fun _ _ _ hi _ hs => hi.step hs)

end Probing

/-- **Throughput tests exclude each other.** Whatever requests, pings and refreshes interleave, no two
    tests run at a time, and the gate answers as the tests do: about the present, and about every
    time that has passed and is still remembered. -/
theorem tests_exclusive {F : Type*} [Field F] [LinearOrder F] {cfg : ProbeCfg F} {n : ℕ}
    {s : Probing F} (h : Runs (Probing.step cfg) Always (Probing.init n) s) :
    (∀ (i j : ℕ) (t u : TestPhase F), s.tests[i]? = some t → s.tests[j]? = some u →
      t.holds = true → u.holds = true → i = j) ∧
    (s.gate.paused s.now = true ↔ ∃ iv ∈ s.intervals cfg, Spans iv s.now) ∧
    ∀ «from» «to», «from» < «to» → «to» ≤ s.now →
      (s.gateRun s.now).Remembered cfg.grace «from» «to» →
      (s.gate.overlapped «from» «to» = true ↔ ∃ iv ∈ s.intervals cfg, Meets iv «from» «to») := by
  have htested := Probing.tested_of_run h
  obtain ⟨clock, hclock, hrun⟩ := htested.run
  have hagrees := GateRun.agrees_of_run hrun
  have hgrace : 0 < cfg.grace := lt_of_lt_of_le (by norm_num) (le_max_right _ _)
  exact ⟨htested.one, hagrees.paused_iff hclock,
    fun _ _ hne _ hrem => hagrees.overlapped_iff hgrace hne hrem⟩

/-- A test runs while another request was refused. -/
private def oneTest : Probing ℚ :=
  { Probing.init 7 with
    now := 3, locked := true, tests := [.tcp 3 1, .done (.skipped 0)]
    gate := ⟨true, none, [(3, none)]⟩ }

private theorem oneTest_run : Runs (Probing.step everySecond) Always (Probing.init 7) oneTest :=
  Runs.of_exec [.elapse 3, .run, .run, .sampled 0 (.ok 1), .begin 0] rfl

theorem tests_exclusive_oneTest :
    (∀ (i j : ℕ) (t u : TestPhase ℚ), oneTest.tests[i]? = some t → oneTest.tests[j]? = some u →
      t.holds = true → u.holds = true → i = j) ∧
    (oneTest.gate.paused 3 = true ↔ ∃ iv ∈ oneTest.intervals everySecond, Spans iv 3) ∧
    ∀ «from» «to», «from» < «to» → «to» ≤ 3 →
      (oneTest.gateRun 3).Remembered everySecond.grace «from» «to» →
      (oneTest.gate.overlapped «from» «to» = true ↔
        ∃ iv ∈ oneTest.intervals everySecond, Meets iv «from» «to») :=
  tests_exclusive oneTest_run

end Mielofon
