import Mielofon.Agent.Exclusive
import Mielofon.Agent.Pinging

namespace Mielofon

open Lib

/-!
# No outcome of a ping is a test's

A test loads the uplink of the node, and what it does to the pings must be recorded neither as an rtt
nor as a loss.  A ping finds the gate open before it is sent and again when its wait is over, and pings
stay paused for a grace after a test.

* `Probing.Drained` — an instant when no test ran, and none was within its grace;
* `Drained.step` — what comes later does not change that;
* `PingPhase.Fits`, `RecordedFits` — what is known of a ping on its way, and of a recorded one;
* `pings_undisturbed` — a test that touched the wait of a recorded ping lies within it, grace
  included; so none did when the wait was not overdue.
-/

namespace Probing

variable {F : Type*} {s s' : Probing F} {cfg : ProbeCfg F}

/-- An instant that has passed and was no test's: each test has ended before it, grace included, or
    began no earlier. -/
def Drained (cfg : ProbeCfg F) (s : Probing F) (c : ℕ) : Prop :=
  c ≤ s.now ∧ ∀ iv ∈ s.intervals cfg, (∃ e ∈ iv.2, e ≤ c) ∨ c ≤ iv.1

theorem mem_intervals {iv : ℕ × Option ℕ} :
    iv ∈ s.intervals cfg ↔ (∃ t ∈ s.finished, (t.1, some (t.2 + cfg.grace)) = iv) ∨
      ∃ b, s.current = some b ∧ (b, none) = iv := by
  simp [intervals, GateRun.intervals, gateRun]

theorem Drained.congr {c : ℕ} (h : s.Drained cfg c) (hsame : SameTests s s') :
    s'.Drained cfg c := by
  have heq : s'.intervals cfg = s.intervals cfg := by
    rw [intervals, intervals, GateRun.intervals, GateRun.intervals, gateRun, gateRun, current,
      current, hsame.finished, hsame.tests]
  exact ⟨h.1.trans hsame.now, heq ▸ h.2⟩

theorem Tested.agrees (h : s.Tested cfg) : ∃ clock ≤ s.now, (s.gateRun clock).Agrees cfg.grace := by
  obtain ⟨clock, hclock, hrun⟩ := h.run
  exact ⟨clock, hclock, GateRun.agrees_of_run hrun⟩

/-- What an open gate says of the present. -/
theorem Tested.drained_now (h : s.Tested cfg) (hopen : s.gate.paused s.now = false) :
    s.Drained cfg s.now := by
  obtain ⟨clock, hclock, hagrees⟩ := h.agrees
  refine ⟨le_refl _, fun iv hiv => Or.inl ?_⟩
  have hbegan : iv.1 ≤ s.now := by
    rcases mem_intervals.mp hiv with ⟨t, ht, rfl⟩ | ⟨b, hb, rfl⟩
    · exact ((hagrees.begun t ht).trans (hagrees.ended t ht)).trans hclock
    · exact (hagrees.current b hb).trans hclock
  have hnot : ¬ Spans iv s.now := fun hspans => by
    have hpaused : s.gate.paused s.now = true := (hagrees.paused_iff hclock).mpr ⟨iv, hiv, hspans⟩
    rw [hpaused] at hopen
    cases hopen
  by_contra hnone
  push Not at hnone
  exact hnot ⟨hbegan, hnone⟩

/-- A section of the test that holds the lock disturbs no instant that has passed. -/
theorem Drained.set {c j : ℕ} {t t' : TestPhase F} (h : s.Drained cfg c) (htested : s.Tested cfg)
    (ht : s.tests[j]? = some t) (hold : t.holds = true) {gate : Gate} {finished : List (ℕ × ℕ)}
    {locked : Bool} (hcall : finished = s.finished ∧
        (t'.begun = none ∧ t.begun = none ∨ t'.begun = t.begun ∨ t'.begun = some s.now) ∨
      ∃ b, t.begun = some b ∧ t'.begun = none ∧ finished = s.finished ++ [(b, s.now)]) :
    Drained cfg { s with tests := s.tests.set j t', gate, finished, locked } c := by
  refine ⟨h.1, fun iv hiv => ?_⟩
  have hbefore := htested.current_eq ht hold
  have hafter : Probing.current { s with tests := s.tests.set j t', gate, finished, locked } =
      t'.begun := htested.current_set ht hold
  rcases hcall with ⟨rfl, hbegun⟩ | ⟨b, hb, hbegun, rfl⟩
  · rcases mem_intervals.mp hiv with hfin | ⟨b, hb, rfl⟩
    · exact h.2 iv (mem_intervals.mpr (Or.inl hfin))
    · rw [hafter] at hb
      rcases hbegun with ⟨hnone, -⟩ | hsame | hnow
      · rw [hnone] at hb
        cases hb
      · exact h.2 _ (mem_intervals.mpr (Or.inr ⟨b, by rw [hbefore, ← hsame, hb], rfl⟩))
      · -- a test that begins now
        rw [hnow] at hb
        exact Or.inr (Option.some.inj hb ▸ h.1)
  · rcases mem_intervals.mp hiv with ⟨u, hu, rfl⟩ | ⟨b', hb', rfl⟩
    · rcases List.mem_append.mp hu with hu | hu
      · exact h.2 _ (mem_intervals.mpr (Or.inl ⟨u, hu, rfl⟩))
      · -- the test that ends now was no earlier while it ran
        obtain rfl := List.mem_singleton.mp hu
        rcases h.2 (b, none) (mem_intervals.mpr (Or.inr ⟨b, hbefore.trans hb, rfl⟩)) with
          ⟨e, he, -⟩ | hle
        · cases he
        · exact Or.inr hle
    · rw [hafter, hbegun] at hb'
      cases hb'

variable [Field F]

theorem Drained.run {c : ℕ} (h : s.Drained cfg c) : s.run.Drained cfg c := by
  have hcurrent : ∀ t : TestPhase F, t.begun = none →
      (s.tests ++ [t]).findSome? TestPhase.begun = s.tests.findSome? TestPhase.begun := by
    intro t ht
    rw [List.findSome?_append, List.findSome?_singleton, ht, Option.or_none]
  have heq : s.run.intervals cfg = s.intervals cfg ∧ s.run.now = s.now := by
    unfold Probing.run
    split
    · refine ⟨?_, rfl⟩
      rw [intervals, gateRun, current, hcurrent _ rfl]
      rfl
    · refine ⟨?_, rfl⟩
      rw [intervals, gateRun, current, hcurrent _ rfl]
      rfl
  exact ⟨heq.2 ▸ h.1, heq.1 ▸ h.2⟩

variable [LinearOrder F]

theorem Drained.testStep {c j : ℕ} {t : TestPhase F} {e : ProbeEvent F} (h : s.Drained cfg c)
    (htested : s.Tested cfg) (ht : s.tests[j]? = some t)
    (hs : s.testStep cfg j t e = some s') : s'.Drained cfg c := by
  unfold Probing.testStep at hs
  split at hs
  · split at hs <;> obtain rfl := Option.some.inj hs
    · exact h.set htested ht rfl (Or.inl ⟨rfl, Or.inl ⟨rfl, rfl⟩⟩)
    · exact h.set htested ht rfl (Or.inl ⟨rfl, Or.inl ⟨rfl, rfl⟩⟩)
  · obtain rfl := Option.some.inj hs
    exact h.set htested ht rfl (Or.inl ⟨rfl, Or.inr (Or.inr rfl)⟩)
  · obtain rfl := Option.some.inj hs
    split
    · exact h.set htested ht rfl (Or.inl ⟨rfl, Or.inr (Or.inl rfl)⟩)
    · exact h.set htested ht rfl (Or.inl ⟨rfl, Or.inr (Or.inl rfl)⟩)
  · obtain rfl := Option.some.inj hs
    exact h.set htested ht rfl (Or.inl ⟨rfl, Or.inr (Or.inl rfl)⟩)
  · obtain rfl := Option.some.inj hs
    exact h.set htested ht rfl (Or.inr ⟨_, rfl, rfl, rfl⟩)
  · obtain rfl := Option.some.inj hs
    exact h.set htested ht rfl (Or.inl ⟨rfl, Or.inl ⟨rfl, rfl⟩⟩)
  · cases hs

/-- **Step lemma.** What was drained stays drained, whatever comes later. -/
theorem Drained.step {c : ℕ} {e : ProbeEvent F} (h : s.Drained cfg c) (htested : s.Tested cfg)
    (hs : s.step cfg e = some s') : s'.Drained cfg c := by
  rcases step_cases hs with ⟨d, rfl⟩ | rfl | ⟨j, t, ht, htest⟩ | ⟨links, rfl⟩ | ⟨i, t, -, hping⟩
  · exact h.congr ⟨rfl, rfl, rfl, rfl, Nat.le_add_right _ _⟩
  · exact h.run
  · exact h.testStep htested ht htest
  · exact h.congr (sameTests_reconcile s _ links)
  · exact h.congr (sameTests_pingStep hping)

/-! ### The pings -/

end Probing

/-- What is known of a ping on its way: it was `ok` when it found the gate open. -/
def PingPhase.Fits (ok : ℕ → Prop) (interval : ℕ) : PingPhase → Prop
  | .ticking => True
  | .allowed checked deadline => ok checked ∧ deadline ≤ checked + interval
  | .failed checked deadline => ok checked ∧ deadline ≤ checked + interval
  | .awaiting p => ok p.checked ∧ p.deadline ≤ p.checked + interval
  | .heard p _ => ok p.checked ∧ p.deadline ≤ p.checked + interval
  | .recording p asked _ => (ok p.checked ∧ p.deadline ≤ p.checked + interval) ∧ ok asked

theorem PingPhase.Fits.mono {ok ok' : ℕ → Prop} {interval : ℕ} {phase : PingPhase}
    (himp : ∀ c, ok c → ok' c) (h : phase.Fits ok interval) : phase.Fits ok' interval := by
  cases phase with
  | ticking => trivial
  | allowed checked deadline => exact ⟨himp _ h.1, h.2⟩
  | failed checked deadline => exact ⟨himp _ h.1, h.2⟩
  | awaiting p => exact ⟨himp _ h.1, h.2⟩
  | heard p reply => exact ⟨himp _ h.1, h.2⟩
  | recording p asked reply => exact ⟨⟨himp _ h.1.1, h.1.2⟩, himp _ h.2⟩

namespace Probing

variable {F : Type*} {s s' : Probing F} {cfg : ProbeCfg F}

/-- What is known of an outcome that was waited for. -/
def RecordedFits (ok : ℕ → Prop) (interval : ℕ) (r : Recorded F) : Prop :=
  ∀ p, r.awaited = some p → (ok p.checked ∧ p.deadline ≤ p.checked + interval) ∧ ok r.asked

/-- Every ping found the gate open before it was sent, and again before it was recorded. -/
structure Undisturbed (cfg : ProbeCfg F) (s : Probing F) : Prop where
  tasks : ∀ t ∈ s.tasks, PingPhase.Fits (s.Drained cfg) cfg.ping_interval t.phase
  log : ∀ r ∈ s.log, RecordedFits (s.Drained cfg) cfg.ping_interval r

theorem undisturbed_init (n : ℕ) : Undisturbed cfg (init n : Probing F) where
  tasks := fun _ ht => absurd ht List.not_mem_nil
  log := fun _ hr => absurd hr List.not_mem_nil

/-- No ping goes on: the instants known stay what they are. -/
theorem Undisturbed.congr (h : s.Undisturbed cfg)
    (hdrained : ∀ c, s.Drained cfg c → s'.Drained cfg c)
    (htasks : ∀ t' ∈ s'.tasks, t'.phase = .ticking ∨ ∃ t ∈ s.tasks, t'.phase = t.phase)
    (hlog : s'.log = s.log) : s'.Undisturbed cfg where
  tasks := by
    intro t' ht'
    rcases htasks t' ht' with hphase | ⟨t, ht, hphase⟩
    · rw [hphase]
      trivial
    · rw [hphase]
      exact (h.tasks t ht).mono hdrained
  log := by
    rw [hlog]
    intro r hr p hp
    obtain ⟨⟨hchecked, hdeadline⟩, hasked⟩ := h.log r hr p hp
    exact ⟨⟨hdrained _ hchecked, hdeadline⟩, hdrained _ hasked⟩

/-- One ping goes on, and an outcome may be recorded. -/
theorem Undisturbed.set (h : s.Undisturbed cfg) (hsame : SameTests s s') {i : ℕ} {t' : PingTask}
    (htasks : s'.tasks = s.tasks.set i t')
    (hphase : t'.phase.Fits (s.Drained cfg) cfg.ping_interval) {os : List (Recorded F)}
    (hlog : s'.log = s.log ++ os)
    (hos : ∀ r ∈ os, RecordedFits (s.Drained cfg) cfg.ping_interval r) : s'.Undisturbed cfg where
  tasks := by
    intro u hu
    rw [htasks] at hu
    rcases List.mem_or_eq_of_mem_set hu with hu | rfl
    · exact (h.tasks u hu).mono fun c hc => hc.congr hsame
    · exact hphase.mono fun c hc => hc.congr hsame
  log := by
    rw [hlog]
    intro r hr p hp
    have hfits : RecordedFits (s.Drained cfg) cfg.ping_interval r :=
      (List.mem_append.mp hr).elim (h.log r) (hos r)
    obtain ⟨⟨hchecked, hdeadline⟩, hasked⟩ := hfits p hp
    exact ⟨⟨hchecked.congr hsame, hdeadline⟩, hasked.congr hsame⟩

/-- A refresh starts tasks that wait for a tick, and records nothing. -/
theorem pings_reconcile (s : Probing F) (size : ℕ) (links : List DiscoveredLink) :
    (∀ t' ∈ (s.reconcile size links).tasks,
      t'.phase = .ticking ∨ ∃ t ∈ s.tasks, t'.phase = t.phase) ∧
    (s.reconcile size links).log = s.log := by
  refine reconcile_invariant (P := fun u => (∀ t' ∈ u.tasks, t'.phase = .ticking ∨
    ∃ t ∈ s.tasks, t'.phase = t.phase) ∧ u.log = s.log) ⟨fun t' ht' => Or.inr ?_, rfl⟩ ?_
  · obtain ⟨i, hi⟩ := List.mem_iff_getElem?.mp ht'
    obtain ⟨t, ht, -, -, hphase, -⟩ := getElem?_stop hi
    exact ⟨t, List.mem_of_getElem? ht, hphase⟩
  · intro u l hu
    unfold start
    split
    · exact hu
    · refine ⟨fun t' ht' => ?_, hu.2⟩
      rcases List.mem_append.mp ht' with ht' | ht'
      · exact hu.1 t' ht'
      · exact Or.inl (List.mem_singleton.mp ht' ▸ rfl)

variable [Field F] [LinearOrder F]

omit [LinearOrder F] in
theorem Undisturbed.pingStep {i : ℕ} {t : PingTask} {e : ProbeEvent F} (h : s.Undisturbed cfg)
    (htested : s.Tested cfg) (ht : s.tasks[i]? = some t)
    (hs : s.pingStep cfg i t t.phase e = some s') : s'.Undisturbed cfg := by
  have hsame := sameTests_pingStep hs
  have hfits := h.tasks t (List.mem_of_getElem? ht)
  have hopen : s.gate.paused s.now = false → s.Drained cfg s.now := htested.drained_now
  have hnil : ∀ r ∈ ([] : List (Recorded F)),
      RecordedFits (s.Drained cfg) cfg.ping_interval r := fun r hr => absurd hr List.not_mem_nil
  generalize hphase : t.phase = phase at hs hfits
  unfold Probing.pingStep at hs
  split at hs
  · -- a tick: the gate is asked
    split at hs
    · rename_i hat
      split at hs <;> obtain rfl := Option.some.inj hs
      · exact h
      · rename_i hpaused
        have hdrained := hopen (by simpa using hpaused)
        exact h.set hsame rfl ⟨hdrained, Nat.add_le_add_right hat.2 _⟩ (List.append_nil _).symm hnil
    · cases hs
  · obtain rfl := Option.some.inj hs
    refine h.set hsame rfl ?_ (List.append_nil _).symm hnil
    split <;> exact hfits
  · obtain rfl := Option.some.inj hs
    refine h.set hsame rfl trivial rfl fun r hr p hp => ?_
    rw [List.mem_singleton.mp hr] at hp
    cases hp
  · split at hs
    · cases hs
    · split at hs
      · obtain rfl := Option.some.inj hs
        split
        · exact h.set ⟨rfl, rfl, rfl, rfl, le_refl _⟩ rfl hfits (List.append_nil _).symm hnil
        · exact h
      · obtain rfl := Option.some.inj hs
        exact h.set hsame rfl hfits (List.append_nil _).symm hnil
      · split at hs
        · obtain rfl := Option.some.inj hs
          exact h.set hsame rfl hfits (List.append_nil _).symm hnil
        · cases hs
  · -- the wait is over: the gate is asked again
    obtain rfl := Option.some.inj hs
    split
    · exact h.set ⟨rfl, rfl, rfl, rfl, le_refl _⟩ rfl trivial (List.append_nil _).symm hnil
    · rename_i hpaused
      have hdrained := hopen (by simpa using hpaused)
      exact h.set ⟨rfl, rfl, rfl, rfl, le_refl _⟩ rfl ⟨hfits, hdrained⟩ (List.append_nil _).symm hnil
  · split at hs <;> obtain rfl := Option.some.inj hs
    · refine h.set hsame rfl trivial rfl fun r hr p hp => ?_
      rw [List.mem_singleton.mp hr] at hp ⊢
      exact Option.some.inj hp ▸ hfits
    · refine h.set hsame rfl trivial rfl fun r hr p hp => ?_
      rw [List.mem_singleton.mp hr] at hp ⊢
      exact Option.some.inj hp ▸ hfits
    · exact h.set hsame rfl trivial (List.append_nil _).symm hnil
  · cases hs

theorem Undisturbed.step {e : ProbeEvent F} (h : s.Undisturbed cfg) (htested : s.Tested cfg)
    (hs : s.step cfg e = some s') : s'.Undisturbed cfg := by
  have hdrained : ∀ c, s.Drained cfg c → s'.Drained cfg c := fun c hc => hc.step htested hs
  rcases step_pings hs with hsame | ⟨links, rfl⟩ | ⟨i, t, ht, hping⟩
  · exact h.congr hdrained (fun t' ht' => Or.inr ⟨t', hsame.tasks ▸ ht', rfl⟩) hsame.log
  · exact h.congr hdrained (pings_reconcile s _ links).1 (pings_reconcile s _ links).2
  · exact h.pingStep htested ht hping

theorem undisturbed_of_run {n : ℕ} (h : Runs (Probing.step cfg) Always (init n) s) :
    s.Tested cfg ∧ s.Undisturbed cfg :=
  h.invariant (I := fun s => s.Tested cfg ∧ s.Undisturbed cfg)
    ⟨tested_init n, undisturbed_init n⟩
    (fun _ _ _ hi _ hs => ⟨hi.1.step hs, hi.2.step hi.1 hs⟩)

end Probing

/-- **No outcome of a ping is a test's.** In every interleaving, a throughput test whose time, with the
    grace after it, touches the time from when a recorded ping found the gate open to when it found
    it open again, began and had its grace end in between.  So none touches it when the outcome came
    less than an interval after its deadline. -/
theorem pings_undisturbed {F : Type*} [Field F] [LinearOrder F] {cfg : ProbeCfg F} {n : ℕ}
    {s : Probing F} (h : Runs (Probing.step cfg) Always (Probing.init n) s) {r : Recorded F}
    (hr : r ∈ s.log) {p : Ping} (hp : r.awaited = some p) :
    (∀ iv ∈ s.intervals cfg, Meets iv p.checked r.asked →
      p.checked ≤ iv.1 ∧ ∃ e ∈ iv.2, e ≤ r.asked) ∧
    (r.asked < p.deadline + cfg.ping_interval →
      ∀ iv ∈ s.intervals cfg, ¬ Meets iv p.checked r.asked) := by
  obtain ⟨htested, hundisturbed⟩ := Probing.undisturbed_of_run h
  obtain ⟨⟨hchecked, hdeadline⟩, hasked⟩ := hundisturbed.log r hr p hp
  have hwithin : ∀ iv ∈ s.intervals cfg, Meets iv p.checked r.asked →
      p.checked ≤ iv.1 ∧ ∃ e ∈ iv.2, e ≤ r.asked := by
    rintro iv hiv ⟨x, hle, hlt, hbegan, hend⟩
    constructor
    · rcases hchecked.2 iv hiv with ⟨e, he, hle'⟩ | hle'
      · have hlate := hend e he
        omega
      · exact hle'
    · rcases hasked.2 iv hiv with hdrained | hle'
      · exact hdrained
      · omega
  refine ⟨hwithin, fun hsoon iv hiv hmeets => ?_⟩
  obtain ⟨hbegan, e, he, hend⟩ := hwithin iv hiv hmeets
  obtain ⟨clock, -, hagrees⟩ := htested.agrees
  -- the grace alone is longer than the wait
  have hgrace : cfg.ping_interval * 2 ≤ cfg.grace := le_max_left _ _
  rcases Probing.mem_intervals.mp hiv with ⟨t, ht, rfl⟩ | ⟨b, -, rfl⟩
  · have hbegun := hagrees.begun t ht
    obtain rfl := Option.some.inj he
    simp only at hbegan
    omega
  · cases he

/-- Its outcome, of 20 ms by the kernel's clock. -/
private def twentyMs : Recorded ℚ :=
  ⟨"wg0", 0, some (selectRtt (some 20000000) 21000000), some ⟨3, 1000000003, 3, 100⟩, 21000003⟩

theorem pings_undisturbed_onePing :
    (∀ iv ∈ onePing.intervals everySecond, Meets iv 3 21000003 →
      3 ≤ iv.1 ∧ ∃ e ∈ iv.2, e ≤ 21000003) ∧
    (21000003 < 1000000003 + 1000000000 →
      ∀ iv ∈ onePing.intervals everySecond, ¬ Meets iv 3 21000003) := by
  have hlog : onePing.log = [twentyMs] := rfl
  exact pings_undisturbed onePing_run (hlog ▸ List.mem_singleton.mpr rfl : twentyMs ∈ onePing.log) rfl

end Mielofon
