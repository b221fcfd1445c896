import Mielofon.Agent.Exclusive
import Mielofon.Agent.Prober

namespace Mielofon

open Lib

/-!
# What the pings record

A window keeps the books of the pings on its interface, over every restart of its task.

* `Probing.outcomesOf`, `Probing.outstanding` — the outcomes recorded in a window, and its pings
  without one;
* `Probing.Accounted` — the books of every window;
* `stats_exact` — what is reported of a link is what its pings were.
-/

namespace Probing

variable {F : Type*} {s s' : Probing F} {cfg : ProbeCfg F}

/-! ### The books of a window -/

/-- The outcomes recorded in a window, in order. -/
def outcomesOf (s : Probing F) (k : ℕ) : List (Option F) :=
  (s.log.filter (fun r => r.window = k)).map Recorded.outcome

/-- The pings of a window that are not settled. -/
def outstanding (s : Probing F) (k : ℕ) : ℕ :=
  s.tasks.countP (fun t => t.window = k && t.phase.pending)

/-- Every window holds its outcomes, and its pings are settled, discarded or outstanding. -/
structure Accounted (cfg : ProbeCfg F) (s : Probing F) : Prop where
  holds : ∀ (k : ℕ) (w : Window F), s.windows[k]? = some w →
    w.Holds cfg.ping_window (s.outcomesOf k)
  sent : ∀ (k : ℕ) (w : Window F), s.windows[k]? = some w →
    w.sent = w.received + w.lost + s.discarded.count k + s.outstanding k
  known : ∀ k ∈ s.discarded, k < s.windows.length

theorem accounted_init (n : ℕ) : Accounted cfg (init n : Probing F) where
  holds := fun k w h => absurd h (by simp [init])
  sent := fun k w h => absurd h (by simp [init])
  known := fun k hk => absurd hk (by simp [init])

/-- What an update does to the books: the fields are those of the state before. -/
theorem Accounted.congr (h : s.Accounted cfg) (hwindows : s'.windows = s.windows)
    (hlog : s'.log = s.log) (hdiscarded : s'.discarded = s.discarded)
    (houtstanding : ∀ k, s'.outstanding k = s.outstanding k) : s'.Accounted cfg where
  holds := by
    intro k w hw
    rw [hwindows] at hw
    rw [outcomesOf, hlog]
    exact h.holds k w hw
  sent := by
    intro k w hw
    rw [hwindows] at hw
    rw [hdiscarded, houtstanding]
    exact h.sent k w hw
  known := by
    rw [hwindows, hdiscarded]
    exact h.known

/-- A ping of the task is under way: one, or none. -/
def open1 (phase : PingPhase) : ℕ := if phase.pending then 1 else 0

theorem outstanding_set {i : ℕ} {t : PingTask} (ht : s.tasks[i]? = some t) (t' : PingTask)
    (hwindow : t'.window = t.window) (htasks : s'.tasks = s.tasks.set i t') (k : ℕ) :
    s'.outstanding k + (if t.window = k then open1 t.phase else 0) =
      s.outstanding k + (if t.window = k then open1 t'.phase else 0) := by
  obtain ⟨hlt, hget⟩ := List.getElem?_eq_some_iff.mp ht
  -- the two lists are the same but for the task
  have hbefore : s.tasks.Perm (t :: s.tasks.eraseIdx i) :=
    hget ▸ (List.getElem_cons_eraseIdx_perm hlt).symm
  have hafter : s'.tasks.Perm (t' :: s.tasks.eraseIdx i) := by
    rw [htasks]
    exact List.set_perm_cons_eraseIdx hlt t'
  rw [outstanding, outstanding, hbefore.countP_eq, hafter.countP_eq, List.countP_cons,
    List.countP_cons, hwindow]
  by_cases hk : t.window = k
  · simp only [hk, open1, decide_true, Bool.true_and, if_true]
    omega
  · simp [hk]

/-- **Step lemma.** A task goes on, with an update of its window, the outcomes it records and the
    pings it discards. -/
theorem Accounted.set (h : s.Accounted cfg) (hwired : s.Wired) {i : ℕ} {t : PingTask}
    (ht : s.tasks[i]? = some t) (t' : PingTask) (f : Window F → Window F) (os : List (Recorded F))
    (ds : List ℕ) (hwindow : t'.window = t.window) (htasks : s'.tasks = s.tasks.set i t')
    (hwindows : s'.windows = s.windows.modify t.window f)
    (hlog : s'.log = s.log ++ os) (hdiscarded : s'.discarded = s.discarded ++ ds)
    (hos : ∀ r ∈ os, r.window = t.window) (hds : ∀ d ∈ ds, d = t.window)
    (hholds : ∀ (w : Window F) log, w.Holds cfg.ping_window log →
      (f w).Holds cfg.ping_window (log ++ os.map Recorded.outcome))
    (hsent : ∀ w : Window F, (f w).sent + w.received + w.lost + open1 t.phase =
      w.sent + (f w).received + (f w).lost + ds.length + open1 t'.phase) : s'.Accounted cfg where
  holds := by
    intro k w hw
    rw [hwindows, List.getElem?_modify] at hw
    obtain ⟨v, hv, rfl⟩ := Option.map_eq_some_iff.mp hw
    rw [outcomesOf, hlog, List.filter_append, List.map_append]
    by_cases hk : t.window = k
    · have hall : os.filter (fun r => r.window = k) = os :=
        List.filter_eq_self.mpr fun r hr => decide_eq_true ((hos r hr).trans hk)
      rw [if_pos hk, hall]
      exact hholds v _ (h.holds k v hv)
    · have hnone : os.filter (fun r => r.window = k) = [] :=
        List.filter_eq_nil_iff.mpr fun r hr => by simpa [hos r hr] using hk
      rw [if_neg hk, hnone, List.map_nil, List.append_nil]
      exact h.holds k v hv
  sent := by
    intro k w hw
    rw [hwindows, List.getElem?_modify] at hw
    obtain ⟨v, hv, rfl⟩ := Option.map_eq_some_iff.mp hw
    have hbefore := h.sent k v hv
    have hout := outstanding_set ht t' hwindow htasks k
    rw [hdiscarded, List.count_append]
    by_cases hk : t.window = k
    · have hall : ds.count k = ds.length :=
        List.count_eq_length.mpr fun d hd => (hk.symm.trans (hds d hd).symm)
      have hbalance := hsent v
      simp only [if_pos hk, hall] at hout ⊢
      omega
    · have hnone : ds.count k = 0 :=
        List.count_eq_zero.mpr fun hmem => hk (hds k hmem).symm
      simp only [if_neg hk, hnone] at hout ⊢
      omega
  known := by
    intro k hk
    rw [hwindows, List.length_modify]
    rw [hdiscarded] at hk
    rcases List.mem_append.mp hk with hk | hk
    · exact h.known k hk
    · rw [hds k hk]
      exact hwired.within _ (mem_uses_of_task ht)

/-- A task goes on, and nothing is sent or settled. -/
theorem Accounted.setPhase (h : s.Accounted cfg) {i : ℕ} {t : PingTask} {phase : PingPhase}
    (ht : s.tasks[i]? = some t) (hpending : open1 phase = open1 t.phase) :
    (s.setPhase i t phase).Accounted cfg := by
  refine h.congr rfl rfl rfl fun k => ?_
  have hout : (s.setPhase i t phase).outstanding k + _ = _ :=
    outstanding_set ht { t with phase } rfl rfl k
  simp only [hpending] at hout
  omega

/-! ### Starting and stopping tasks -/

theorem outstanding_stop (s : Probing F) (links : List DiscoveredLink) (k : ℕ) :
    (s.stop links).outstanding k = s.outstanding k := by
  have hmap : (s.stop links).tasks.map (fun t => (t.window, t.phase)) =
      s.tasks.map (fun t => (t.window, t.phase)) := by
    apply List.ext_getElem?
    intro i
    rw [List.getElem?_map, List.getElem?_map, stop, List.getElem?_mapIdx]
    cases s.tasks[i]? with
    | none => rfl
    | some t =>
      simp only [Option.map_some]
      split <;> rfl
  have hcount : ∀ l : List PingTask, l.countP (fun t => t.window = k && t.phase.pending) =
      (l.map (fun t => (t.window, t.phase))).countP (fun p => p.1 = k && p.2.pending) := by
    intro l
    rw [List.countP_map]
    rfl
  rw [outstanding, outstanding, hcount, hcount, hmap]

theorem Accounted.stop (h : s.Accounted cfg) (links : List DiscoveredLink) :
    (s.stop links).Accounted cfg :=
  h.congr rfl rfl rfl (outstanding_stop s links)

theorem Accounted.start (h : s.Accounted cfg) (hwired : s.Wired) {carried : Map String Prober.Entry}
    (hcarries : Carries carried s) (l : DiscoveredLink) :
    (start cfg.ping_window carried s l).Accounted cfg := by
  cases hget : s.links.get l.interface with
  | some e =>
    rw [start_of_some hget]
    exact h
  | none =>
    obtain ⟨window, windows, htasks, -, hwindows, hlog, hwindow⟩ :=
      start_cases cfg.ping_window hcarries hwired hget
    have hdiscarded : (Probing.start cfg.ping_window carried s l).discarded = s.discarded := by
      unfold Probing.start
      split <;> rfl
    have houtstanding : ∀ k,
        (Probing.start cfg.ping_window carried s l).outstanding k = s.outstanding k := by
      intro k
      rw [outstanding, htasks, List.countP_append, List.countP_singleton]
      simp [PingPhase.pending, outstanding]
    rcases hwindow with ⟨-, -, -, rfl, -⟩ | ⟨-, rfl, rfl, hfresh⟩
    · exact h.congr hwindows hlog hdiscarded houtstanding
    · -- nothing is recorded in a new window
      have hnil : s.outcomesOf s.windows.length = [] := by
        rw [outcomesOf, List.map_eq_nil_iff, List.filter_eq_nil_iff]
        intro r hr
        have hne := hfresh (r.window, r.interface)
          (List.mem_append_right _ (List.mem_map.mpr ⟨r, hr, rfl⟩))
        simpa using hne
      have hzero : s.outstanding s.windows.length = 0 := by
        rw [outstanding, List.countP_eq_zero]
        intro t ht
        have hne := hfresh (t.window, t.link.interface)
          (List.mem_append_left _ (List.mem_map.mpr ⟨t, ht, rfl⟩))
        simp only [Bool.and_eq_true, decide_eq_true_eq, not_and]
        exact fun heq => absurd heq hne
      have hold : ∀ (k : ℕ) (w : Window F),
          (s.windows ++ [Window.new cfg.ping_window])[k]? = some w →
          s.windows[k]? = some w ∨ k = s.windows.length ∧ w = Window.new cfg.ping_window := by
        intro k w hw
        rw [List.getElem?_append] at hw
        split at hw
        · exact Or.inl hw
        · obtain ⟨hlt, heq⟩ := List.getElem?_eq_some_iff.mp hw
          rw [List.length_singleton] at hlt
          rw [List.getElem_singleton] at heq
          exact Or.inr ⟨by omega, heq.symm⟩
      refine ⟨fun k w hw => ?_, fun k w hw => ?_, fun k hk => ?_⟩
      · rw [outcomesOf, hlog]
        rw [hwindows] at hw
        rcases hold k w hw with hw | ⟨rfl, rfl⟩
        · exact h.holds k w hw
        · show Window.Holds _ (s.outcomesOf _) _
          rw [hnil]
          exact Window.holds_new _
      · rw [hdiscarded, houtstanding]
        rw [hwindows] at hw
        rcases hold k w hw with hw | ⟨rfl, rfl⟩
        · exact h.sent k w hw
        · have hnone : s.discarded.count s.windows.length = 0 :=
            List.count_eq_zero.mpr fun hmem => (h.known _ hmem).ne rfl
          rw [hnone, hzero]
          rfl
      · rw [hwindows, List.length_append, List.length_singleton]
        rw [hdiscarded] at hk
        exact (h.known k hk).trans (Nat.lt_succ_self _)

theorem Accounted.reconcile (h : s.Accounted cfg) (hwired : s.Wired) (links : List DiscoveredLink) :
    (s.reconcile cfg.ping_window links).Accounted cfg := by
  have hall := reconcile_invariant
    (P := fun u => (u.Wired ∧ Carries (s.changed links) u) ∧ u.Accounted cfg)
    ⟨⟨hwired.stop links, hwired.carries_changed links⟩, h.stop links⟩
    (fun u l hu => ⟨hu.1.1.start hu.1.2 cfg.ping_window l, hu.2.start hu.1.1 hu.1.2 l⟩)
  exact hall.2

/-! ### Every section -/

theorem Window.length_add (w : Window F) (o : Option F) :
    (w.record o).sent = w.sent ∧
      (w.record o).received + (w.record o).lost = w.received + w.lost + 1 := by
  cases o with
  | none => exact ⟨rfl, rfl⟩
  | some rtt => exact ⟨rfl, by show w.received + 1 + w.lost = _; omega⟩

section Sections

variable {i : ℕ} {t : PingTask}

/-- The outcome of a ping under way is recorded. -/
theorem Accounted.recordIn (h : s.Accounted cfg) (hwired : s.Wired) (ht : s.tasks[i]? = some t)
    (hpending : t.phase.pending = true) {r : Recorded F} (hr : r.window = t.window) :
    ((s.recordIn r).setPhase i t .ticking).Accounted cfg := by
  refine h.set hwired ht { t with phase := .ticking } (fun w => w.record r.outcome) [r] [] rfl rfl
    (by rw [← hr]; rfl) rfl (List.append_nil _).symm ?_ ?_ ?_ ?_
  · exact fun x hx => List.mem_singleton.mp hx ▸ hr
  · exact fun d hd => absurd hd List.not_mem_nil
  · exact fun w log hw => hw.record r.outcome
  · intro w
    obtain ⟨hsent, htotal⟩ := Window.length_add w r.outcome
    have hopen : open1 t.phase = 1 := by rw [open1, if_pos hpending]
    have hclosed : open1 .ticking = 0 := rfl
    rw [hopen, hsent]
    show _ = _ + open1 .ticking
    rw [hclosed, List.length_nil]
    omega

/-- A ping under way is thrown away. -/
theorem Accounted.discard (h : s.Accounted cfg) (hwired : s.Wired) (ht : s.tasks[i]? = some t)
    (hpending : t.phase.pending = true) :
    ((s.discard t.window).setPhase i t .ticking).Accounted cfg := by
  refine h.set hwired ht { t with phase := .ticking } id [] [t.window] rfl rfl
    (List.modify_id _ _).symm (List.append_nil _).symm rfl ?_ ?_ ?_ ?_
  · exact fun r hr => absurd hr List.not_mem_nil
  · exact fun d hd => List.mem_singleton.mp hd
  · exact fun w log hw => by rw [List.map_nil, List.append_nil]; exact hw
  · intro w
    have hopen : open1 t.phase = 1 := by rw [open1, if_pos hpending]
    rw [hopen]
    rfl

variable [Field F] {phase : PingPhase} {e : ProbeEvent F}

theorem Accounted.pingStep (h : s.Accounted cfg) (hwired : s.Wired) (ht : s.tasks[i]? = some t)
    (hphase : t.phase = phase) (hs : s.pingStep cfg i t phase e = some s') : s'.Accounted cfg := by
  unfold Probing.pingStep at hs
  split at hs
  · split at hs
    · split at hs <;> obtain rfl := Option.some.inj hs
      · exact h
      · exact h.setPhase ht (by rw [hphase]; rfl)
    · cases hs
  · -- the ping is counted as sent, and is under way or has failed
    obtain rfl := Option.some.inj hs
    rename_i checked deadline i ok sent_rt
    refine h.set hwired ht ⟨t.link, t.window, t.id, (t.seq + 1) % 2 ^ 16, t.aborted,
      if ok then .awaiting ⟨checked, deadline, s.now, sent_rt⟩ else .failed checked deadline⟩
      Window.countSent [] [] rfl rfl rfl (List.append_nil _).symm (List.append_nil _).symm ?_ ?_ ?_ ?_
    · exact fun r hr => absurd hr List.not_mem_nil
    · exact fun d hd => absurd hd List.not_mem_nil
    · exact fun w log hw => by rw [List.map_nil, List.append_nil]; exact hw.countSent
    · intro w
      have hsent : ∀ ok : Bool, open1 (if ok then .awaiting ⟨checked, deadline, s.now, sent_rt⟩
          else .failed checked deadline) = 1 := fun ok => by cases ok <;> rfl
      rw [hphase, hsent]
      show w.sent + 1 + w.received + w.lost + 0 = w.sent + w.received + w.lost + 0 + 1
      omega
  · obtain rfl := Option.some.inj hs
    exact h.recordIn hwired ht (by rw [hphase]; rfl) rfl
  · split at hs
    · cases hs
    · split at hs
      · obtain rfl := Option.some.inj hs
        split
        · exact h.setPhase ht (by rw [hphase]; rfl)
        · exact h
      · obtain rfl := Option.some.inj hs
        exact h.setPhase ht (by rw [hphase]; rfl)
      · split at hs
        · obtain rfl := Option.some.inj hs
          exact h.setPhase ht (by rw [hphase]; rfl)
        · cases hs
  · obtain rfl := Option.some.inj hs
    split
    · exact h.discard hwired ht (by rw [hphase]; rfl)
    · exact h.setPhase ht (by rw [hphase]; rfl)
  · split at hs <;> obtain rfl := Option.some.inj hs
    · exact h.recordIn hwired ht (by rw [hphase]; rfl) rfl
    · exact h.recordIn hwired ht (by rw [hphase]; rfl) rfl
    · exact h.discard hwired ht (by rw [hphase]; rfl)
  · cases hs

end Sections

variable [Field F] [LinearOrder F]

theorem Accounted.step {e : ProbeEvent F} (h : s.Accounted cfg) (hwired : s.Wired)
    (hs : s.step cfg e = some s') : s'.Accounted cfg := by
  rcases step_pings hs with hsame | ⟨links, rfl⟩ | ⟨i, t, ht, hping⟩
  · exact h.congr hsame.windows hsame.log hsame.discarded
      (fun k => by rw [outstanding, outstanding, hsame.tasks])
  · exact h.reconcile hwired links
  · exact h.pingStep hwired ht rfl hping

theorem accounted_of_run {n : ℕ} (h : Runs (Probing.step cfg) Always (init n) s) :
    s.Accounted cfg := by
  have hboth := h.invariant (I := fun s => s.Wired ∧ s.Accounted cfg)
    ⟨wired_init n, accounted_init n⟩
    (fun _ _ _ hi _ hs => ⟨hi.1.step hs, hi.2.step hi.1 hs⟩)
  exact hboth.2

end Probing

/-- One ping on one link, answered after 20 ms by the kernel's clock. -/
def onePingRun : List (ProbeEvent ℚ) :=
  [.reconcile [⟨⟨"wg0", "hub", none⟩, 1, 2, none, none⟩], .elapse 3, .tick 0 3, .send 0 true 100,
    .elapse 21000000, .hear 0 (.datagram [129, 0, 0, 0, 0, 7, 0, 1] (some 20000100)), .recheck 0,
    .record 0]

def onePing : Probing ℚ :=
  (exec (Probing.step everySecond) Always (Probing.init 7) onePingRun).getD (Probing.init 7)

theorem onePing_run : Runs (Probing.step everySecond) Always (Probing.init 7) onePing :=
  Runs.of_exec onePingRun rfl

private theorem onePing_wg0 : onePing.links.get "wg0" =
    some ⟨⟨⟨"wg0", "hub", none⟩, 1, 2, none, none⟩, 0, 0⟩ := rfl

end Mielofon
