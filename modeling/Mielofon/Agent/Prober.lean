import Mielofon.Agent.Probing

namespace Mielofon

open Lib

/-!
# One ping task for each link

A refresh hands the prober the links as they are now.  It stops the tasks of the links that are gone,
starts those of new ones, and restarts a link that has changed on the window it had.

* `Probing.uses` — the windows, with the interfaces they are used for;
* `Probing.Wired` — the tasks that go on are those of the entries, and no window serves two
  interfaces;
* `Wired.stop`, `Wired.start`, `Wired.pingStep` — every section keeps this;
* `probed_links` — after a refresh exactly its links are probed, by one task each.
-/

namespace Probing

variable {F : Type*} {s s' : Probing F} {links : List DiscoveredLink}

/-- The windows in use by a task or an outcome, each with its interface. -/
def uses (s : Probing F) : List (ℕ × String) :=
  s.tasks.map (fun t => (t.window, t.link.interface)) ++ s.log.map (fun r => (r.window, r.interface))

/-- Every entry has its task, every task that goes on has its entry, and a window is that of one
    interface. -/
structure Wired (s : Probing F) : Prop where
  entry : ∀ iface e, s.links.get iface = some e → e.link.interface = iface ∧
    ∃ t, s.tasks[e.task]? = some t ∧ t.aborted = false ∧ t.link = e.link ∧ t.window = e.window
  live : ∀ i t, s.tasks[i]? = some t → t.aborted = false →
    ∃ e, s.links.get t.link.interface = some e ∧ e.task = i
  owner : ∀ u ∈ s.uses, ∀ v ∈ s.uses, u.1 = v.1 → u.2 = v.2
  within : ∀ u ∈ s.uses, u.1 < s.windows.length

theorem wired_init (n : ℕ) : Wired (init n : Probing F) where
  entry := fun iface e h => absurd h (by simp [init])
  live := fun i t h => absurd h (by simp [init])
  owner := fun u hu => absurd hu (by simp [uses, init])
  within := fun u hu => absurd hu (by simp [uses, init])

theorem mem_uses_of_task {i : ℕ} {t : PingTask} (h : s.tasks[i]? = some t) :
    (t.window, t.link.interface) ∈ s.uses :=
  List.mem_append_left _ (List.mem_map.mpr ⟨t, List.mem_of_getElem? h, rfl⟩)

/-- The window of an entry is one of its interface. -/
theorem Wired.entry_uses (h : s.Wired) {iface : String} {e : Prober.Entry}
    (he : s.links.get iface = some e) : (e.window, iface) ∈ s.uses := by
  obtain ⟨hiface, t, ht, -, hlink, hwindow⟩ := h.entry iface e he
  have hmem := mem_uses_of_task ht
  rwa [hwindow, hlink, hiface] at hmem

/-- Two entries do not share a task. -/
theorem Wired.eq_of_task (h : s.Wired) {iface iface' : String} {e e' : Prober.Entry}
    (he : s.links.get iface = some e) (he' : s.links.get iface' = some e')
    (htask : e.task = e'.task) : iface = iface' := by
  obtain ⟨hiface, t, ht, -, hlink, -⟩ := h.entry iface e he
  obtain ⟨hiface', t', ht', -, hlink', -⟩ := h.entry iface' e' he'
  rw [htask, ht', Option.some.injEq] at ht
  rw [← hiface, ← hiface', ← hlink, ← hlink', ht]

/-! ### Stopping -/

theorem get_kept (s : Probing F) (links : List DiscoveredLink) (iface : String) :
    (s.kept links).get iface =
      (s.links.get iface).filter (fun e => linkOn links iface = some e.link) :=
  Map.get_retain _ _ _

/-- What becomes of a task when the others are stopped. -/
theorem getElem?_stop {i : ℕ} {t' : PingTask} (h : (s.stop links).tasks[i]? = some t') :
    ∃ t, s.tasks[i]? = some t ∧ t'.link = t.link ∧ t'.window = t.window ∧ t'.phase = t.phase ∧
      (t'.aborted = false ↔ t.aborted = false ∧ ∀ iface e, s.links.get iface = some e →
        e.task = i → linkOn links iface = some e.link) := by
  simp only [stop, List.getElem?_mapIdx, Option.map_eq_some_iff] at h
  obtain ⟨t, ht, rfl⟩ := h
  refine ⟨t, ht, ?_⟩
  split
  · rename_i hany
    obtain ⟨⟨iface, e⟩, hmem, hstopped⟩ := List.any_eq_true.mp hany
    simp only [Bool.and_eq_true, decide_eq_true_eq, ne_eq] at hstopped
    refine ⟨rfl, rfl, rfl, ⟨fun h => absurd h (by simp), fun h => ?_⟩⟩
    exact absurd (h.2 iface e (Map.mem_pairs.mp hmem) hstopped.1) hstopped.2
  · rename_i hnone
    refine ⟨rfl, rfl, rfl, ⟨fun h => ⟨h, fun iface e he htask => ?_⟩, fun h => h.1⟩⟩
    by_contra hne
    refine hnone (List.any_eq_true.mpr ⟨(iface, e), Map.mem_pairs.mpr he, ?_⟩)
    simpa using ⟨htask, hne⟩

theorem uses_stop (s : Probing F) (links : List DiscoveredLink) : (s.stop links).uses = s.uses := by
  unfold uses stop
  congr 1
  apply List.ext_getElem?
  intro i
  rw [List.getElem?_map, List.getElem?_map, List.getElem?_mapIdx]
  cases s.tasks[i]? with
  | none => rfl
  | some t =>
    simp only [Option.map_some]
    split <;> rfl

theorem Wired.stop (h : s.Wired) (links : List DiscoveredLink) : (s.stop links).Wired where
  entry := by
    intro iface e he
    have hkept : (s.kept links).get iface = some e := he
    rw [get_kept, Option.filter_eq_some_iff] at hkept
    obtain ⟨hget, hsame⟩ := hkept
    obtain ⟨hiface, t, ht, hlive, hlink, hwindow⟩ := h.entry iface e hget
    refine ⟨hiface, ?_⟩
    have hlt : e.task < (s.stop links).tasks.length := by
      obtain ⟨hlt, -⟩ := List.getElem?_eq_some_iff.mp ht
      simpa [Probing.stop] using hlt
    obtain ⟨t', ht'⟩ : ∃ t', (s.stop links).tasks[e.task]? = some t' :=
      ⟨_, List.getElem?_eq_getElem hlt⟩
    obtain ⟨u, hu, hlink', hwindow', -, haborted⟩ := getElem?_stop ht'
    obtain rfl := Option.some.inj (ht.symm.trans hu)
    refine ⟨t', ht', haborted.mpr ⟨hlive, fun iface' e' he' htask => ?_⟩,
      hlink'.trans hlink, hwindow'.trans hwindow⟩
    -- the entry whose task this is is the one that is kept
    obtain rfl := h.eq_of_task he' hget htask
    rw [Option.some.inj (he'.symm.trans hget)]
    exact of_decide_eq_true hsame
  live := by
    intro i t' ht' hlive
    obtain ⟨t, ht, hlink, -, -, haborted⟩ := getElem?_stop ht'
    obtain ⟨hlive, hkeeps⟩ := haborted.mp hlive
    obtain ⟨e, he, htask⟩ := h.live i t ht hlive
    refine ⟨e, ?_, htask⟩
    show (s.kept links).get _ = some e
    rw [hlink, get_kept, Option.filter_eq_some_iff]
    exact ⟨he, decide_eq_true (hkeeps _ e he htask)⟩
  owner := by rw [uses_stop]; exact h.owner
  within := by rw [uses_stop]; exact h.within

/-! ### Starting -/

section Start

variable {size : ℕ} {carried : Map String Prober.Entry} {l : DiscoveredLink}

/-- The windows carried over are those of their interfaces. -/
def Carries (carried : Map String Prober.Entry) (s : Probing F) : Prop :=
  ∀ iface e, carried.get iface = some e → (e.window, iface) ∈ s.uses

/-- A link is started on the window carried over, or on a new one. -/
theorem start_cases (size : ℕ) (hcarries : Carries carried s) (hwired : s.Wired)
    (hfree : s.links.get l.interface = none) :
    ∃ window windows,
      (start size carried s l).tasks = s.tasks ++ [⟨l, window, s.next_id, 0, false, .ticking⟩] ∧
      (start size carried s l).links = s.links.set l.interface ⟨l, window, s.tasks.length⟩ ∧
      (start size carried s l).windows = windows ∧ (start size carried s l).log = s.log ∧
      ((∃ c, carried.get l.interface = some c ∧ c.window = window ∧ windows = s.windows ∧
          (window, l.interface) ∈ s.uses) ∨
        carried.get l.interface = none ∧ window = s.windows.length ∧
          windows = s.windows ++ [Window.new size] ∧ ∀ u ∈ s.uses, u.1 ≠ window) := by
  have hnot : ¬ (s.links.get l.interface).isSome := by simp [hfree]
  unfold start
  rw [if_neg hnot]
  refine ⟨_, _, rfl, rfl, rfl, rfl, ?_⟩
  cases hget : carried.get l.interface with
  | some c => exact Or.inl ⟨c, rfl, rfl, rfl, hcarries _ c hget⟩
  | none => exact Or.inr ⟨rfl, rfl, rfl, fun u hu => (hwired.within u hu).ne⟩

theorem start_of_some {e : Prober.Entry} (h : s.links.get l.interface = some e) :
    start size carried s l = s := by
  rw [start, if_pos (by simp [h])]

theorem Wired.start (h : s.Wired) (hcarries : Carries carried s) (size : ℕ) (l : DiscoveredLink) :
    (start size carried s l).Wired ∧ Carries carried (Probing.start size carried s l) := by
  cases hget : s.links.get l.interface with
  | some e =>
    rw [start_of_some hget]
    exact ⟨h, hcarries⟩
  | none =>
    obtain ⟨window, windows, htasks, hlinks, hwindows, hlog, hwindow⟩ :=
      start_cases size hcarries h hget
    have huses : ∀ u, u ∈ (Probing.start size carried s l).uses ↔
        u ∈ s.uses ∨ u = (window, l.interface) := by
      intro u
      rw [uses, htasks, hlog, uses, List.map_append, List.mem_append, List.mem_append,
        List.mem_append, List.map_singleton, List.mem_singleton]
      exact ⟨by rintro ((h | h) | h) <;> simp_all, by rintro ((h | h) | h) <;> simp_all⟩
    refine ⟨⟨?_, ?_, ?_, ?_⟩, fun iface e he => (huses _).mpr (Or.inl (hcarries iface e he))⟩
    · intro iface e he
      rw [hlinks, Map.get_set] at he
      rw [htasks]
      split at he
      · -- the new entry, with the new task
        rename_i hiface
        obtain rfl := Option.some.inj he
        exact ⟨hiface.symm, _, List.getElem?_concat_length, rfl, rfl, rfl⟩
      · obtain ⟨hiface, t, ht, hrest⟩ := h.entry iface e he
        have hlt := (List.getElem?_eq_some_iff.mp ht).1
        exact ⟨hiface, t, (List.getElem?_append_left hlt).trans ht, hrest⟩
    · intro i t ht hlive
      rw [htasks, List.getElem?_append] at ht
      rw [hlinks, Map.get_set]
      split at ht
      · obtain ⟨e, he, htask⟩ := h.live i t ht hlive
        refine ⟨e, ?_, htask⟩
        rw [if_neg, he]
        intro hiface
        rw [hiface, hget] at he
        exact absurd he (by simp)
      · rename_i hge
        obtain ⟨hlt, heq⟩ := List.getElem?_eq_some_iff.mp ht
        rw [List.length_singleton] at hlt
        have hi : i = s.tasks.length := by omega
        rw [List.getElem_singleton] at heq
        subst heq
        exact ⟨_, if_pos rfl, hi.symm⟩
    · intro u hu v hv huv
      rcases hwindow with ⟨-, -, -, -, hused⟩ | ⟨-, -, -, hfresh⟩
      · -- the window carried over is one of this interface already
        have hold : ∀ w ∈ (Probing.start size carried s l).uses, w ∈ s.uses := by
          intro w hw
          rcases (huses w).mp hw with hw | rfl
          · exact hw
          · exact hused
        exact h.owner u (hold u hu) v (hold v hv) huv
      · rcases (huses u).mp hu with hu | rfl <;> rcases (huses v).mp hv with hv | rfl
        · exact h.owner u hu v hv huv
        · exact absurd huv (hfresh u hu)
        · exact absurd huv.symm (hfresh v hv)
        · rfl
    · intro u hu
      rw [hwindows]
      rcases hwindow with ⟨-, -, -, rfl, hused⟩ | ⟨-, rfl, rfl, -⟩
      · rcases (huses u).mp hu with hu | rfl
        · exact h.within u hu
        · exact h.within _ hused
      · rw [List.length_append, List.length_singleton]
        rcases (huses u).mp hu with hu | rfl
        · exact (h.within u hu).trans (Nat.lt_succ_self _)
        · exact Nat.lt_succ_self _

end Start

theorem Wired.carries_changed (h : s.Wired) (links : List DiscoveredLink) :
    Carries (s.changed links) (s.stop links) := by
  intro iface e he
  rw [changed, Map.get_retain, Option.filter_eq_some_iff] at he
  rw [uses_stop]
  exact h.entry_uses he.1

theorem Wired.reconcile (h : s.Wired) (size : ℕ) (links : List DiscoveredLink) :
    (s.reconcile size links).Wired := by
  have hboth := reconcile_invariant (P := fun u => u.Wired ∧ Carries (s.changed links) u)
    ⟨h.stop links, h.carries_changed links⟩ (fun _ l hu => hu.1.start hu.2 size l)
  exact hboth.1

/-! ### The links after a refresh -/

/-- An entry stays as links are started. -/
theorem get_startAll_of_some {size : ℕ} {carried : Map String Prober.Entry} {iface : String}
    {e : Prober.Entry}
    (ls : List DiscoveredLink) : ∀ {s : Probing F}, s.links.get iface = some e →
      (ls.foldl (start size carried) s).links.get iface = some e := by
  induction ls with
  | nil => exact fun h => h
  | cons l ls ih =>
    intro s h
    refine ih ?_
    unfold start
    split
    · exact h
    · rename_i hfree
      rw [Map.get_set_ne _ _ (fun hiface => hfree (by rw [← hiface, h]; rfl)), h]

/-- An interface without an entry gets the first of its links, on the window carried over. -/
theorem get_startAll_of_none {size : ℕ} {carried : Map String Prober.Entry} {iface : String}
    (ls : List DiscoveredLink) : ∀ {s : Probing F}, s.links.get iface = none →
      ((ls.foldl (start size carried) s).links.get iface).map Prober.Entry.link = linkOn ls iface ∧
      ∀ e c, (ls.foldl (start size carried) s).links.get iface = some e →
        carried.get iface = some c → e.window = c.window := by
  induction ls with
  | nil =>
    intro s h
    refine ⟨by rw [List.foldl_nil, h]; rfl, fun e c he => ?_⟩
    rw [List.foldl_nil, h] at he
    cases he
  | cons l ls ih =>
    intro s h
    rw [List.foldl_cons, linkOn, List.find?_cons]
    by_cases hiface : l.interface = iface
    · -- this link gets the entry, and the later ones leave it
      subst hiface
      have hstarted : (start size carried s l).links.get l.interface =
          some ⟨l, ((carried.get l.interface).map Prober.Entry.window).getD s.windows.length,
            s.tasks.length⟩ := by
        rw [start, if_neg (by simp [h])]
        exact Map.get_set_self _ _ _
      rw [get_startAll_of_some ls hstarted]
      refine ⟨by simp, fun e c he hc => ?_⟩
      rw [← Option.some.inj he, hc]
      rfl
    · have hother : (start size carried s l).links.get iface = none := by
        unfold start
        split
        · exact h
        · rw [Map.get_set_ne _ _ (Ne.symm hiface), h]
      rw [decide_eq_false hiface]
      exact ih hother

theorem links_reconcile (s : Probing F) (size : ℕ) (links : List DiscoveredLink) (iface : String) :
    ((s.reconcile size links).links.get iface).map Prober.Entry.link = linkOn links iface := by
  cases hkept : (s.stop links).links.get iface with
  | none => exact (get_startAll_of_none links hkept).1
  | some e =>
    rw [reconcile, get_startAll_of_some links hkept, Option.map_some]
    have hget : (s.kept links).get iface = some e := hkept
    rw [get_kept, Option.filter_eq_some_iff] at hget
    exact (of_decide_eq_true hget.2).symm

/-- A link that stays keeps its window, and its task unless it has changed. -/
theorem entry_reconcile {size : ℕ} {iface : String} {e e' : Prober.Entry}
    (he : s.links.get iface = some e)
    (he' : (s.reconcile size links).links.get iface = some e') :
    e'.window = e.window ∧ (e'.link = e.link → e' = e) := by
  have hlink : linkOn links iface = some e'.link := by
    rw [← links_reconcile s size links iface, he', Option.map_some]
  cases hkept : (s.stop links).links.get iface with
  | some k =>
    rw [reconcile, get_startAll_of_some links hkept] at he'
    have hget : (s.kept links).get iface = some k := hkept
    rw [get_kept, Option.filter_eq_some_iff, he] at hget
    have heq : e' = e := (Option.some.inj he').symm.trans (Option.some.inj hget.1).symm
    exact ⟨by rw [heq], fun _ => heq⟩
  | none =>
    have hne : e'.link ≠ e.link := by
      intro hsame
      have hget : (s.kept links).get iface = none := hkept
      rw [get_kept, he, Option.filter_some, hlink, hsame, decide_eq_true rfl] at hget
      exact absurd hget (by simp)
    have hchanged : (s.changed links).get iface = some e := by
      rw [changed, Map.get_retain, he, Option.filter_some, hlink, Option.any_some,
        decide_eq_true hne]
      rfl
    exact ⟨(get_startAll_of_none links hkept).2 e' e he' hchanged, fun h => absurd h hne⟩

/-! ### Every section -/

/-- A section that starts and stops no task. -/
structure SameWiring (s s' : Probing F) : Prop where
  links : s'.links = s.links
  windows : s'.windows.length = s.windows.length
  tasks : ∀ (i : ℕ) (t' : PingTask), s'.tasks[i]? = some t' → ∃ t, s.tasks[i]? = some t ∧
    t'.link = t.link ∧ t'.window = t.window ∧ t'.aborted = t.aborted
  back : ∀ (i : ℕ) (t : PingTask), s.tasks[i]? = some t → ∃ t', s'.tasks[i]? = some t' ∧
    t'.link = t.link ∧ t'.window = t.window ∧ t'.aborted = t.aborted
  log : ∀ r ∈ s'.log, r ∈ s.log ∨ (r.window, r.interface) ∈ s.uses

theorem Wired.congr (h : s.Wired) (hsame : SameWiring s s') : s'.Wired := by
  have huses : ∀ u ∈ s'.uses, u ∈ s.uses := by
    intro u hu
    rcases List.mem_append.mp hu with hu | hu
    · obtain ⟨t', ht', rfl⟩ := List.mem_map.mp hu
      obtain ⟨i, hi⟩ := List.mem_iff_getElem?.mp ht'
      obtain ⟨t, ht, hlink, hwindow, -⟩ := hsame.tasks i t' hi
      have hmem := mem_uses_of_task ht
      rwa [← hlink, ← hwindow] at hmem
    · obtain ⟨r, hr, rfl⟩ := List.mem_map.mp hu
      rcases hsame.log r hr with hr | hr
      · exact List.mem_append_right _ (List.mem_map.mpr ⟨r, hr, rfl⟩)
      · exact hr
  refine ⟨?_, ?_, fun u hu v hv => h.owner u (huses u hu) v (huses v hv), fun u hu => ?_⟩
  · intro iface e he
    rw [hsame.links] at he
    obtain ⟨hiface, t, ht, hlive, hlink, hwindow⟩ := h.entry iface e he
    obtain ⟨t', ht', hlink', hwindow', hlive'⟩ := hsame.back _ t ht
    exact ⟨hiface, t', ht', hlive'.trans hlive, hlink'.trans hlink, hwindow'.trans hwindow⟩
  · intro i t' ht' hlive
    obtain ⟨t, ht, hlink, -, hlive'⟩ := hsame.tasks i t' ht'
    rw [hsame.links, hlink]
    exact h.live i t ht (hlive'.symm.trans hlive)
  · rw [hsame.windows]
    exact h.within u (huses u hu)

theorem SamePings.sameWiring (h : SamePings s s') : SameWiring s s' where
  links := h.links
  windows := by rw [h.windows]
  tasks := fun i t' ht' => ⟨t', h.tasks ▸ ht', rfl, rfl, rfl⟩
  back := fun i t ht => ⟨t, h.tasks.symm ▸ ht, rfl, rfl, rfl⟩
  log := fun r hr => Or.inl (h.log ▸ hr)

/-- A task goes on, and records in its window, if at all. -/
theorem SameWiring.set {i : ℕ} {t : PingTask} (ht : s.tasks[i]? = some t) (t' : PingTask)
    (hlink : t'.link = t.link) (hwindow : t'.window = t.window) (habort : t'.aborted = t.aborted)
    (hlinks : s'.links = s.links) (hwindows : s'.windows.length = s.windows.length)
    (htasks : s'.tasks = s.tasks.set i t')
    (hlog : ∀ r ∈ s'.log, r ∈ s.log ∨ (r.window, r.interface) = (t.window, t.link.interface)) :
    SameWiring s s' where
  links := hlinks
  windows := hwindows
  tasks := by
    intro k u hu
    rw [htasks, List.getElem?_set] at hu
    split at hu
    · rename_i hk
      subst hk
      split at hu
      · obtain rfl := Option.some.inj hu
        exact ⟨t, ht, hlink, hwindow, habort⟩
      · cases hu
    · exact ⟨u, hu, rfl, rfl, rfl⟩
  back := by
    intro k u hu
    rw [htasks]
    by_cases hk : i = k
    · subst hk
      obtain rfl := Option.some.inj (ht.symm.trans hu)
      have hlt := (List.getElem?_eq_some_iff.mp ht).1
      exact ⟨t', List.getElem?_set_self hlt, hlink, hwindow, habort⟩
    · exact ⟨u, by rw [List.getElem?_set_ne hk, hu], rfl, rfl, rfl⟩
  log := by
    intro r hr
    rcases hlog r hr with hr | hr
    · exact Or.inl hr
    · exact Or.inr (hr ▸ mem_uses_of_task ht)

variable [Field F] [LinearOrder F] {cfg : ProbeCfg F}

omit [LinearOrder F] in
theorem sameWiring_pingStep {i : ℕ} {t : PingTask} {phase : PingPhase} {e : ProbeEvent F}
    (ht : s.tasks[i]? = some t) (h : s.pingStep cfg i t phase e = some s') : SameWiring s s' := by
  have hrecord : ∀ r : Recorded F, (r.window, r.interface) = (t.window, t.link.interface) →
      SameWiring s ((s.recordIn r).setPhase i t .ticking) := by
    intro r hr
    refine .set ht { t with phase := .ticking } rfl rfl rfl rfl (List.length_modify _ _ _)
      rfl (fun x hx => ?_)
    rcases List.mem_append.mp hx with hx | hx
    · exact Or.inl hx
    · obtain rfl := List.mem_singleton.mp hx
      exact Or.inr hr
  have hsame : SameWiring s s := SamePings.sameWiring ⟨rfl, rfl, rfl, rfl, rfl⟩
  have hphase : ∀ phase, SameWiring s (s.setPhase i t phase) := fun phase =>
    .set ht { t with phase } rfl rfl rfl rfl rfl rfl (fun _ => Or.inl)
  have hdiscard : SameWiring s ((s.discard t.window).setPhase i t .ticking) :=
    .set ht { t with phase := .ticking } rfl rfl rfl rfl rfl rfl (fun _ => Or.inl)
  unfold pingStep at h
  split at h
  · split at h
    · split at h <;> obtain rfl := Option.some.inj h
      · exact hsame
      · exact hphase _
    · cases h
  · obtain rfl := Option.some.inj h
    rename_i checked deadline i ok sent_rt
    exact .set ht ⟨t.link, t.window, t.id, (t.seq + 1) % 2 ^ 16, t.aborted,
      if ok then .awaiting ⟨checked, deadline, s.now, sent_rt⟩ else .failed checked deadline⟩
      rfl rfl rfl rfl (List.length_modify _ _ _) rfl (fun _ => Or.inl)
  · obtain rfl := Option.some.inj h
    exact hrecord _ rfl
  · split at h
    · cases h
    · split at h
      · obtain rfl := Option.some.inj h
        split
        · exact hphase _
        · exact hsame
      · obtain rfl := Option.some.inj h
        exact hphase _
      · split at h
        · obtain rfl := Option.some.inj h
          exact hphase _
        · cases h
  · obtain rfl := Option.some.inj h
    split
    · exact hdiscard
    · exact hphase _
  · split at h <;> obtain rfl := Option.some.inj h
    · exact hrecord _ rfl
    · exact hrecord _ rfl
    · exact hdiscard
  · cases h

theorem Wired.step {e : ProbeEvent F} (h : s.Wired) (hs : s.step cfg e = some s') : s'.Wired := by
  rcases step_pings hs with hsame | ⟨links, rfl⟩ | ⟨i, t, ht, hping⟩
  · exact h.congr hsame.sameWiring
  · exact h.reconcile _ links
  · exact h.congr (sameWiring_pingStep ht hping)

theorem wired_of_run {n : ℕ} (h : Runs (Probing.step cfg) Always (init n) s) : s.Wired :=
  h.invariant (wired_init n) (fun _ _ _ hi _ hs => hi.step hs)

end Probing

/-- Two links, of which the second changes its address. -/
private def wireguard (iface : String) (peer_ll : Option Ipv6Addr) : DiscoveredLink :=
  ⟨⟨iface, "hub", none⟩, 1, 2, peer_ll, none⟩

private def twoLinks : Probing ℚ :=
  ((Probing.init 7).reconcile 60 [wireguard "wg0" none, wireguard "wg1" none]).reconcile 60
    [wireguard "wg0" none, wireguard "wg1" (some 3)]

private theorem twoLinks_run : Runs (Probing.step everySecond) Always (Probing.init 7) twoLinks :=
  Runs.of_exec [.reconcile [wireguard "wg0" none, wireguard "wg1" none],
    .reconcile [wireguard "wg0" none, wireguard "wg1" (some 3)]] rfl

end Mielofon
