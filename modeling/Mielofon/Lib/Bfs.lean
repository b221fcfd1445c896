import Mathlib.Data.Finset.Union
import Mathlib.Data.Finset.Card
import Mathlib.Data.List.Nodup
import Mathlib.Data.Nat.Find
import Mathlib.Order.Basic

namespace Lib

/-!
# Loops, and breadth-first search

A loop is a step function run until it has nothing more to do.  The search is such a loop: it
takes nodes off a queue in the order they were found, and queues the neighbours it sees for the
first time; from depth `cap` on it does not look any further.

* `loop`, `loop_of_decreasing`, `loop_invariant`, `loop_sim` — a loop, its rules of total and of
  partial correctness, and that a loop with the same steps has the same outcome;
* `PathOf`, `IsDist` — paths of a length, and the length of the shortest ones;
* `Search`, `Search.step` — the search;
* `Search.Valid` — its invariant: what is queued and done comes in the order of its distance, and
  whatever is nearer than the queue was seen;
* `search_spec` — the search ends, and has done each node within `cap` once, at its distance.
-/

/-! ### Loops -/

section Loop

variable {σ τ : Type*}

/-- Run `step` until it has nothing more to do; `none` if it takes more than `fuel` steps. -/
def loop (step : σ → Option σ) : ℕ → σ → Option σ
  | 0, _ => none
  | fuel + 1, s =>
    match step s with
    | none => some s
    | some s' => loop step fuel s'

/-- **Total correctness.** A loop whose steps keep `I` and decrease `μ` ends, in a state with `I`
    in which there is nothing more to do. -/
theorem loop_of_decreasing {step : σ → Option σ} (I : σ → Prop) (μ : σ → ℕ)
    (hstep : ∀ s s', I s → step s = some s' → I s' ∧ μ s' < μ s) (fuel : ℕ) :
    ∀ s, I s → μ s < fuel → ∃ r, loop step fuel s = some r ∧ I r ∧ step r = none := by
  induction fuel with
  | zero => exact fun s _ hlt => absurd hlt (Nat.not_lt_zero _)
  | succ fuel ih =>
    intro s hs hlt
    rw [loop]
    cases hnext : step s with
    | none => exact ⟨s, rfl, hs, hnext⟩
    | some s' =>
      obtain ⟨hs', hdec⟩ := hstep s s' hs hnext
      exact ih s' hs' (by omega)

/-- **Partial correctness.** What every step keeps holds when the loop ends. -/
theorem loop_invariant {step : σ → Option σ} (I : σ → Prop)
    (hstep : ∀ s s', I s → step s = some s' → I s') (fuel : ℕ) :
    ∀ s r, I s → loop step fuel s = some r → I r := by
  induction fuel with
  | zero => exact fun s r _ h => absurd h (by simp [loop])
  | succ fuel ih =>
    intro s r hs h
    rw [loop] at h
    cases hnext : step s with
    | none =>
      rw [hnext] at h
      exact Option.some.inj h ▸ hs
    | some s' =>
      rw [hnext] at h
      exact ih s' r (hstep s s' hs hnext) h

/-- **Simulation.** A loop that takes the same steps up to `R` ends when the other does, in a state
    related to its outcome. -/
theorem loop_sim {step : σ → Option σ} {step' : τ → Option τ} (R : σ → τ → Prop)
    (hend : ∀ s t, R s t → step' t = none → step s = none)
    (hstep : ∀ s t t', R s t → step' t = some t' → ∃ s', step s = some s' ∧ R s' t') (fuel : ℕ) :
    ∀ s t r, R s t → loop step' fuel t = some r → ∃ q, loop step fuel s = some q ∧ R q r := by
  induction fuel with
  | zero => exact fun s t r _ h => absurd h (by simp [loop])
  | succ fuel ih =>
    intro s t r hR h
    rw [loop] at h ⊢
    cases hnext : step' t with
    | none =>
      rw [hnext] at h
      obtain rfl := Option.some.inj h
      rw [hend s t hR hnext]
      exact ⟨s, rfl, hR⟩
    | some t' =>
      rw [hnext] at h
      obtain ⟨s', hs', hR'⟩ := hstep s t t' hR hnext
      rw [hs']
      exact ih s' t' r hR' h

end Loop

variable {α : Type*}

/-! ### Distances -/

section Dist

variable {R : α → α → Prop} {s u v : α} {m n : ℕ}

/-- There is a path of `n` steps from `s`. -/
def PathOf (R : α → α → Prop) (s : α) : ℕ → α → Prop
  | 0, v => v = s
  | n + 1, v => ∃ u, PathOf R s n u ∧ R u v

/-- The shortest paths from `s` to `v` have `n` steps. -/
def IsDist (R : α → α → Prop) (s v : α) (n : ℕ) : Prop :=
  PathOf R s n v ∧ ∀ m < n, ¬ PathOf R s m v

theorem isDist_self (R : α → α → Prop) (s : α) : IsDist R s s 0 :=
  ⟨rfl, fun m hm => absurd hm (Nat.not_lt_zero m)⟩

theorem IsDist.le (h : IsDist R s v n) (hpath : PathOf R s m v) : n ≤ m := by
  by_contra hlt
  exact h.2 m (by omega) hpath

theorem IsDist.unique (h : IsDist R s v m) (h' : IsDist R s v n) : m = n :=
  le_antisymm (h.le h'.1) (h'.le h.1)

/-- Where there is a path there is a shortest one. -/
theorem PathOf.exists_dist (h : PathOf R s n v) : ∃ m ≤ n, IsDist R s v m := by
  classical
  have hex : ∃ m, PathOf R s m v := ⟨n, h⟩
  exact ⟨Nat.find hex, Nat.find_min' hex h, Nat.find_spec hex, fun m hm => Nat.find_min hex hm⟩

end Dist

/-! ### The search -/

/-- What was taken off the queue, in that order, the queue, and every node that was ever queued.
    Nodes come with their depth. -/
structure Search (α : Type*) where
  done : List (α × ℕ)
  queue : List (α × ℕ)
  seen : Finset α

namespace Search

variable [DecidableEq α]

/-- Queue a node that was not seen. -/
def add (d : ℕ) (t : Search α) (v : α) : Search α :=
  if v ∈ t.seen then t else { t with queue := t.queue ++ [(v, d)], seen := insert v t.seen }

/-- Take a node off the queue, and queue its neighbours. -/
def step (next : α → List α) (cap : ℕ) (t : Search α) : Option (Search α) :=
  match t.queue with
  | [] => none
  | (u, d) :: rest =>
    let t := { t with done := t.done ++ [(u, d)], queue := rest }
    some (if cap ≤ d then t else (next u).foldl (add (d + 1)) t)

/-- The source is queued. -/
def start (s : α) : Search α := ⟨[], [(s, 0)], {s}⟩

/-- Everything that was queued. -/
def all (t : Search α) : List (α × ℕ) := t.done ++ t.queue

/-- What holds of the queued nodes at any moment of a step. -/
structure Sound (R : α → α → Prop) (s : α) (cap : ℕ) (t : Search α) : Prop where
  dist : ∀ p ∈ t.all, IsDist R s p.1 p.2
  seen : ∀ v, v ∈ t.seen ↔ v ∈ t.all.map Prod.fst
  nodup : (t.all.map Prod.fst).Nodup
  sorted : t.all.Pairwise (fun p q => p.2 ≤ q.2)
  capped : ∀ p ∈ t.all, p.2 ≤ cap
  source : s ∈ t.seen

/-- The invariant between steps. -/
structure Valid (R : α → α → Prop) (s : α) (cap : ℕ) (t : Search α) : Prop extends
    Sound R s cap t where
  /-- A queued node is the source, or was found from one that is done. -/
  found : ∀ q ∈ t.queue, q.2 = 0 ∨ ∃ p ∈ t.done, q.2 = p.2 + 1
  /-- The neighbours of what is done were seen. -/
  expanded : ∀ p ∈ t.done, p.2 < cap → ∀ v, R p.1 v → v ∈ t.seen

variable {R : α → α → Prop} {s u v : α} {cap d : ℕ} {t t' : Search α}

omit [DecidableEq α] in
theorem valid_start (R : α → α → Prop) (s : α) (cap : ℕ) : Valid R s cap (start s) where
  dist p hp := by
    obtain rfl := List.mem_singleton.mp hp
    exact isDist_self R s
  seen v := by simp [start, all]
  nodup := List.nodup_singleton _
  sorted := List.pairwise_singleton _ _
  capped p hp := by
    obtain rfl := List.mem_singleton.mp hp
    exact Nat.zero_le _
  source := Finset.mem_singleton_self s
  found q hq := by
    obtain rfl := List.mem_singleton.mp hq
    exact Or.inl rfl
  expanded p hp := absurd hp List.not_mem_nil

/-- Whatever is as near as the queue was seen. -/
theorem Valid.seen_of_path (h : Valid R s cap t) (hcap : d ≤ cap) (hqueue : ∀ q ∈ t.queue, d ≤ q.2) :
    ∀ k ≤ d, ∀ v, PathOf R s k v → v ∈ t.seen := by
  intro k
  induction k with
  | zero =>
    rintro - v rfl
    exact h.source
  | succ k ih =>
    rintro hk v ⟨w, hw, hR⟩
    obtain ⟨⟨w, e⟩, hmem, rfl⟩ := List.mem_map.mp ((h.seen w).mp (ih (by omega) w hw))
    have he : e ≤ k := (h.dist _ hmem).le hw
    rcases List.mem_append.mp hmem with hdone | hq
    · exact h.expanded _ hdone (by dsimp only; omega) v hR
    · -- the queue is farther away
      have := hqueue _ hq
      dsimp only at this
      omega

/-- A node that is queued now is one step farther than what was taken off. -/
theorem Sound.add (h : Sound R s cap t) (hcap : d + 1 ≤ cap) (hle : ∀ q ∈ t.all, q.2 ≤ d + 1)
    (hu : IsDist R s u d) (hR : R u v) (hnear : ∀ k ≤ d, ∀ w, PathOf R s k w → w ∈ t.seen) :
    Sound R s cap (t.add (d + 1) v) ∧ ∀ q ∈ (t.add (d + 1) v).all, q.2 ≤ d + 1 := by
  unfold Search.add
  split
  · exact ⟨h, hle⟩
  · rename_i hnew
    have hall : ({ t with queue := t.queue ++ [(v, d + 1)], seen := insert v t.seen } : Search α).all =
        t.all ++ [(v, d + 1)] := (List.append_assoc _ _ _).symm
    -- a shorter path would have its end among the nodes seen
    have hdist : IsDist R s v (d + 1) :=
      ⟨⟨u, hu.1, hR⟩, fun m hm hpath => hnew (hnear m (by omega) v hpath)⟩
    refine ⟨⟨fun p hp => ?_, fun w => ?_, ?_, ?_, fun p hp => ?_, ?_⟩, fun q hq => ?_⟩
    · rw [hall] at hp
      rcases List.mem_append.mp hp with hp | hp
      · exact h.dist p hp
      · obtain rfl := List.mem_singleton.mp hp
        exact hdist
    · rw [hall, List.map_append, List.mem_append, ← h.seen w]
      simp only [Finset.mem_insert, List.map_cons, List.map_nil, List.mem_singleton]
      exact or_comm
    · rw [hall, List.map_append]
      refine List.nodup_append.mpr ⟨h.nodup, List.nodup_singleton _, fun a ha b hb heq => ?_⟩
      obtain rfl := List.mem_singleton.mp hb
      exact hnew ((h.seen _).mpr (heq ▸ ha))
    · rw [hall]
      refine List.pairwise_append.mpr ⟨h.sorted, List.pairwise_singleton _ _, fun p hp q hq => ?_⟩
      obtain rfl := List.mem_singleton.mp hq
      exact hle p hp
    · rw [hall] at hp
      rcases List.mem_append.mp hp with hp | hp
      · exact h.capped p hp
      · obtain rfl := List.mem_singleton.mp hp
        exact hcap
    · exact Finset.mem_insert_of_mem h.source
    · rw [hall] at hq
      rcases List.mem_append.mp hq with hq | hq
      · exact hle q hq
      · obtain rfl := List.mem_singleton.mp hq
        exact le_refl _

theorem seen_subset_add (d : ℕ) (t : Search α) (v : α) : t.seen ⊆ (t.add d v).seen := by
  unfold add
  split
  · exact Finset.Subset.refl _
  · exact Finset.subset_insert _ _

theorem mem_seen_add (d : ℕ) (t : Search α) (v : α) : v ∈ (t.add d v).seen := by
  unfold add
  split
  · assumption
  · exact Finset.mem_insert_self _ _

theorem done_add (d : ℕ) (t : Search α) (v : α) : (t.add d v).done = t.done := by
  unfold add
  split <;> rfl

theorem done_addAll (d : ℕ) (t : Search α) (vs : List α) : (vs.foldl (add d) t).done = t.done := by
  induction vs generalizing t with
  | nil => rfl
  | cons v vs ih => rw [List.foldl_cons, ih, done_add]

/-- What a queued node adds to the queue is at its depth. -/
theorem mem_queue_add {q : α × ℕ} (h : q ∈ (t.add d v).queue) : q ∈ t.queue ∨ q.2 = d := by
  unfold add at h
  split at h
  · exact Or.inl h
  · rcases List.mem_append.mp h with h | h
    · exact Or.inl h
    · obtain rfl := List.mem_singleton.mp h
      exact Or.inr rfl

/-- All neighbours of what was taken off are queued. -/
theorem Sound.addAll (vs : List α) : ∀ t : Search α, Sound R s cap t → d + 1 ≤ cap →
    (∀ q ∈ t.all, q.2 ≤ d + 1) → IsDist R s u d → (∀ v ∈ vs, R u v) →
    (∀ k ≤ d, ∀ w, PathOf R s k w → w ∈ t.seen) →
    Sound R s cap (vs.foldl (Search.add (d + 1)) t) ∧
      t.seen ⊆ (vs.foldl (Search.add (d + 1)) t).seen ∧
      (∀ v ∈ vs, v ∈ (vs.foldl (Search.add (d + 1)) t).seen) ∧
      ∀ q ∈ (vs.foldl (Search.add (d + 1)) t).queue, q ∈ t.queue ∨ q.2 = d + 1 := by
  induction vs with
  | nil =>
    exact fun t h _ _ _ _ _ => ⟨h, Finset.Subset.refl _, fun v hv => absurd hv List.not_mem_nil,
      fun q hq => Or.inl hq⟩
  | cons v vs ih =>
    intro t h hcap hle hu hR hnear
    obtain ⟨hsound, hle'⟩ := h.add hcap hle hu (hR v List.mem_cons_self) hnear
    have hsub := seen_subset_add (d + 1) t v
    obtain ⟨hfinal, hgrow, hmem, hqueue⟩ := ih (t.add (d + 1) v) hsound hcap hle' hu
      (fun w hw => hR w (List.mem_cons_of_mem _ hw)) fun k hk w hw => hsub (hnear k hk w hw)
    refine ⟨hfinal, hsub.trans hgrow, fun w hw => ?_, fun q hq => ?_⟩
    · rcases List.mem_cons.mp hw with rfl | hw
      · exact hgrow (mem_seen_add _ t w)
      · exact hmem w hw
    · rcases hqueue q hq with hq | hq
      · exact mem_queue_add hq
      · exact Or.inr hq

variable {next : α → List α}

/-- **Step lemma.** A step keeps the invariant, and has done one node more. -/
theorem Valid.step (hnext : ∀ u v, v ∈ next u ↔ R u v) (h : Valid R s cap t)
    (hs : t.step next cap = some t') : Valid R s cap t' ∧ t'.done.length = t.done.length + 1 := by
  unfold Search.step at hs
  cases hq : t.queue with
  | nil =>
    rw [hq] at hs
    exact absurd hs (by simp)
  | cons p rest =>
    obtain ⟨u, d⟩ := p
    rw [hq] at hs
    dsimp only at hs
    obtain rfl := Option.some.inj hs
    let t₁ : Search α := { t with done := t.done ++ [(u, d)], queue := rest }
    have hall : t₁.all = t.all := by
      unfold all
      rw [hq]
      exact List.append_assoc _ _ _
    have hsound : Sound R s cap t₁ :=
      ⟨hall ▸ h.dist, hall ▸ h.seen, hall ▸ h.nodup, hall ▸ h.sorted, hall ▸ h.capped, h.source⟩
    have hmem : (u, d) ∈ t.all := List.mem_append_right _ (hq ▸ List.mem_cons_self)
    -- the queue is sorted, and no farther than one step from what is done
    have hsorted := (List.pairwise_append.mp h.sorted)
    have hfirst : ∀ q ∈ t.queue, d ≤ q.2 := by
      intro q hmem
      rw [hq] at hmem
      rcases List.mem_cons.mp hmem with rfl | hmem
      · exact le_refl _
      · have hpair := hsorted.2.1
        rw [hq] at hpair
        exact (List.pairwise_cons.mp hpair).1 q hmem
    have hdone : ∀ p ∈ t.done, p.2 ≤ d := fun p hp => hsorted.2.2 p hp (u, d) (hq ▸ List.mem_cons_self)
    have hle : ∀ q ∈ t.all, q.2 ≤ d + 1 := by
      intro q hmem
      rcases List.mem_append.mp hmem with hp | hqueue
      · have := hdone q hp
        omega
      · rcases h.found q hqueue with hzero | ⟨p, hp, heq⟩
        · omega
        · have := hdone p hp
          omega
    have hfound : ∀ q ∈ rest, q.2 = 0 ∨ ∃ p ∈ t₁.done, q.2 = p.2 + 1 := fun q hmem =>
      (h.found q (hq ▸ List.mem_cons_of_mem _ hmem)).imp_right
        fun ⟨p, hp, heq⟩ => ⟨p, List.mem_append_left _ hp, heq⟩
    have hlen : t₁.done.length = t.done.length + 1 := List.length_append
    split
    · -- at the cap nothing is queued
      rename_i hcap
      refine ⟨⟨hsound, hfound, fun p hp hlt => ?_⟩, hlen⟩
      rcases List.mem_append.mp hp with hp | hp
      · exact h.expanded p hp hlt
      · obtain rfl := List.mem_singleton.mp hp
        exact absurd hcap (not_le.mpr hlt)
    · rename_i hcap
      have hcap' : d + 1 ≤ cap := by omega
      have hnear := h.seen_of_path (d := d) (by omega) hfirst
      obtain ⟨hfinal, hgrow, hadded, hqueue⟩ := Sound.addAll (next u) t₁ hsound hcap'
        (hall ▸ hle) (h.dist _ hmem) (fun v hv => (hnext u v).mp hv) hnear
      have hdone' := done_addAll (d + 1) t₁ (next u)
      refine ⟨⟨hfinal, fun q hmem => ?_, fun p hp hlt v hv => ?_⟩, hdone' ▸ hlen⟩
      · rw [hdone']
        rcases hqueue q hmem with hold | heq
        · exact hfound q hold
        · exact Or.inr ⟨(u, d), List.mem_append_right _ (List.mem_singleton_self _), heq⟩
      · rw [hdone'] at hp
        rcases List.mem_append.mp hp with hp | hp
        · exact hgrow (h.expanded p hp hlt v hv)
        · obtain rfl := List.mem_singleton.mp hp
          exact hadded v ((hnext u v).mpr hv)

/-! ### The outcome -/

/-- Every node with a path of at most `n` steps is in the ball. -/
def ball (next : α → List α) (s : α) : ℕ → Finset α
  | 0 => {s}
  | n + 1 => ball next s n ∪ (ball next s n).biUnion (fun u => (next u).toFinset)

theorem mem_ball {n m : ℕ} (hnext : ∀ u v, v ∈ next u ↔ R u v) (hle : m ≤ n)
    (h : PathOf R s m v) : v ∈ ball next s n := by
  induction n generalizing m v with
  | zero =>
    obtain rfl : m = 0 := by omega
    exact Finset.mem_singleton.mpr h
  | succ n ih =>
    rcases Nat.lt_or_ge m (n + 1) with hlt | hge
    · exact Finset.mem_union_left _ (ih (by omega) h)
    · obtain rfl : m = n + 1 := by omega
      obtain ⟨u, hu, hR⟩ := h
      exact Finset.mem_union_right _ (Finset.mem_biUnion.mpr
        ⟨u, ih le_rfl hu, List.mem_toFinset.mpr ((hnext u v).mpr hR)⟩)

/-- No more nodes are done than there are within the cap. -/
theorem Valid.length_done_le (hnext : ∀ u v, v ∈ next u ↔ R u v) (h : Valid R s cap t) :
    t.done.length ≤ (ball next s cap).card := by
  have hnodup : (t.done.map Prod.fst).Nodup := by
    have hall := h.nodup
    rw [all, List.map_append] at hall
    exact hall.of_append_left
  calc t.done.length = (t.done.map Prod.fst).toFinset.card := by
        rw [List.toFinset_card_of_nodup hnodup, List.length_map]
    _ ≤ (ball next s cap).card := Finset.card_le_card fun v hv => by
        obtain ⟨p, hp, rfl⟩ := List.mem_map.mp (List.mem_toFinset.mp hv)
        have hmem : p ∈ t.all := List.mem_append_left _ hp
        exact mem_ball hnext (h.capped p hmem) (h.dist p hmem).1

/-- When the queue is empty, each node within the cap is done, at its distance. -/
theorem Valid.mem_done_iff (h : Valid R s cap t) (hq : t.queue = []) :
    (v, d) ∈ t.done ↔ IsDist R s v d ∧ d ≤ cap := by
  have hall : t.all = t.done := by rw [all, hq, List.append_nil]
  constructor
  · intro hmem
    rw [← hall] at hmem
    exact ⟨h.dist _ hmem, h.capped _ hmem⟩
  · rintro ⟨hdist, hcap⟩
    have hseen := h.seen_of_path le_rfl (by simp [hq]) d hcap v hdist.1
    obtain ⟨⟨w, e⟩, hmem, rfl⟩ := List.mem_map.mp ((h.seen v).mp hseen)
    obtain rfl := (h.dist _ hmem).unique hdist
    exact hall ▸ hmem

end Search

/-- With more rounds than there are nodes within the cap, the search ends. -/
theorem search_of_lt [DecidableEq α] {R : α → α → Prop} {next : α → List α}
    (hnext : ∀ u v, v ∈ next u ↔ R u v) (s : α) (cap : ℕ) {fuel : ℕ}
    (hfuel : (Search.ball next s cap).card < fuel) :
    ∃ t, loop (Search.step next cap) fuel (Search.start s) = some t ∧
      t.queue = [] ∧ (t.done.map Prod.fst).Nodup ∧ t.done.Pairwise (fun p q => p.2 ≤ q.2) ∧
      ∀ v d, (v, d) ∈ t.done ↔ IsDist R s v d ∧ d ≤ cap := by
  obtain ⟨t, hloop, hvalid, hend⟩ := loop_of_decreasing
    (Search.Valid R s cap) (fun t => (Search.ball next s cap).card - t.done.length)
    (fun t t' ht hs => by
      obtain ⟨ht', hlen⟩ := ht.step hnext hs
      have := ht'.length_done_le hnext
      exact ⟨ht', by omega⟩)
    fuel (Search.start s) (Search.valid_start R s cap) (lt_of_le_of_lt (Nat.sub_le _ _) hfuel)
  have hq : t.queue = [] := by
    unfold Search.step at hend
    split at hend
    · assumption
    · exact absurd hend (by simp)
  have hall : t.all = t.done := by rw [Search.all, hq, List.append_nil]
  exact ⟨t, hloop, hq, hall ▸ hvalid.nodup, hall ▸ hvalid.sorted, fun v d => hvalid.mem_done_iff hq⟩

/-- **Breadth-first search** ends, and has done each node within the cap once, in the order of their
    distances. -/
theorem search_spec [DecidableEq α] {R : α → α → Prop} {next : α → List α}
    (hnext : ∀ u v, v ∈ next u ↔ R u v) (s : α) (cap : ℕ) :
    ∃ n, ∀ fuel, n < fuel → ∃ t, loop (Search.step next cap) fuel (Search.start s) = some t ∧
      t.queue = [] ∧ (t.done.map Prod.fst).Nodup ∧ t.done.Pairwise (fun p q => p.2 ≤ q.2) ∧
      ∀ v d, (v, d) ∈ t.done ↔ IsDist R s v d ∧ d ≤ cap :=
  ⟨(Search.ball next s cap).card, fun _ hfuel => search_of_lt hnext s cap hfuel⟩

end Lib
