import Mielofon.Tsdb.Window

namespace Mielofon

open Lib

/-!
# What a window means

`Tsdb::window` scans the ring backward once for each kind of measurement, with three horizons in
any order, and leaves a scan at the first sample beyond its own.  What the scans find is said here
without them: a measurement is the one of the greatest second that has it within its horizon.

* `Latest` — the sample of the greatest second that satisfies a predicate;
* `IsWindow` — a view, field by field, as a statement about a list of samples;
* `latest_iff_freshest` — a scan finds the latest sample;
* `window_iff` — the window of a link in any store.
-/

variable {F : Type*}

/-- `s` has the greatest second among the samples that satisfy `p`. -/
def Latest (samples : List (RawSample F)) (p : RawSample F → Prop) (s : RawSample F) : Prop :=
  s ∈ samples ∧ p s ∧ ∀ x ∈ samples, p x → x.ts ≤ s.ts

/-- `s` is within `age` of `now`.  The age of a sample dated after `now` is zero. -/
def Within (now age : ℕ) (s : RawSample F) : Prop := now - s.ts ≤ age

/-- `o` is the measurement `f` of the latest sample within `age` that has one. -/
def LatestValue (samples : List (RawSample F)) (now age : ℕ) (f : RawSample F → Option F)
    (o : Option F) : Prop :=
  ∀ y, o = some y ↔ ∃ s, Latest samples (fun x => Within now age x ∧ (f x).isSome) s ∧ f s = some y

/-- Whether a sample has a UDP rate or loss. -/
def HasUdp (s : RawSample F) : Prop := s.udp_mbps.isSome ∨ s.udp_loss_pct.isSome

/-- `v` is the window of the samples. -/
structure IsWindow (samples : List (RawSample F)) (spec : WindowSpec) (now : ℕ) (v : WindowView F) :
    Prop where
  /-- Some sample is within the carry age, and the newest of all stamps the view. -/
  newest : ∃ s, Latest samples (fun _ => True) s ∧ Within now spec.tcp_carry_secs s ∧
    v.ts = s.ts ∧ v.state = codeToState s.state ∧ v.util_mbps = s.util_mbps
  rtt : LatestValue samples now spec.always_fresh_secs RawSample.rtt_ms v.rtt_ms
  loss : LatestValue samples now spec.always_fresh_secs RawSample.loss_pct v.loss_pct
  jitter : LatestValue samples now spec.always_fresh_secs RawSample.jitter_ms v.jitter_ms
  tcp : LatestValue samples now spec.tcp_carry_secs RawSample.tcp_mbps v.tcp_mbps
  /-- The throughput is carried if the sample it is taken from is no longer fresh. -/
  carried : v.tcp_carried = true ↔
    ∃ s, Latest samples (fun x => Within now spec.tcp_carry_secs x ∧ x.tcp_mbps.isSome) s ∧
      ¬ Within now spec.tcp_fresh_secs s
  /-- The UDP leg is that of one sample. -/
  udp : ∀ s, Latest samples (fun x => Within now spec.tcp_carry_secs x ∧ HasUdp x) s →
    v.udp_mbps = s.udp_mbps ∧ v.udp_jitter_ms = s.udp_jitter_ms ∧ v.udp_loss_pct = s.udp_loss_pct
  noUdp : (∀ s ∈ samples, Within now spec.tcp_carry_secs s → ¬ HasUdp s) →
    v.udp_mbps = none ∧ v.udp_jitter_ms = none ∧ v.udp_loss_pct = none
  /-- The passive tier is not the window's. -/
  passive : v.mark_loss_pct = none ∧ v.mark_loss_s_pct = none ∧ v.mark_loss_l_pct = none ∧
    v.mark_rate_mbps = none ∧ v.regime = none ∧ v.implied_tcp_mbps = none

/-! ### A scan finds the latest sample -/

namespace Ring

variable {r : Ring F} {spec : WindowSpec} {now : ℕ} {s : RawSample F}

theorem latest_iff_freshest (spec : WindowSpec) (leg : Leg) (has : RawSample F → Prop)
    (hhas : ∀ x, leg.carriedBy x = true ↔ has x) :
    Latest r.samples (fun x => Within now (leg.horizon spec) x ∧ has x) s ↔
      r.freshest spec now leg = some s := by
  rw [freshest_eq_some_iff]
  unfold Latest NewestWith Within
  constructor
  · rintro ⟨hs, ⟨hwithin, hcarried⟩, hlast⟩
    refine ⟨⟨hs, (hhas s).mpr hcarried, fun x hx hlt => ?_⟩, hwithin⟩
    -- a newer sample is no older
    by_contra hcx
    rw [Bool.not_eq_false] at hcx
    have := hlast x hx ⟨by omega, (hhas x).mp hcx⟩
    omega
  · rintro ⟨⟨hs, hcarried, hlast⟩, hwithin⟩
    refine ⟨hs, ⟨hwithin, (hhas s).mp hcarried⟩, fun x hx ⟨_, hx'⟩ => ?_⟩
    by_contra hlt
    have hbare := hlast x hx (not_le.mp hlt)
    rw [(hhas x).mpr hx'] at hbare
    exact absurd hbare (by simp)

/-- What a scan takes is the latest value. -/
theorem latestValue_freshest (spec : WindowSpec) (leg : Leg) (f : RawSample F → Option F)
    (hf : ∀ x, leg.carriedBy x = (f x).isSome) :
    LatestValue r.samples now (leg.horizon spec) f ((r.freshest spec now leg).bind f) := by
  intro y
  rw [Option.bind_eq_some_iff]
  simp only [latest_iff_freshest spec leg (fun x => (f x).isSome) (fun x => by rw [hf x])]

theorem latest_udp_iff :
    Latest r.samples (fun x => Within now spec.tcp_carry_secs x ∧ HasUdp x) s ↔
      r.freshest spec now .udp = some s :=
  latest_iff_freshest spec .udp HasUdp (fun x => by simp [Leg.carriedBy, HasUdp])

theorem latest_iff_newest : Latest r.samples (fun _ => True) s ↔ r.Newest s := by
  unfold Latest Newest
  simp only [true_and, forall_const]

end Ring

/-! ### The window of a link -/

theorem LatestValue.unique {samples : List (RawSample F)} {now age : ℕ}
    {f : RawSample F → Option F} {o o' : Option F} (h : LatestValue samples now age f o)
    (h' : LatestValue samples now age f o') : o = o' := by
  ext y
  exact (h y).trans (h' y).symm

/-- The meaning leaves no choice. -/
theorem IsWindow.unique {r : Ring F} {spec : WindowSpec} {now : ℕ} {v v' : WindowView F}
    (h : IsWindow r.samples spec now v) (h' : IsWindow r.samples spec now v') : v = v' := by
  obtain ⟨s, hs, -, hts, hstate, hutil⟩ := h.newest
  obtain ⟨s', hs', -, hts', hstate', hutil'⟩ := h'.newest
  -- one second has one sample in a ring, so the newest is determined
  have hsame : s = s' := by
    have hnewest := Ring.latest_iff_newest.mp hs
    have hnewest' := Ring.latest_iff_newest.mp hs'
    have heq : s.ts = s'.ts := le_antisymm (hnewest'.2 s hnewest.1) (hnewest.2 s' hnewest'.1)
    exact Option.some.inj ((slot_of_mem r.ascending hnewest.1).symm.trans
      (heq ▸ slot_of_mem r.ascending hnewest'.1))
  have hcarried : v.tcp_carried = v'.tcp_carried := by
    rw [Bool.eq_iff_iff, h.carried, h'.carried]
  have hudp : v.udp_mbps = v'.udp_mbps ∧ v.udp_jitter_ms = v'.udp_jitter_ms ∧
      v.udp_loss_pct = v'.udp_loss_pct := by
    cases hfound : r.freshest spec now .udp with
    | some x =>
      have hx := Ring.latest_udp_iff.mpr hfound
      obtain ⟨hm, hj, hl⟩ := h.udp x hx
      obtain ⟨hm', hj', hl'⟩ := h'.udp x hx
      exact ⟨hm.trans hm'.symm, hj.trans hj'.symm, hl.trans hl'.symm⟩
    | none =>
      -- no scan hit: by `noUdp` both views have no UDP leg
      have hbare : ∀ s ∈ r.samples, Within now spec.tcp_carry_secs s → ¬ HasUdp s := by
        intro x hx hwithin hudp
        have hcarried : Leg.udp.carriedBy x = true := by simpa [Leg.carriedBy, HasUdp] using hudp
        have hage : now - x.ts ≤ Leg.udp.horizon spec := hwithin
        obtain ⟨y, hy, -⟩ := Ring.exists_freshest spec now hx hage hcarried
        rw [hfound] at hy
        exact absurd hy (by simp)
      obtain ⟨hm, hj, hl⟩ := h.noUdp hbare
      obtain ⟨hm', hj', hl'⟩ := h'.noUdp hbare
      exact ⟨hm.trans hm'.symm, hj.trans hj'.symm, hl.trans hl'.symm⟩
  obtain ⟨hp₁, hp₂, hp₃, hp₄, hp₅, hp₆⟩ := h.passive
  obtain ⟨hp₁', hp₂', hp₃', hp₄', hp₅', hp₆'⟩ := h'.passive
  have hrtt := h.rtt.unique h'.rtt
  have hloss := h.loss.unique h'.loss
  have hjitter := h.jitter.unique h'.jitter
  have htcp := h.tcp.unique h'.tcp
  cases v
  cases v'
  simp_all

/-- The view the scans make of a newest sample means the window. -/
theorem isWindow_viewOf [Zero F] {r : Ring F} {spec : WindowSpec} {now : ℕ} {newest : RawSample F}
    (hnewest : r.Newest newest) (hwithin : Within now spec.tcp_carry_secs newest) :
    IsWindow r.samples spec now (viewOf spec now newest (r.freshest spec now)) where
  newest := ⟨newest, Ring.latest_iff_newest.mpr hnewest, hwithin, rfl, rfl, rfl⟩
  rtt := Ring.latestValue_freshest spec .rtt RawSample.rtt_ms (fun _ => rfl)
  loss := Ring.latestValue_freshest spec .loss RawSample.loss_pct (fun _ => rfl)
  jitter := Ring.latestValue_freshest spec .jitter RawSample.jitter_ms (fun _ => rfl)
  tcp := Ring.latestValue_freshest spec .tcp RawSample.tcp_mbps (fun _ => rfl)
  carried := by
    show (r.freshest spec now .tcp).any (fun s => decide (spec.tcp_fresh_secs < now - s.ts)) = true ↔ _
    rw [Option.any_eq_true]
    simp only [decide_eq_true_eq, Within, not_le,
      ← Ring.latest_iff_freshest spec .tcp (fun x => x.tcp_mbps.isSome) (fun _ => Iff.rfl)]
    rfl
  udp s hs := by
    rw [Ring.latest_udp_iff] at hs
    simp only [viewOf, hs, Option.bind_some, and_self]
  noUdp hbare := by
    have hnone : r.freshest spec now .udp = none := by
      rw [Option.eq_none_iff_forall_ne_some]
      intro s hs
      obtain ⟨hmem, ⟨hage, hudp⟩, -⟩ := Ring.latest_udp_iff.mpr hs
      exact hbare s hmem hage hudp
    simp only [viewOf, hnone, Option.bind_none, and_self]
  passive := ⟨rfl, rfl, rfl, rfl, rfl, rfl⟩

/-- **The window**, for every ring of every store, every choice of horizons and every reading of
    the clock: there is none exactly when no sample is within the carry age, and the view is
    otherwise the one it means. -/
theorem window_iff [Zero F] (t : Tsdb F) (link : LinkKey) (spec : WindowSpec) (now : ℕ) :
    (t.window link spec now = none ↔
      ∀ s ∈ (t.ringOf link).samples, ¬ Within now spec.tcp_carry_secs s) ∧
    ∀ v, t.window link spec now = some v ↔ IsWindow (t.ringOf link).samples spec now v := by
  rw [Tsdb.window_eq, Ring.window_eq]
  constructor
  · simp only [Option.map_eq_none_iff, Ring.newestWithin_eq_none_iff, Within, not_le]
  · intro v
    rw [Option.map_eq_some_iff]
    constructor
    · rintro ⟨newest, hnewest, rfl⟩
      obtain ⟨hlast, hwithin⟩ := Ring.newestWithin_eq_some_iff.mp hnewest
      exact isWindow_viewOf hlast hwithin
    · intro h
      obtain ⟨newest, hlatest, hwithin, -⟩ := h.newest
      have hlast := Ring.latest_iff_newest.mp hlatest
      exact ⟨newest, Ring.newestWithin_eq_some_iff.mpr ⟨hlast, hwithin⟩,
        (isWindow_viewOf hlast hwithin).unique h⟩

end Mielofon
