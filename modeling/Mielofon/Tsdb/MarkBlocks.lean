import Mathlib
import Mielofon.Tsdb.Redelivery
import Mielofon.Tsdb.Window

namespace Mielofon

open Lib

/-!
# Marking blocks and the window

Marking blocks share the ring of a link with its probe reports.  They state none of the
measurements of a window, but the newest sample of the ring gives the window its state and
utilisation whatever kind it is, and every block takes a place in a bounded ring.

* `RawSample.Alike`, `RawSample.Bare` — equal in all a probe measures; stating none of it;
* `StoreEvent`, `Tsdb.replay` — a history of ingests and prunes;
* `Ring.Beside` — the samples of a ring, with bare ones added and some dropped;
* `SameProbeWindow` — two windows that agree on everything but their time, and on the
  classifier's busy hold;
* `Ring.Undisturbed` — the blocks neither overtake a newest sample that says something nor
  push out a sample the window reads;
* `sameProbeWindow_iff` — the window stays the same exactly under this;
* `block_releases_busy` — a block that ends the hold of a busy link.
-/

variable {F : Type*}

/-! ### What a probe measures -/

/-- The dimensions a probe measures, as opposed to those joined from marking blocks. -/
def Dim.probed : Dim → Bool
  | .mark_loss | .mark_rate => false
  | _ => true

namespace RawSample

/-- Equal in utilisation, state and every dimension a probe measures. -/
structure Alike (a b : RawSample F) : Prop where
  util : a.util_mbps = b.util_mbps
  state : a.state = b.state
  dim : ∀ d : Dim, d.probed = true → a.dim d = b.dim d

/-- Stating nothing that a probe measures. -/
def Bare [Zero F] (s : RawSample F) : Prop := s.Alike default

variable {a b c : RawSample F}

theorem Alike.refl (a : RawSample F) : Alike a a := ⟨rfl, rfl, fun _ _ => rfl⟩

theorem Alike.symm (h : Alike a b) : Alike b a :=
  ⟨h.util.symm, h.state.symm, fun d hd => (h.dim d hd).symm⟩

theorem Alike.trans (h : Alike a b) (h' : Alike b c) : Alike a c :=
  ⟨h.util.trans h'.util, h.state.trans h'.state, fun d hd => (h.dim d hd).trans (h'.dim d hd)⟩

/-- Alike samples have the same legs. -/
theorem Alike.carriedBy (h : Alike a b) (leg : Leg) : leg.carriedBy a = leg.carriedBy b := by
  have hdim : ∀ d : Dim, d.probed = true → (a.dim d).isSome = (b.dim d).isSome :=
    fun d hd => congrArg Option.isSome (h.dim d hd)
  cases leg with
  | rtt => exact hdim .rtt rfl
  | loss => exact hdim .loss rfl
  | jitter => exact hdim .jitter rfl
  | tcp => exact hdim .tcp rfl
  | udp => exact congrArg₂ or (hdim .udp rfl) (hdim .udp_loss rfl)

variable [Zero F]

theorem Bare.alike (h : a.Bare) (h' : b.Bare) : Alike a b := Alike.trans h (Alike.symm h')

theorem Bare.of_alike (h : a.Bare) (h' : Alike a b) : b.Bare := h'.symm.trans h

theorem Bare.carriedBy (h : a.Bare) (leg : Leg) : leg.carriedBy a = false := by
  have hdefault : leg.carriedBy (default : RawSample F) = false := by cases leg <;> rfl
  rw [Alike.carriedBy h leg, hdefault]

/-- A block sample is bare. -/
theorem bare_fromBlock {block : MarkBlock} {s : RawSample F} (h : fromBlock block = some s) :
    s.Bare := by
  unfold fromBlock at h
  split at h
  · exact absurd h (by simp)
  · obtain rfl := Option.some.inj h
    exact ⟨rfl, rfl, fun d _ => by cases d <;> rfl⟩

/-- A joined block result is bare. -/
theorem bare_blockResult (ts : ℕ) (loss_pct rate_mbps : F) : (blockResult ts loss_pct rate_mbps).Bare :=
  ⟨rfl, rfl, fun d hd => by cases d <;> first | rfl | exact absurd hd (by decide)⟩

/-- The merge of two bare samples is bare. -/
theorem Bare.mergedWith [LinearOrder F] (h : a.Bare) (h' : b.Bare) : (a.mergedWith b).Bare := by
  refine ⟨?_, ?_, fun d hd => ?_⟩
  · rw [mergedWith_util, Alike.util h, Alike.util h', max_self]
  · rw [mergedWith_state, Alike.state h, Alike.state h', max_self]
  · have hnone : (default : RawSample F).dim d = none := by cases d <;> rfl
    rw [mergedWith_dim, Alike.dim h d hd, Alike.dim h' d hd, hnone]
    rfl

/-- A sample built from a marking block: the counters of one end, or the joined result. -/
def Marking (s : RawSample F) : Prop :=
  (∃ block, fromBlock block = some s) ∨ ∃ ts loss_pct rate_mbps, s = blockResult ts loss_pct rate_mbps

theorem Marking.bare {s : RawSample F} (h : s.Marking) : s.Bare := by
  rcases h with ⟨block, h⟩ | ⟨ts, loss_pct, rate_mbps, rfl⟩
  · exact bare_fromBlock h
  · exact bare_blockResult ts loss_pct rate_mbps

end RawSample

/-! ### Histories of a store -/

/-- What happens to the samples of a store while it runs. -/
inductive StoreEvent (F : Type*) where
  | ingest (link : LinkKey) (s : RawSample F) (persist : Bool)
  | prune (now : ℕ)

namespace Tsdb

variable [LinearOrder F] [Zero F] [Add F]

/-- The store after an event. -/
def handle (t : Tsdb F) : StoreEvent F → Tsdb F
  | .ingest link s persist => (t.ingest link s persist).1
  | .prune now => t.prune now

/-- The store after a history. -/
def replay (t : Tsdb F) (es : List (StoreEvent F)) : Tsdb F := es.foldl handle t

theorem replay_concat (t : Tsdb F) (es : List (StoreEvent F)) (e : StoreEvent F) :
    t.replay (es ++ [e]) = (t.replay es).handle e := by
  rw [replay, List.foldl_concat]
  rfl

theorem cfg_replay (t : Tsdb F) (es : List (StoreEvent F)) : (t.replay es).cfg = t.cfg := by
  induction es using List.reverseRecOn with
  | nil => rfl
  | append_singleton es e ih =>
    rw [replay_concat, ← ih]
    cases e with
    | ingest link s persist => exact cfg_ingest _ link s persist
    | prune now => rfl

/-- What the ring of a link holds of a second is bare, if all it was given for it was. -/
theorem bare_replay {t : Tsdb F} {link : LinkKey} {ts : ℕ} {es : List (StoreEvent F)}
    (hes : ∀ s persist, .ingest link s persist ∈ es → s.ts = ts → s.Bare)
    (hbare : ∀ x, (t.ringOf link).sampleAt ts = some x → x.Bare) {x : RawSample F}
    (hx : ((t.replay es).ringOf link).sampleAt ts = some x) : x.Bare := by
  induction es generalizing t with
  | nil => exact hbare x hx
  | cons e es ih =>
    refine ih (fun s persist hs => hes s persist (List.mem_cons_of_mem _ hs)) (fun y hy => ?_) hx
    cases e with
    | ingest l s persist =>
      rw [handle, ringOf_ingest] at hy
      split at hy
      · rename_i hl
        subst hl
        rcases (Ring.offer_spec _ s).held hy with hy | ⟨hts, rfl | ⟨held, hheld, rfl⟩⟩
        · exact hbare y hy
        · exact hes y persist List.mem_cons_self hts.symm
        · exact (hbare held hheld).mergedWith (hes s persist List.mem_cons_self hts.symm)
      · exact hbare y hy
    | prune now =>
      rw [handle, ringOf_prune, Ring.sampleAt_prune] at hy
      split at hy
      · exact absurd hy (by simp)
      · exact hbare y hy

end Tsdb

/-! ### A ring beside one with fewer samples -/

section Beside

variable [Zero F]

/-- Every sample of `r'` is alike one of `r`, or bare at a second `r` does not hold. -/
def Ring.Beside (r r' : Ring F) : Prop :=
  ∀ ts y, r'.sampleAt ts = some y →
    (∃ x, r.sampleAt ts = some x ∧ x.Alike y) ∨ (r.sampleAt ts = none ∧ y.Bare)

/-- Bare samples offered where the ring holds none but bare ones leave it beside itself. -/
theorem Ring.beside_offers [LinearOrder F] {r r' : Ring F} {blocks : List (RawSample F)}
    (hblocks : ∀ b ∈ blocks, b.Bare) (hfree : ∀ b ∈ blocks, ∀ x, r.sampleAt b.ts = some x → x.Bare)
    (h : r.Beside r') : r.Beside (r'.offers blocks) := by
  induction blocks generalizing r' with
  | nil => exact h
  | cons b blocks ih =>
    refine ih (fun c hc => hblocks c (List.mem_cons_of_mem _ hc))
      (fun c hc => hfree c (List.mem_cons_of_mem _ hc)) (fun ts y hy => ?_)
    rcases (Ring.offer_spec r' b).held hy with hy | ⟨rfl, hnew⟩
    · exact h ts y hy
    · -- at the second of the block both rings hold bare samples only
      have hself := hfree b List.mem_cons_self
      have hb := hblocks b List.mem_cons_self
      have hbare : y.Bare := by
        rcases hnew with rfl | ⟨held, hheld, rfl⟩
        · exact hb
        · refine RawSample.Bare.mergedWith ?_ hb
          rcases h b.ts held hheld with ⟨x, hx, halike⟩ | ⟨_, hheld⟩
          · exact (hself x hx).of_alike halike
          · exact hheld
      cases hx : r.sampleAt b.ts with
      | none => exact Or.inr ⟨rfl, hbare⟩
      | some x => exact Or.inl ⟨x, rfl, (hself x hx).alike hbare⟩

theorem Ring.Beside.refl (r : Ring F) : r.Beside r :=
  fun _ y hy => Or.inl ⟨y, hy, .refl y⟩

end Beside

/-! ### Two windows compared -/

/-- The view without its time. -/
def WindowView.untimed (view : WindowView F) : WindowView F := { view with ts := 0 }

/-- Both present or both absent, with equal state, utilisation and measurements, and with the
    same busy hold. -/
def SameProbeWindow (now : ℕ) (v v' : Option (WindowView F)) : Prop :=
  v.map WindowView.untimed = v'.map WindowView.untimed ∧
    ∀ hold, v.any (·.busyHeld now hold) = v'.any (·.busyHeld now hold)

namespace Ring

variable [Zero F]

/-- What blocks may not do to the window of a ring: be newer than its newest sample, unless that
    one is within the carry horizon, quiet and without traffic, or push out a sample the window
    takes a measurement from. -/
structure Undisturbed (r : Ring F) (blocks : List (RawSample F)) (spec : WindowSpec) (now : ℕ) :
    Prop where
  anchored : ∀ b ∈ blocks, r.floor < b.ts → now - b.ts ≤ spec.tcp_carry_secs →
    ∃ x, r.Newest x ∧ now - x.ts ≤ spec.tcp_carry_secs ∧
      (b.ts ≤ x.ts ∨ (x.state = 0 ∧ x.util_mbps = 0))
  kept : ∀ x, r.Newest x → now - x.ts ≤ spec.tcp_carry_secs → ∀ leg s, r.NewestWith leg s →
    now - s.ts ≤ leg.horizon spec →
      countAbove (r.seconds ∪ secondsAbove r.floor blocks) s.ts < rawRingCap

variable {r r' : Ring F} {spec : WindowSpec} {now horizon : ℕ} {leg : Leg} {s x : RawSample F}

/-- A sample of the ring beside that has a leg is alike one of the ring. -/
theorem Beside.exists_of_carriedBy {y : RawSample F} (h : r.Beside r') (hy : y ∈ r'.samples)
    (hcarried : leg.carriedBy y = true) :
    ∃ x ∈ r.samples, x.ts = y.ts ∧ leg.carriedBy x = true := by
  rcases h y.ts y (sampleAt_of_mem hy) with ⟨x, hx, halike⟩ | ⟨_, hbare⟩
  · obtain ⟨hmem, hts⟩ := sampleAt_eq_some_iff.mp hx
    exact ⟨x, hmem, hts, (halike.carriedBy leg).trans hcarried⟩
  · exact absurd hcarried (by rw [hbare.carriedBy leg]; decide)

/-- A freshest sample whose second stays is the freshest beside, up to what blocks state. -/
theorem Beside.freshest_of_kept (h : r.Beside r') (hs : r.freshest spec now leg = some s)
    (hkept : s.ts ∈ r'.seconds) :
    ∃ y, r'.freshest spec now leg = some y ∧ y.ts = s.ts ∧ s.Alike y := by
  obtain ⟨⟨hmem, hcarried, hlast⟩, hage⟩ := freshest_eq_some_iff.mp hs
  obtain ⟨y, hy⟩ := mem_seconds.mp hkept
  obtain ⟨hymem, hyts⟩ := sampleAt_eq_some_iff.mp hy
  have halike : s.Alike y := by
    rcases h s.ts y hy with ⟨x, hx, halike⟩ | ⟨hnone, _⟩
    · obtain rfl := Option.some.inj ((sampleAt_of_mem hmem).symm.trans hx)
      exact halike
    · exact absurd ((sampleAt_of_mem hmem).symm.trans hnone) (by simp)
  refine ⟨y, freshest_eq_some_iff.mpr ⟨⟨hymem, ?_, fun z hz hlt => ?_⟩, by omega⟩, hyts, halike⟩
  · exact (halike.carriedBy leg).symm.trans hcarried
  · by_contra hz'
    obtain ⟨x, hx, hxts, hxc⟩ := h.exists_of_carriedBy hz (Bool.of_not_eq_false hz')
    exact Bool.false_ne_true ((hlast x hx (by omega)).symm.trans hxc)

/-- Where no sample has a leg inside the horizon, none has it beside. -/
theorem Beside.freshest_of_none (h : r.Beside r') (hnone : r.freshest spec now leg = none) :
    r'.freshest spec now leg = none := by
  rw [Option.eq_none_iff_forall_ne_some]
  intro y hy
  obtain ⟨⟨hmem, hcarried, _⟩, hage⟩ := freshest_eq_some_iff.mp hy
  obtain ⟨x, hx, hxts, hxc⟩ := h.exists_of_carriedBy hmem hcarried
  obtain ⟨z, hz, _⟩ := exists_freshest spec now hx (by omega) hxc
  exact absurd (hz.symm.trans hnone) (by simp)

/-- A freshest sample whose second goes, with all before it, leaves none beside. -/
theorem Beside.freshest_of_gone (h : r.Beside r') (hs : r.freshest spec now leg = some s)
    (hgone : ∀ t ∈ r'.seconds, t ∈ r.seconds → s.ts < t) : r'.freshest spec now leg = none := by
  obtain ⟨⟨_, _, hlast⟩, _⟩ := freshest_eq_some_iff.mp hs
  rw [Option.eq_none_iff_forall_ne_some]
  intro y hy
  obtain ⟨⟨hmem, hcarried, _⟩, _⟩ := freshest_eq_some_iff.mp hy
  obtain ⟨x, hx, hxts, hxc⟩ := h.exists_of_carriedBy hmem hcarried
  have hlt : s.ts < y.ts := hgone y.ts (mem_seconds.mpr ⟨y, sampleAt_of_mem hmem⟩)
    (mem_seconds.mpr ⟨x, hxts ▸ sampleAt_of_mem hx⟩)
  exact Bool.false_ne_true ((hlast x hx (by omega)).symm.trans hxc)

end Ring

/-! ### The views of alike samples -/

section Views

variable {spec : WindowSpec} {now : ℕ} {x x' : RawSample F}
  {legs legs' : Leg → Option (RawSample F)}

/-- Both absent, or alike samples of one second. -/
def SameLeg (o o' : Option (RawSample F)) : Prop :=
  (o = none ∧ o' = none) ∨ ∃ s s', o = some s ∧ o' = some s' ∧ s'.ts = s.ts ∧ s.Alike s'

theorem SameLeg.bind_dim {o o' : Option (RawSample F)} (h : SameLeg o o') (d : Dim)
    (hd : d.probed = true) : o.bind (·.dim d) = o'.bind (·.dim d) := by
  rcases h with ⟨rfl, rfl⟩ | ⟨s, s', rfl, rfl, _, halike⟩
  · rfl
  · exact halike.dim d hd

theorem SameLeg.any_age {o o' : Option (RawSample F)} (h : SameLeg o o') (limit : ℕ) :
    o.any (fun s => decide (limit < now - s.ts)) = o'.any (fun s => decide (limit < now - s.ts)) := by
  rcases h with ⟨rfl, rfl⟩ | ⟨s, s', rfl, rfl, hts, _⟩
  · rfl
  · rw [Option.any_some, Option.any_some, hts]

/-- What one sample states and another leg's sample equals, that leg has a sample for. -/
private theorem ne_none_of_bind_eq {β : Type*} {o o' : Option (RawSample F)}
    {f : RawSample F → Option β} {s : RawSample F} (h : o.bind f = o'.bind f) (hs : o = some s)
    (hf : (f s).isSome = true) : o' ≠ none := by
  intro hnone
  rw [hs, hnone, Option.bind_some, Option.bind_none] at h
  rw [h] at hf
  exact Bool.false_ne_true hf

variable [Zero F]

/-- Views taken from the same legs differ in their time at most. -/
theorem untimed_viewOf_eq (hstate : codeToState x.state = codeToState x'.state)
    (hutil : x.util_mbps = x'.util_mbps) (hlegs : ∀ leg, SameLeg (legs leg) (legs' leg)) :
    (viewOf spec now x legs).untimed = (viewOf spec now x' legs').untimed := by
  simp only [viewOf, WindowView.untimed, WindowView.mk.injEq, true_and, and_true]
  exact ⟨hstate, (hlegs .rtt).bind_dim .rtt rfl, (hlegs .loss).bind_dim .loss rfl,
    (hlegs .jitter).bind_dim .jitter rfl, (hlegs .tcp).bind_dim .tcp rfl,
    (hlegs .udp).bind_dim .udp rfl, (hlegs .udp).bind_dim .udp_jitter rfl,
    (hlegs .udp).bind_dim .udp_loss rfl, hutil, (hlegs .tcp).any_age _⟩

/-- A measurement in one of two equal views is in the other. -/
theorem leg_of_untimed_eq
    (h : (viewOf spec now x legs).untimed = (viewOf spec now x' legs').untimed) {leg : Leg}
    {s : RawSample F} (hs : legs leg = some s) (hcarried : leg.carriedBy s = true) :
    legs' leg ≠ none := by
  simp only [viewOf, WindowView.untimed, WindowView.mk.injEq, true_and, and_true] at h
  obtain ⟨_, hrtt, hloss, hjitter, htcp, hudp, _, hudploss, _, _⟩ := h
  cases leg with
  | rtt => exact ne_none_of_bind_eq hrtt hs hcarried
  | loss => exact ne_none_of_bind_eq hloss hs hcarried
  | jitter => exact ne_none_of_bind_eq hjitter hs hcarried
  | tcp => exact ne_none_of_bind_eq htcp hs hcarried
  | udp =>
    rcases Bool.or_eq_true_iff.mp hcarried with hmbps | hloss
    · exact ne_none_of_bind_eq hudp hs hmbps
    · exact ne_none_of_bind_eq hudploss hs hloss

end Views

/-! ### When the window stays the same -/

section Main

variable [LinearOrder F] [Zero F] {r : Ring F} {blocks : List (RawSample F)} {spec : WindowSpec}
  {now : ℕ}

/-- Undisturbed, a ring that has no window has none after the blocks. -/
theorem Ring.Undisturbed.newest_none (h : r.Undisturbed blocks spec now)
    (hnone : r.newestWithin spec.tcp_carry_secs now = none) :
    (r.offers blocks).newestWithin spec.tcp_carry_secs now = none := by
  rw [Ring.newestWithin_eq_none_iff] at hnone ⊢
  intro y hy
  by_contra hage
  rcases Ring.mem_seconds_of_offers (Ring.mem_seconds.mpr ⟨y, Ring.sampleAt_of_mem hy⟩) with
    hin | ⟨b, hb, hts, hlt⟩
  · obtain ⟨x, hx⟩ := Ring.mem_seconds.mp hin
    obtain ⟨hmem, hxts⟩ := Ring.sampleAt_eq_some_iff.mp hx
    have := hnone x hmem
    omega
  · obtain ⟨x, hx, hxage, _⟩ := h.anchored b hb (by omega) (by omega)
    have := hnone x hx.1
    omega

variable (hbare : ∀ b ∈ blocks, b.Bare)
  (hfree : ∀ b ∈ blocks, ∀ x, r.sampleAt b.ts = some x → x.Bare)
include hbare hfree

/-- Undisturbed, the newest sample after the blocks is alike the one before, or both are quiet
    and without traffic. -/
theorem Ring.Undisturbed.newest_some (h : r.Undisturbed blocks spec now) {x : RawSample F}
    (hx : r.newestWithin spec.tcp_carry_secs now = some x) :
    ∃ y, (r.offers blocks).newestWithin spec.tcp_carry_secs now = some y ∧
      ((y.ts = x.ts ∧ x.Alike y) ∨
        (x.state = 0 ∧ x.util_mbps = 0 ∧ y.state = 0 ∧ y.util_mbps = 0)) := by
  obtain ⟨hnew, hage⟩ := Ring.newestWithin_eq_some_iff.mp hx
  have hsec : x.ts ∈ r.seconds := Ring.mem_seconds.mpr ⟨x, Ring.sampleAt_of_mem hnew.1⟩
  obtain ⟨y, hy, hle⟩ := Ring.exists_newest_offers
    (show x.ts ∈ r.seconds ∪ secondsAbove r.floor blocks from Finset.mem_union_left _ hsec)
  refine ⟨y, Ring.newestWithin_eq_some_iff.mpr ⟨hy, by omega⟩, ?_⟩
  rcases Ring.beside_offers hbare hfree (.refl r) y.ts y (Ring.sampleAt_of_mem hy.1) with
    ⟨z, hz, halike⟩ | ⟨hnone, hyb⟩
  · -- the newest sample stayed
    obtain ⟨hmem, hzts⟩ := Ring.sampleAt_eq_some_iff.mp hz
    have hzx := hnew.2 z hmem
    have hts : y.ts = x.ts := by omega
    have hzx : z = x := by
      rw [hts, Ring.sampleAt_of_mem hnew.1] at hz
      exact (Option.some.inj hz).symm
    exact Or.inl ⟨hts, hzx ▸ halike⟩
  · -- a block overtook it
    have hne : y.ts ∉ r.seconds := Ring.notMem_seconds.mpr hnone
    obtain ⟨b, hb, hts, hlt⟩ := (Ring.mem_seconds_of_offers (Ring.mem_seconds.mpr
      ⟨y, Ring.sampleAt_of_mem hy.1⟩)).resolve_left hne
    obtain ⟨x', hx', _, hover⟩ := h.anchored b hb (by omega) (by omega)
    have hts' : x'.ts = x.ts := le_antisymm (hnew.2 x' hx'.1) (hx'.2 x hnew.1)
    have hxx : x' = x := by
      have hat := Ring.sampleAt_of_mem hx'.1
      rw [hts', Ring.sampleAt_of_mem hnew.1] at hat
      exact (Option.some.inj hat).symm
    subst hxx
    have hquiet := hover.resolve_left (fun hb => hne (by
      have : y.ts = x'.ts := by omega
      exact this ▸ hsec))
    exact Or.inr ⟨hquiet.1, hquiet.2, RawSample.Alike.state hyb, RawSample.Alike.util hyb⟩

/-- Undisturbed, every leg is taken from alike samples. -/
theorem Ring.Undisturbed.legs (h : r.Undisturbed blocks spec now) {x : RawSample F}
    (hx : r.newestWithin spec.tcp_carry_secs now = some x) (leg : Leg) :
    SameLeg (r.freshest spec now leg) ((r.offers blocks).freshest spec now leg) := by
  have hbeside := Ring.beside_offers hbare hfree (.refl r)
  obtain ⟨hnew, hage⟩ := Ring.newestWithin_eq_some_iff.mp hx
  cases hs : r.freshest spec now leg with
  | none => exact Or.inl ⟨rfl, hbeside.freshest_of_none hs⟩
  | some s =>
    obtain ⟨hs', hsage⟩ := Ring.freshest_eq_some_iff.mp hs
    have hkept : s.ts ∈ (r.offers blocks).seconds := by
      rw [Ring.seconds_offers, mem_newest]
      exact ⟨Finset.mem_union_left _ (Ring.mem_seconds.mpr ⟨s, Ring.sampleAt_of_mem hs'.1⟩),
        h.kept x hnew hage leg s hs' hsage⟩
    obtain ⟨y, hy, hts, halike⟩ := hbeside.freshest_of_kept hs hkept
    exact Or.inr ⟨s, y, rfl, hy, hts, halike⟩

/-- **When blocks leave the window alone.** Offering bare samples at seconds where the ring holds
    none but bare ones leaves the window the same, if and only if they leave it undisturbed. -/
theorem Ring.sameProbeWindow_offers_iff :
    SameProbeWindow now (r.window spec now) ((r.offers blocks).window spec now) ↔
      r.Undisturbed blocks spec now := by
  have hbeside := Ring.beside_offers hbare hfree (.refl r)
  rw [Ring.window_eq, Ring.window_eq]
  constructor
  · rintro ⟨hviews, -⟩
    refine ⟨fun b hb hlt hage => ?_, fun x hx hxage leg s hs hsage => ?_⟩
    · -- a block in the horizon makes a window, so there was one before
      obtain ⟨y, hy, hle⟩ := Ring.exists_newest_offers (r := r)
        (Finset.mem_union_right _ (mem_secondsAbove.mpr ⟨hlt, b, hb, rfl⟩))
      have hyw := Ring.newestWithin_eq_some_iff.mpr
        ⟨hy, (show now - y.ts ≤ spec.tcp_carry_secs by omega)⟩
      rw [hyw] at hviews
      cases hxw : r.newestWithin spec.tcp_carry_secs now with
      | none =>
        rw [hxw] at hviews
        exact absurd hviews (by simp)
      | some x =>
        obtain ⟨hx, hxage⟩ := Ring.newestWithin_eq_some_iff.mp hxw
        refine ⟨x, hx, hxage, or_iff_not_imp_left.mpr (fun hnew => ?_)⟩
        -- what overtook it is bare
        rcases hbeside y.ts y (Ring.sampleAt_of_mem hy.1) with ⟨z, hz, _⟩ | ⟨_, hybare⟩
        · obtain ⟨hmem, hzts⟩ := Ring.sampleAt_eq_some_iff.mp hz
          have := hx.2 z hmem
          omega
        · rw [hxw, Option.map_some, Option.map_some, Option.map_some, Option.map_some,
            Option.some.injEq] at hviews
          have hstate := congrArg WindowView.state hviews
          have hutil := congrArg WindowView.util_mbps hviews
          refine ⟨codeToState_eq_quiet_iff.mp (hstate.trans ?_), hutil.trans ?_⟩
          · exact codeToState_eq_quiet_iff.mpr (RawSample.Alike.state hybare)
          · exact RawSample.Alike.util hybare
    · -- a sample pushed out takes its measurement with it
      by_contra hgone
      have hxw := Ring.newestWithin_eq_some_iff.mpr ⟨hx, hxage⟩
      have hsf := Ring.freshest_eq_some_iff.mpr ⟨hs, hsage⟩
      have hnone : (r.offers blocks).freshest spec now leg = none := by
        refine hbeside.freshest_of_gone hsf (fun t ht _ => ?_)
        rw [Ring.seconds_offers] at ht
        by_contra hle
        have := (mem_newest.mp (mem_newest_of_le ht (Finset.mem_union_left _
          (Ring.mem_seconds.mpr ⟨s, Ring.sampleAt_of_mem hs.1⟩)) (not_lt.mp hle))).2
        exact hgone this
      rw [hxw] at hviews
      cases hyw : (r.offers blocks).newestWithin spec.tcp_carry_secs now with
      | none =>
        rw [hyw] at hviews
        exact absurd hviews (by simp)
      | some y =>
        rw [hyw, Option.map_some, Option.map_some, Option.map_some, Option.map_some,
          Option.some.injEq] at hviews
        exact leg_of_untimed_eq hviews hsf hs.2.1 hnone
  · intro h
    cases hxw : r.newestWithin spec.tcp_carry_secs now with
    | none =>
      rw [h.newest_none hxw]
      exact ⟨rfl, fun _ => rfl⟩
    | some x =>
      obtain ⟨y, hyw, hsame⟩ := h.newest_some hbare hfree hxw
      have hlegs := h.legs hbare hfree hxw
      rw [hyw, Option.map_some, Option.map_some]
      rcases hsame with ⟨hts, halike⟩ | ⟨hxs, hxu, hys, hyu⟩
      · have hstate := congrArg codeToState halike.state
        refine ⟨congrArg some (untimed_viewOf_eq hstate halike.util hlegs), fun hold => ?_⟩
        simp only [Option.any_some, WindowView.busyHeld, viewOf, hts, hstate]
      · refine ⟨congrArg some (untimed_viewOf_eq (by rw [hxs, hys]) (hxu.trans hyu.symm) hlegs),
          fun hold => ?_⟩
        simp only [Option.any_some, WindowView.busyHeld, viewOf, hxs, hys]
        rfl

end Main

namespace Tsdb

variable [LinearOrder F] [Zero F] [Add F]

/-- Appending samples to a link offers them to its ring. -/
theorem ringOf_append (t : Tsdb F) (link : LinkKey) (ss : List (RawSample F)) :
    (ss.foldl (fun t s => t.append link s) t).ringOf link = (t.ringOf link).offers ss := by
  induction ss generalizing t with
  | nil => rfl
  | cons s ss ih =>
    rw [List.foldl_cons, ih, Tsdb.append, ringOf_ingest, if_pos rfl]
    rfl

/-- **When marking blocks leave the window of a link alone.** After any history, appending
    samples built from marking blocks, at seconds for which the link was given no sample that
    states anything a probe measures, keeps presence, state, utilisation, measurements and busy
    hold of its window, if and only if they leave its ring undisturbed. -/
theorem sameProbeWindow_iff (cfg : TsConfig) (es : List (StoreEvent F)) (link : LinkKey)
    (blocks : List (RawSample F)) (hblocks : ∀ b ∈ blocks, b.Marking)
    (hfree : ∀ b ∈ blocks, ∀ s persist, .ingest link s persist ∈ es → s.ts = b.ts → s.Bare)
    (spec : WindowSpec) (now : ℕ) :
    SameProbeWindow now (((new cfg).replay es).window link spec now)
        ((blocks.foldl (fun t s => t.append link s) ((new cfg).replay es)).window link spec now) ↔
      (((new cfg).replay es).ringOf link).Undisturbed blocks spec now := by
  rw [window_eq, window_eq, ringOf_append]
  refine Ring.sameProbeWindow_offers_iff (fun b hb => (hblocks b hb).bare) (fun b hb x hx => ?_)
  exact bare_replay (hfree b hb) (fun y hy => absurd hy (by simp [ringOf, new])) hx

end Tsdb

/-! ### A block that ends a busy hold -/

/-- A probe report of a link in use, at second 115. -/
def busyReport : RawSample ℕ := RawSample.fromDims .busy 115 (some 20) (some 0) none none 40

/-- A finished block of 10 s, numbered `n`. -/
def doneBlock (n : ℕ) : MarkBlock := ⟨n, 10, 50, 70, 9000, 50, 70, 9000, false, false⟩

/-- The horizons of the example. -/
def echoSpec : WindowSpec := ⟨300, 900, 3600⟩

/-- **A block releases a busy link.** The report at second 115 says busy; the block that starts at
    second 120 is the newest sample then, and the window says quiet. -/
theorem block_releases_busy :
    let t := (Tsdb.new ⟨"", 7200, 86400⟩ : Tsdb ℕ).replay [.ingest echoKey busyReport true]
    let blocks := (RawSample.fromBlock (F := ℕ) (doneBlock 12)).toList
    (∀ b ∈ blocks, b.Marking) ∧ (∀ b ∈ blocks, b.ts ≠ busyReport.ts) ∧
      (t.window echoKey echoSpec 130).any (·.busyHeld 130 300) = true ∧
      ((blocks.foldl (fun t s => t.append echoKey s) t).window echoKey echoSpec 130).any
        (·.busyHeld 130 300) = false := by
  refine ⟨fun b hb => Or.inl ⟨doneBlock 12, ?_⟩, by decide, by decide, by decide⟩
  exact Option.mem_toList.mp hb

/-- The block before that report leaves the window alone. -/
theorem sameProbeWindow_older_block :
    SameProbeWindow 130
      (((Tsdb.new ⟨"", 7200, 86400⟩ : Tsdb ℕ).replay [.ingest echoKey busyReport true]).window
        echoKey echoSpec 130)
      (((RawSample.fromBlock (F := ℕ) (doneBlock 11)).toList.foldl (fun t s => t.append echoKey s)
        ((Tsdb.new ⟨"", 7200, 86400⟩ : Tsdb ℕ).replay [.ingest echoKey busyReport true])).window
        echoKey echoSpec 130) := by
  refine (Tsdb.sameProbeWindow_iff ⟨"", 7200, 86400⟩ [.ingest echoKey busyReport true] echoKey
    (RawSample.fromBlock (F := ℕ) (doneBlock 11)).toList
    (fun b hb => Or.inl ⟨doneBlock 11, Option.mem_toList.mp hb⟩) ?_ echoSpec 130).mpr ⟨?_, ?_⟩
  · -- the only report is of another second
    intro b hb s persist hs hts
    have hb : some b = RawSample.fromBlock (doneBlock 11) := (Option.mem_toList.mp hb).symm
    simp only [List.mem_singleton, StoreEvent.ingest.injEq] at hs
    obtain ⟨-, rfl, -⟩ := hs
    obtain rfl := Option.some.inj hb
    exact absurd hts (by decide)
  · intro b hb _ _
    obtain rfl := Option.some.inj (Option.mem_toList.mp hb).symm
    exact ⟨busyReport, ⟨List.mem_singleton_self _, by decide⟩, by decide, Or.inl (by decide)⟩
  · intro _ _ _ _ s _ _
    exact lt_of_le_of_lt (Finset.card_filter_le _ _) (by decide)

end Mielofon
