import Mielofon.Classifier.Pass
import Mielofon.Lib.Runs
import Mielofon.Lib.Spaced

namespace Mielofon

open Lib

/-!
# Raw retention and the capacity of a ring

The raw retention is configured, the capacity of a ring is not.  The samples of a link come at
two rates, those of the always probes and those of the marking blocks, each configured on its
own; a ring that is full drops its oldest sample, whatever the retention.

* `ProbedLink`, `ProbedLink.step` — a link that is probed and marked at its rates, and pruned;
* `Honoured` — every accepted sample inside the retention is returned by a query;
* `Fits` — no span of the retention has more seconds of samples than a ring holds;
* `honoured_iff` — retention is honoured in every run exactly for configurations that fit;
* `fits_of_le` — the two rates together settle most of them.
-/

variable {F : Type*}

/-- The interval of the always probes (`plan_tick`). -/
def alwaysInterval (always_interval_secs : ℕ) : ℕ := max always_interval_secs 1

/-- The block length the agent takes from its configuration. -/
def markBlock (mark_block_secs : ℕ) : ℕ := max 2 (min mark_block_secs 600)

/-- The store, the clock of its node, and as history: the seconds of the link's always samples, its
    reported blocks, and the seconds the store accepted. -/
structure ProbedLink (F : Type*) where
  tsdb : Tsdb F
  clock : ℕ
  always : Finset ℕ
  blocks : Finset ℕ
  accepted : Finset ℕ

inductive ProbedEvent (F : Type*) where
  /-- The sample of an always probe is appended. -/
  | always (s : RawSample F) (now : ℕ)
  /-- A finished marking block is appended. -/
  | block (b : MarkBlock) (now : ℕ)
  /-- A sample of another link. -/
  | other (l : LinkKey) (s : RawSample F)
  | prune (now : ℕ)

namespace ProbedLink

/-- Nothing was measured yet. -/
def start (cfg : TsConfig) : ProbedLink F := ⟨Tsdb.new cfg, 0, ∅, ∅, ∅⟩

section Step

variable [LinearOrder F] [Zero F] [Add F] (link : LinkKey)

/-- Append a sample of the link. -/
def append (p : ProbedLink F) (s : RawSample F) (now : ℕ) : ProbedLink F :=
  { p with
    tsdb := (p.tsdb.ingest link s true).1
    clock := now
    accepted := if (p.tsdb.ingest link s true).2 then insert s.ts p.accepted else p.accepted }

/-- One event.  The samples of always probes are `interval` apart, every block is reported once,
    and no sample is dated after its arrival. -/
def step (interval block : ℕ) (p : ProbedLink F) : ProbedEvent F → Option (ProbedLink F)
  | .always s now =>
    if p.clock ≤ now ∧ s.ts ≤ now ∧ ∀ x ∈ p.always, x + interval ≤ s.ts ∨ s.ts + interval ≤ x then
      some { p.append link s now with always := insert s.ts p.always }
    else none
  | .block b now =>
    match RawSample.fromBlock b with
    | some s =>
      if p.clock ≤ now ∧ s.ts ≤ now ∧ b.secs = block ∧ b.n ∉ p.blocks then
        some { p.append link s now with blocks := insert b.n p.blocks }
      else none
    | none => none
  | .other l s => if l ≠ link then some { p with tsdb := p.tsdb.append l s } else none
  | .prune now =>
    if p.clock ≤ now then some { p with tsdb := p.tsdb.prune now, clock := now } else none

end Step

end ProbedLink

/-- **Retention is honoured**: a query of its second returns every accepted sample that is not older
    than the raw retention. -/
def Honoured (link : LinkKey) (p : ProbedLink F) : Prop :=
  ∀ ts ∈ p.accepted, p.clock ≤ ts + p.tsdb.cfg.raw_retention_secs →
    ∃ x ∈ p.tsdb.query link ts (ts + 1), x.ts = ts

/-- The seconds can be those of always samples `interval` apart and of blocks of `block` seconds. -/
def Scheduled (interval block : ℕ) (seconds : Finset ℕ) : Prop :=
  ∃ always, Spaced interval always ∧ ∀ ts ∈ seconds, ts ∈ always ∨ block ∣ ts

/-- No span of the retention can have samples at more seconds than a ring holds. -/
def Fits (retention interval block : ℕ) : Prop :=
  ∀ seconds start, Scheduled interval block seconds →
    (∀ ts ∈ seconds, start ≤ ts ∧ ts ≤ start + retention) → seconds.card ≤ rawRingCap

/-- The two rates fill at most this many seconds. -/
theorem fits_of_le {retention interval block : ℕ} (hinterval : 0 < interval) (hblock : 0 < block)
    (h : retention / interval + retention / block + 2 ≤ rawRingCap) :
    Fits retention interval block := by
  rintro seconds start ⟨always, hspaced, hall⟩ hwin
  have halways : (seconds ∩ always).card ≤ retention / interval + 1 :=
    (hspaced.mono Finset.inter_subset_right).card_le hinterval
      fun ts hts => hwin ts (Finset.mem_inter.mp hts).1
  have hblocks : (seconds.filter (block ∣ ·)).card ≤ retention / block + 1 :=
    (spaced_of_dvd fun ts hts => (Finset.mem_filter.mp hts).2).card_le hblock
      fun ts hts => hwin ts (Finset.mem_filter.mp hts).1
  have hsub : seconds ⊆ (seconds ∩ always) ∪ seconds.filter (block ∣ ·) := by
    intro ts hts
    rcases hall ts hts with halw | hdvd
    · exact Finset.mem_union_left _ (Finset.mem_inter.mpr ⟨hts, halw⟩)
    · exact Finset.mem_union_right _ (Finset.mem_filter.mpr ⟨hts, hdvd⟩)
  calc seconds.card ≤ ((seconds ∩ always) ∪ seconds.filter (block ∣ ·)).card :=
        Finset.card_le_card hsub
    _ ≤ (seconds ∩ always).card + (seconds.filter (block ∣ ·)).card := Finset.card_union_le _ _
    _ ≤ rawRingCap := by omega

/-- The defaults fit: two hours of 15 s probes and of 10 s blocks. -/
example : Fits 7200 (alwaysInterval 15) (markBlock 10) :=
  fits_of_le (by decide) (by decide) (by decide)

/-! ### What a ring keeps -/

namespace Ring

variable [LinearOrder F] {r r' : Ring F} {s : RawSample F} {acc : Accepted F}

/-- An accepted sample is in the ring. -/
theorem Offer.mem_seconds (h : Offer r s r' (some acc)) : r.floor < s.ts ∧ s.ts ∈ r'.seconds := by
  cases h with
  | merged held _ hfloor _ _ _ hat | added _ hfloor _ _ _ hat | evicted _ _ hfloor _ _ _ _ _ _ hat =>
    exact ⟨hfloor, Ring.mem_seconds.mpr ⟨_, (hat s.ts).trans (if_pos rfl)⟩⟩

/-- A sample newer than everything the ring ever held is accepted, and is the newest after that. -/
theorem Offer.of_newest {acc : Option (Accepted F)} (h : Offer r s r' acc) (hfloor : r.floor < s.ts)
    (hnew : ∀ x ∈ r.samples, x.ts < s.ts) :
    acc.isSome ∧ r'.floor ≤ s.ts ∧ ∀ ts ∈ r'.seconds, ts ≤ s.ts := by
  have hnone : ∀ held, r.sampleAt s.ts ≠ some held := by
    intro held hheld
    obtain ⟨hmem, hts⟩ := sampleAt_eq_some_iff.mp hheld
    have := hnew held hmem
    omega
  have hseconds : ∀ ts ∈ r'.seconds, ts ≤ s.ts := by
    intro ts hts
    rw [h.seconds hfloor] at hts
    rcases Finset.mem_insert.mp (newest_subset _ _ hts) with rfl | hold
    · exact le_refl _
    · obtain ⟨x, hx⟩ := Ring.mem_seconds.mp hold
      obtain ⟨hmem, rfl⟩ := sampleAt_eq_some_iff.mp hx
      exact (hnew x hmem).le
  cases h with
  | old hold => omega
  | resend held _ hheld => exact absurd hheld (hnone held)
  | merged held _ _ hheld => exact absurd hheld (hnone held)
  | full _ _ hcap hlow =>
    -- a full ring is not empty
    have hpos : 0 < r.samples.length := by rw [hcap]; decide
    obtain ⟨x, hx⟩ := List.exists_mem_of_length_pos hpos
    have := hnew x hx
    have := hlow x hx
    omega
  | added _ _ _ _ hkeep => exact ⟨rfl, by omega, hseconds⟩
  | evicted old _ _ _ _ _ _ hlt hraise => exact ⟨rfl, by omega, hseconds⟩

end Ring

/-- A query of one second returns the ring's sample of it. -/
theorem Tsdb.mem_query_iff {t : Tsdb F} {link : LinkKey} {ts : ℕ} :
    (∃ x ∈ t.query link ts (ts + 1), x.ts = ts) ↔ ts ∈ (t.ringOf link).seconds := by
  rw [Ring.mem_seconds]
  constructor
  · rintro ⟨x, hx, rfl⟩
    exact ⟨x, Ring.sampleAt_of_mem (List.mem_filter.mp hx).1⟩
  · rintro ⟨x, hx⟩
    obtain ⟨hmem, rfl⟩ := Ring.sampleAt_eq_some_iff.mp hx
    exact ⟨x, List.mem_filter.mpr ⟨hmem, by simp⟩, rfl⟩

section Runs

variable [LinearOrder F] [Zero F] [Add F] {link : LinkKey} {interval block : ℕ} {p : ProbedLink F}
variable {s : RawSample F} {now : ℕ}

/-- An ingest reports whether the ring accepted the sample. -/
theorem Tsdb.ingest_snd (t : Tsdb F) (link : LinkKey) (s : RawSample F) (persist : Bool) :
    (t.ingest link s persist).2 = ((t.ringOf link).offer s).2.isSome := by
  cases h : ((t.ringOf link).offer s).2 with
  | none => rw [Tsdb.ingest_of_refused persist h]; rfl
  | some acc => rw [Tsdb.ingest_of_accepted persist h]; rfl

/-- The ring has the accepted seconds inside the retention, and only seconds of samples that were
    due by now. -/
structure Retained (link : LinkKey) (interval block : ℕ) (p : ProbedLink F) : Prop where
  held : ∀ ts ∈ p.accepted, p.clock ≤ ts + p.tsdb.cfg.raw_retention_secs →
    ts ∈ (p.tsdb.ringOf link).seconds
  due : ∀ ts ∈ (p.tsdb.ringOf link).seconds, (ts ∈ p.always ∨ block ∣ ts) ∧ ts ≤ p.clock
  spaced : Spaced interval p.always

/-- A sample that is due is appended. -/
theorem Retained.append (hfits : Fits p.tsdb.cfg.raw_retention_secs interval block)
    (h : Retained link interval block p) (hclock : p.clock ≤ now) (hts : s.ts ≤ now)
    {always blocks : Finset ℕ} (hspaced : Spaced interval always) (hsub : p.always ⊆ always)
    (hdue : s.ts ∈ always ∨ block ∣ s.ts) :
    Retained link interval block { p.append link s now with always, blocks } := by
  have hring : (p.tsdb.ingest link s true).1.ringOf link = ((p.tsdb.ringOf link).offer s).1 := by
    rw [Tsdb.ringOf_ingest, if_pos rfl]
  have hspec := p.tsdb.ringOf_offer_spec link s
  have hsnd := p.tsdb.ingest_snd link s true
  have hcfg := p.tsdb.cfg_ingest link s true
  cases hacc : ((p.tsdb.ringOf link).offer s).2 with
  | none =>
    rw [hacc] at hspec hsnd
    rw [hspec.eq_of_none] at hring
    refine ⟨fun ts hacc hle => ?_, fun ts hmem => ?_, hspaced⟩
    · simp only [ProbedLink.append, hsnd, Option.isSome_none, Bool.false_eq_true, if_false, hcfg]
        at hacc hle ⊢
      rw [hring]
      exact h.held ts hacc (hclock.trans hle)
    · simp only [ProbedLink.append, hring] at hmem ⊢
      exact ⟨(h.due ts hmem).1.imp_left (fun hx => hsub hx), (h.due ts hmem).2.trans hclock⟩
  | some acc =>
    rw [hacc] at hspec hsnd
    obtain ⟨hfloor, hself⟩ := hspec.mem_seconds
    have hseconds := hspec.seconds hfloor
    -- whatever is in the ring was due
    have hall : ∀ ts ∈ insert s.ts (p.tsdb.ringOf link).seconds,
        (ts ∈ always ∨ block ∣ ts) ∧ ts ≤ now := by
      intro ts hmem
      rcases Finset.mem_insert.mp hmem with rfl | hold
      · exact ⟨hdue, hts⟩
      · exact ⟨(h.due ts hold).1.imp_left (fun hx => hsub hx), (h.due ts hold).2.trans hclock⟩
    refine ⟨fun ts hmem hle => ?_, fun ts hmem => ?_, hspaced⟩
    · simp only [ProbedLink.append, hsnd, Option.isSome_some, if_true, hcfg, hring] at hmem hle ⊢
      rcases Finset.mem_insert.mp hmem with rfl | hold
      · exact hself
      · have hin := Finset.mem_insert_of_mem (b := s.ts) (h.held ts hold (hclock.trans hle))
        rw [hseconds, mem_newest]
        refine ⟨hin, ?_⟩
        -- the second and those above it fit into the ring
        have hcard := hfits (insert ts ((insert s.ts (p.tsdb.ringOf link).seconds).filter (ts < ·))) ts
          ⟨always, hspaced, fun t ht => (hall t ((Finset.mem_insert.mp ht).elim (fun heq => heq ▸ hin)
            fun ht => (Finset.mem_filter.mp ht).1)).1⟩
          (fun t ht => by
            rcases Finset.mem_insert.mp ht with rfl | ht
            · exact ⟨le_refl _, Nat.le_add_right _ _⟩
            · obtain ⟨ht, hlt⟩ := Finset.mem_filter.mp ht
              exact ⟨hlt.le, (hall t ht).2.trans hle⟩)
        rw [Finset.card_insert_of_notMem (by simp)] at hcard
        exact hcard
    · simp only [ProbedLink.append, hring, hseconds] at hmem ⊢
      exact hall ts (newest_subset _ _ hmem)

/-- **Step lemma.** -/
theorem Retained.step (hfits : Fits p.tsdb.cfg.raw_retention_secs interval block)
    (h : Retained link interval block p) {e : ProbedEvent F} {p' : ProbedLink F}
    (hs : p.step link interval block e = some p') :
    Retained link interval block p' ∧ p'.tsdb.cfg = p.tsdb.cfg := by
  cases e with
  | always s now =>
    simp only [ProbedLink.step] at hs
    split at hs
    · rename_i hok
      obtain rfl := Option.some.inj hs
      exact ⟨h.append hfits hok.1 hok.2.1 (h.spaced.insert hok.2.2) (Finset.subset_insert _ _)
        (Or.inl (Finset.mem_insert_self _ _)), Tsdb.cfg_ingest _ _ _ _⟩
    · exact absurd hs (by simp)
  | block b now =>
    simp only [ProbedLink.step] at hs
    split at hs
    · rename_i s hblock
      split at hs
      · rename_i hok
        obtain rfl := Option.some.inj hs
        -- a block is stamped with its start
        have hstart : block ∣ s.ts := by
          unfold RawSample.fromBlock at hblock
          split at hblock
          · exact absurd hblock (by simp)
          · obtain rfl := Option.some.inj hblock
            exact hok.2.2.1 ▸ Dvd.intro_left _ rfl
        exact ⟨h.append hfits hok.1 hok.2.1 h.spaced (Finset.Subset.refl _) (Or.inr hstart),
          Tsdb.cfg_ingest _ _ _ _⟩
      · exact absurd hs (by simp)
    · exact absurd hs (by simp)
  | other l s =>
    simp only [ProbedLink.step] at hs
    split at hs
    · rename_i hne
      obtain rfl := Option.some.inj hs
      have hring : (p.tsdb.append l s).ringOf link = p.tsdb.ringOf link := by
        rw [Tsdb.append, Tsdb.ringOf_ingest, if_neg (Ne.symm hne)]
      have hcfg : (p.tsdb.append l s).cfg = p.tsdb.cfg := Tsdb.cfg_ingest _ _ _ _
      refine ⟨⟨fun ts hacc hle => ?_, fun ts hmem => ?_, h.spaced⟩, hcfg⟩
      · simp only [hring, hcfg] at hle ⊢
        exact h.held ts hacc hle
      · simp only [hring] at hmem
        exact h.due ts hmem
    · exact absurd hs (by simp)
  | prune now =>
    simp only [ProbedLink.step] at hs
    split at hs
    · rename_i hclock
      obtain rfl := Option.some.inj hs
      have hseconds : ∀ ts, ts ∈ ((p.tsdb.prune now).ringOf link).seconds ↔
          p.tsdb.rawCut now ≤ ts ∧ ts ∈ (p.tsdb.ringOf link).seconds := by
        intro ts
        simp only [Tsdb.ringOf_prune, Ring.mem_seconds, Ring.sampleAt_prune]
        split
        · rename_i hlt
          simp [not_le.mpr hlt]
        · rename_i hge
          simp [not_lt.mp hge]
      refine ⟨⟨fun ts hacc hle => ?_, fun ts hmem => ?_, h.spaced⟩, rfl⟩
      · have hle : now ≤ ts + p.tsdb.cfg.raw_retention_secs := hle
        refine (hseconds ts).mpr ⟨?_, h.held ts hacc (hclock.trans hle)⟩
        unfold Tsdb.rawCut
        omega
      · have hdue := h.due ts ((hseconds ts).mp hmem).2
        exact ⟨hdue.1, hdue.2.trans hclock⟩
    · exact absurd hs (by simp)

/-- A configuration that fits honours the retention. -/
theorem honoured_of_fits {cfg : TsConfig} (hfits : Fits cfg.raw_retention_secs interval block)
    (hrun : Runs (ProbedLink.step link interval block) Always (ProbedLink.start cfg) p) :
    Honoured link p := by
  have hinv : Retained link interval block p ∧ p.tsdb.cfg = cfg := by
    refine hrun.invariant (I := fun p => Retained link interval block p ∧ p.tsdb.cfg = cfg) ?_ ?_
    · refine ⟨⟨fun ts hacc => ?_, fun ts hmem => ?_, fun x hx => ?_⟩, rfl⟩
      · exact absurd hacc (Finset.notMem_empty _)
      · exact absurd hmem (Finset.notMem_empty _)
      · exact absurd hx (Finset.notMem_empty _)
    · rintro t e t' ⟨hret, hcfg⟩ - hs
      obtain ⟨hret', hcfg'⟩ := hret.step (hcfg ▸ hfits) hs
      exact ⟨hret', hcfg'.trans hcfg⟩
  intro ts hacc hle
  exact Tsdb.mem_query_iff.mpr (hinv.1.held ts hacc hle)

/-! ### Filling a ring -/

/-- A block of which nothing was counted. -/
def emptyBlock (n secs : ℕ) : MarkBlock := ⟨n, secs, 0, 0, 0, 0, 0, 0, false, false⟩

/-- Whatever happened, happened by now. -/
structure Past (link : LinkKey) (block : ℕ) (p : ProbedLink F) : Prop where
  floor : (p.tsdb.ringOf link).floor ≤ p.clock
  ring : ∀ ts ∈ (p.tsdb.ringOf link).seconds, ts ≤ p.clock
  always : ∀ ts ∈ p.always, ts ≤ p.clock
  blocks : ∀ n ∈ p.blocks, n * block ≤ p.clock

/-- A sample of a second after everything that happened is accepted. -/
theorem Past.append (h : Past link block p) (hts : p.clock < s.ts) {always blocks : Finset ℕ}
    (halways : ∀ ts ∈ always, ts ≤ s.ts) (hblocks : ∀ n ∈ blocks, n * block ≤ s.ts) :
    Past link block { p.append link s s.ts with always, blocks } ∧
      (p.append link s s.ts).accepted = insert s.ts p.accepted := by
  have hring : (p.tsdb.ingest link s true).1.ringOf link = ((p.tsdb.ringOf link).offer s).1 := by
    rw [Tsdb.ringOf_ingest, if_pos rfl]
  have hfloor : (p.tsdb.ringOf link).floor < s.ts := lt_of_le_of_lt h.floor hts
  obtain ⟨hacc, hfloor', hseconds⟩ := (p.tsdb.ringOf_offer_spec link s).of_newest hfloor
    fun x hx => lt_of_le_of_lt
      (h.ring x.ts (Ring.mem_seconds.mpr ⟨x, Ring.sampleAt_of_mem hx⟩)) hts
  refine ⟨⟨?_, ?_, halways, hblocks⟩, ?_⟩
  · simp only [ProbedLink.append, hring]
    exact hfloor'
  · simp only [ProbedLink.append, hring]
    exact hseconds
  · simp only [ProbedLink.append, p.tsdb.ingest_snd, hacc, if_true]

/-- **Filling.** Seconds that are due one after another can all be accepted, each at its time. -/
theorem exists_fill (hblock : 0 < block) {due : Finset ℕ} (hspaced : Spaced interval due)
    (seconds : List ℕ) : ∀ p : ProbedLink F, Past link block p → p.always ⊆ due →
      seconds.Pairwise (· < ·) → (∀ ts ∈ seconds, p.clock < ts ∧ (ts ∈ due ∨ block ∣ ts)) →
      ∃ p', Runs (ProbedLink.step link interval block) Always p p' ∧ p'.tsdb.cfg = p.tsdb.cfg ∧
        p.accepted ⊆ p'.accepted ∧ (∀ ts ∈ seconds, ts ∈ p'.accepted) ∧
        (p'.clock = p.clock ∨ p'.clock ∈ seconds) := by
  induction seconds with
  | nil =>
    intro p _ _ _ _
    exact ⟨p, Runs.refl p, rfl, Finset.Subset.refl _, fun ts h => absurd h List.not_mem_nil, Or.inl rfl⟩
  | cons ts seconds ih =>
    intro p hpast hsub hsorted hall
    obtain ⟨hlater, hsorted⟩ := List.pairwise_cons.mp hsorted
    obtain ⟨hclock, hdue⟩ := hall ts List.mem_cons_self
    have hrest : ∀ t ∈ seconds, ts < t ∧ (t ∈ due ∨ block ∣ t) := fun t ht =>
      ⟨hlater t ht, (hall t (List.mem_cons_of_mem _ ht)).2⟩
    -- one event has the second accepted
    have hone : ∃ e q, p.step link interval block e = some q ∧ Past link block q ∧
        q.always ⊆ due ∧ q.tsdb.cfg = p.tsdb.cfg ∧ q.accepted = insert ts p.accepted ∧
        q.clock = ts := by
      rcases hdue with hdue | ⟨n, rfl⟩
      · let s : RawSample F := RawSample.fromDims .quiet ts none none none none 0
        have hok : p.clock ≤ ts ∧ s.ts ≤ ts ∧
            ∀ x ∈ p.always, x + interval ≤ s.ts ∨ s.ts + interval ≤ x := by
          refine ⟨hclock.le, le_refl ts, fun x hx => Or.inl ?_⟩
          exact hspaced x (hsub hx) ts hdue (lt_of_le_of_lt (hpast.always x hx) hclock)
        obtain ⟨hpast', hacc⟩ := hpast.append (s := s) hclock
          (fun t ht => (Finset.mem_insert.mp ht).elim (fun heq => heq.le)
            fun ht => (hpast.always t ht).trans hclock.le)
          fun n hn => (hpast.blocks n hn).trans hclock.le
        exact ⟨.always s ts, _, if_pos hok, hpast', Finset.insert_subset hdue hsub,
          Tsdb.cfg_ingest _ _ _ _, hacc, rfl⟩
      · have hsecs : (emptyBlock n block).secs ≠ 0 := hblock.ne'
        obtain ⟨s, hs, hts⟩ : ∃ s : RawSample F,
            RawSample.fromBlock (emptyBlock n block) = some s ∧ s.ts = block * n :=
          ⟨_, if_neg hsecs, Nat.mul_comm n block⟩
        have hok : p.clock ≤ block * n ∧ s.ts ≤ block * n ∧ (emptyBlock n block).secs = block ∧
            (emptyBlock n block).n ∉ p.blocks := by
          refine ⟨hclock.le, hts.le, rfl, fun hn => ?_⟩
          have := hpast.blocks n hn
          rw [Nat.mul_comm] at this
          omega
        obtain ⟨hpast', hacc⟩ := hpast.append (s := s) (by omega)
          (fun t ht => (hpast.always t ht).trans (by omega))
          (fun k (hk : k ∈ insert n p.blocks) => by
            rcases Finset.mem_insert.mp hk with rfl | hk
            · rw [hts, Nat.mul_comm]
            · exact (hpast.blocks k hk).trans (by omega))
        rw [hts] at hpast' hacc
        refine ⟨.block (emptyBlock n block) (block * n), _, ?_, hpast', hsub,
          Tsdb.cfg_ingest _ _ _ _, hacc, rfl⟩
        simp only [ProbedLink.step, hs]
        exact if_pos hok
    obtain ⟨e, q, hstep, hpast', hsub', hcfg, hacc, hq⟩ := hone
    obtain ⟨p', hrun, hcfg', hkeep, haccepted, hlast⟩ := ih q hpast' hsub' hsorted (hq ▸ hrest)
    refine ⟨p', Runs.cons e trivial hstep hrun, hcfg'.trans hcfg, ?_, ?_, ?_⟩
    · exact fun t ht => hkeep (hacc ▸ Finset.mem_insert_of_mem ht)
    · intro t ht
      rcases List.mem_cons.mp ht with rfl | ht
      · exact hkeep (hacc ▸ Finset.mem_insert_self _ _)
      · exact haccepted t ht
    · right
      rcases hlast with hlast | hlast
      · rw [hlast, hq]
        exact List.mem_cons_self
      · exact List.mem_cons_of_mem _ hlast

variable (link) in
/-- A configuration whose retention is honoured fits. -/
theorem fits_of_honoured {cfg : TsConfig} (hblock : 0 < block)
    (h : ∀ p : ProbedLink F, Runs (ProbedLink.step link interval block) Always
      (ProbedLink.start cfg) p → Honoured link p) :
    Fits cfg.raw_retention_secs interval block := by
  rintro seconds start ⟨always, hspaced, hall⟩ hwin
  -- one block later, where no second is 0
  let shift : ℕ ↪ ℕ := ⟨(· + block), fun _ _ heq => Nat.add_right_cancel heq⟩
  have hspaced' : Spaced interval (always.map shift) := by
    intro x hx y hy hlt
    obtain ⟨a, ha, rfl⟩ := Finset.mem_map.mp hx
    obtain ⟨b, hb, rfl⟩ := Finset.mem_map.mp hy
    have hlt : a + block < b + block := hlt
    have := hspaced a ha b hb (by omega)
    show a + block + interval ≤ b + block
    omega
  have hmem : ∀ ts ∈ (seconds.map shift).sort (· ≤ ·),
      (start + block ≤ ts ∧ ts ≤ start + block + cfg.raw_retention_secs) ∧
        (ts ∈ always.map shift ∨ block ∣ ts) := by
    intro ts hts
    obtain ⟨t, ht, rfl⟩ := Finset.mem_map.mp ((Finset.mem_sort _).mp hts)
    have := hwin t ht
    refine ⟨⟨?_, ?_⟩, (hall t ht).imp (fun hx => Finset.mem_map_of_mem shift hx)
      fun hdvd => (Nat.dvd_add_right hdvd).mpr (dvd_refl _)⟩
    · show start + block ≤ t + block
      omega
    · show t + block ≤ start + block + cfg.raw_retention_secs
      omega
  have hpast : Past link block (ProbedLink.start cfg : ProbedLink F) :=
    ⟨le_refl 0, fun _ h => absurd h (Finset.notMem_empty _), fun _ h => absurd h (Finset.notMem_empty _),
      fun _ h => absurd h (Finset.notMem_empty _)⟩
  obtain ⟨p, hrun, hcfg, -, haccepted, hlast⟩ := exists_fill hblock hspaced'
    ((seconds.map shift).sort (· ≤ ·)) (ProbedLink.start cfg : ProbedLink F) hpast
    (Finset.empty_subset _) (Finset.sortedLT_sort _).pairwise
    fun ts hts => ⟨by have := (hmem ts hts).1.1; show 0 < ts; omega, (hmem ts hts).2⟩
  have hclock : p.clock ≤ start + block + cfg.raw_retention_secs := by
    rcases hlast with hzero | hin
    · rw [hzero]
      exact Nat.zero_le _
    · exact (hmem _ hin).1.2
  -- all of them are in the ring
  have hin : seconds.map shift ⊆ (p.tsdb.ringOf link).seconds := by
    intro ts hts
    have hts := (Finset.mem_sort (· ≤ ·)).mpr hts
    refine Tsdb.mem_query_iff.mp (h p hrun ts (haccepted ts hts) ?_)
    have := (hmem ts hts).1.1
    have hret : p.tsdb.cfg.raw_retention_secs = cfg.raw_retention_secs :=
      congrArg TsConfig.raw_retention_secs hcfg
    omega
  calc seconds.card = (seconds.map shift).card := (Finset.card_map _).symm
    _ ≤ (p.tsdb.ringOf link).seconds.card := Finset.card_le_card hin
    _ ≤ rawRingCap := Ring.card_seconds_le _

end Runs

end Mielofon
