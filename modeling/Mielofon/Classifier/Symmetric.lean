import Mathlib
import Mielofon.Classifier.Hysteresis
import Mielofon.Lib.Runs

namespace Mielofon

open Lib

/-!
# One quality for both halves

With `pair_cost = symmetric` the two halves of a tunnel are classified from one merged window.
What takes effect is still decided half by half: each confirms a change with its own samples, and
each is held on its own.

* `candidate_of_paired` — a pass that classifies both halves has one candidate for them;
* `standing`, `standing_vote` — the class of a link and the confirmations it has, and what a vote
  makes of them;
* `InStep` — a pass that moves both halves alike, or neither;
* `symmetric_of_inStep` — in runs of such passes both halves always have one quality;
* `halves_confirm_apart` — a half without new samples is left behind.
-/

variable {F : Type*}

/-! ### The halves of a tunnel -/

/-- A listed link is the reverse half of its own reverse half. -/
theorem pairOf_symm {links : List LinkKey} {l r : LinkKey} (hmem : l ∈ links)
    (h : pairOf links l = some r) : pairOf links r = some l := by
  unfold pairOf at h
  split at h
  · rename_i x y hown hrev
    split at h
    · rename_i hne
      obtain rfl := Option.some.inj h
      -- the one link of its direction is the link itself
      have hl : l ∈ byDir links l.from l.to := List.mem_filter.mpr ⟨hmem, by simp⟩
      rw [hown, List.mem_singleton] at hl
      have hr : y ∈ byDir links l.to l.from := by rw [hrev]; exact List.mem_singleton_self _
      have hends : y.from = l.to ∧ y.to = l.from := by simpa using (List.mem_filter.mp hr).2
      unfold pairOf
      rw [hends.1, hends.2, hrev, hown, ← hl]
      exact if_pos hne.symm
    · exact absurd h (by simp)
  · exact absurd h (by simp)

section Merge

variable [LinearOrder F]

omit [LinearOrder F] in
theorem worseBy_comm {worse : F → F → F} (h : ∀ x y, worse x y = worse y x) (a b : Option F) :
    worseBy worse a b = worseBy worse b a := by
  cases a with
  | none => cases b <;> rfl
  | some x =>
    cases b with
    | none => rfl
    | some y => exact congrArg some (h x y)

theorem worseUpper_comm (a b : Option F) : worseUpper a b = worseUpper b a :=
  worseBy_comm max_comm a b

theorem worseLower_comm (a b : Option F) : worseLower a b = worseLower b a :=
  worseBy_comm min_comm a b

/-- What a window is classified by does not depend on the half the merge starts from. -/
theorem mergePair_symmetric (cfg : QualityCfg F) (a b : WindowView F) :
    classifyWindow cfg (mergePair a b .symmetric) = classifyWindow cfg (mergePair b a .symmetric) ∧
      (mergePair a b .symmetric).measured = (mergePair b a .symmetric).measured := by
  have hupper : ∀ f : WindowView F → Option F, worseUpper (f a) (f b) = worseUpper (f b) (f a) :=
    fun f => worseUpper_comm _ _
  have hlower : ∀ f : WindowView F → Option F, worseLower (f a) (f b) = worseLower (f b) (f a) :=
    fun f => worseLower_comm _ _
  constructor
  · simp only [classifyWindow, mergePair, reduceCtorEq, if_false, if_true, hupper WindowView.rtt_ms,
      hupper WindowView.loss_pct, hupper WindowView.jitter_ms, hlower WindowView.tcp_mbps,
      hlower WindowView.udp_mbps, hupper WindowView.udp_loss_pct, hupper WindowView.udp_jitter_ms,
      hlower WindowView.implied_tcp_mbps]
  · simp only [WindowView.measured, mergePair, reduceCtorEq, if_false, if_true,
      hupper WindowView.rtt_ms, hupper WindowView.loss_pct, hupper WindowView.jitter_ms]

end Merge

section Pass

variable [LinearOrder F] [Arith F] {cfg : Config F} {now : ℕ} {owned : List LinkKey}
variable {s : PolicyState F} {l r link : LinkKey} {v v' : Vote}

/-- What stands behind a vote: the link is listed, and has a view. -/
theorem of_voteOf (h : voteOf cfg now owned s link = some v) :
    link ∈ s.tsdb.links ∧ ∃ view, (foldPairs cfg now owned s).views.get link = some view ∧
      candidateOf cfg now view (classView cfg (pairsOf cfg s.tsdb.links)
        (foldPairs cfg now owned s).views link view) = some v.candidate := by
  unfold voteOf at h
  split at h
  · rename_i hmem
    obtain ⟨view, hview, hcand⟩ := Option.bind_eq_some_iff.mp h
    obtain ⟨candidate, hcandidate, rfl⟩ := Option.map_eq_some_iff.mp hcand
    exact ⟨(List.mem_filter.mp hmem).1, view, hview, hcandidate⟩
  · exact absurd h (by simp)

/-- **One candidate.** A pass that classifies both halves of a tunnel has the same candidate for
    both. -/
theorem candidate_of_paired (hmode : cfg.classifier.pair_cost = .symmetric)
    (hpair : pairOf s.tsdb.links l = some r) (hv : voteOf cfg now owned s l = some v)
    (hv' : voteOf cfg now owned s r = some v') : v.candidate = v'.candidate := by
  obtain ⟨hl, view, hview, hcand⟩ := of_voteOf hv
  obtain ⟨-, view', hview', hcand'⟩ := of_voteOf hv'
  have hpair' := pairOf_symm hl hpair
  have hmerge : classView cfg (pairsOf cfg s.tsdb.links) (foldPairs cfg now owned s).views l view =
      mergePair view view' .symmetric := by
    simp [classView, pairsOf, hmode, hpair, hview']
  have hmerge' : classView cfg (pairsOf cfg s.tsdb.links) (foldPairs cfg now owned s).views r view' =
      mergePair view' view .symmetric := by
    simp [classView, pairsOf, hmode, hpair', hview]
  have hsame : ∀ {view class_view : WindowView F} {q : Quality},
      candidateOf cfg now view class_view = some q → classifyWindow cfg.quality class_view = q := by
    intro view class_view q h
    unfold candidateOf at h
    split at h
    · exact absurd h (by simp)
    · split at h
      · exact absurd h (by simp)
      · exact Option.some.inj h
  rw [hmerge] at hcand
  rw [hmerge'] at hcand'
  rw [← hsame hcand, ← hsame hcand', (mergePair_symmetric cfg.quality view view').1]

end Pass

/-! ### Where a link stands -/

/-- The class of a link, and the class being confirmed with the number of confirmations. -/
abbrev Standing := Option Quality × Option (Quality × ℕ)

/-- The confirmations of `c` after a vote for it, which counts if its sample is `fresh`. -/
def confirmations (pending : Option (Quality × ℕ)) (fresh : Bool) (c : Quality) : ℕ :=
  match pending with
  | none => 1
  | some (q, n) => if q = c then (if fresh then n + 1 else n) else 1

/-- What a vote for `c` makes of a standing. -/
def Standing.vote (passes : ℕ) (st : Standing) (fresh : Bool) (c : Quality) : Standing :=
  match st.1 with
  | none => (some c, st.2)
  | some q =>
    if q = c then (some c, none)
    else if max passes 1 ≤ confirmations st.2 fresh c then (some c, none)
    else (some q, some (c, confirmations st.2 fresh c))

namespace PolicyState

def standing (s : PolicyState F) (link : LinkKey) : Standing :=
  (s.classOf link, (s.classifier.pending.get link).map (fun p => (p.quality, p.passes)))

/-- The newest sample was not counted for the link yet. -/
def fresh (s : PolicyState F) (link : LinkKey) (ts : ℕ) : Bool :=
  (s.classifier.pending.get link).all (fun p => p.last_ts != ts)

end PolicyState

/-- The confirmations a vote leaves. -/
theorem nextPending_eq {held : Option Pending} {ts : ℕ} (hpos : 0 < ts) (c : Quality) :
    (nextPending held ts c).quality = c ∧ (nextPending held ts c).passes =
      confirmations (held.map (fun p => (p.quality, p.passes))) (held.all (fun p => p.last_ts != ts))
        c := by
  have hne : (0 : ℕ) ≠ ts := by omega
  cases held with
  | none => simp [nextPending, confirmations, hne]
  | some p =>
    by_cases hq : p.quality = c
    · by_cases hts : p.last_ts = ts
      · simp [nextPending, confirmations, hq, hts]
      · simp [nextPending, confirmations, hq, hts]
    · simp [nextPending, confirmations, hq, hne]

section Votes

variable [LinearOrder F] [Arith F] {cfg : Config F} {now : ℕ} {owned : List LinkKey}
variable {s : PolicyState F} {l r link : LinkKey} {v : Vote}

/-- A pass leaves a link that it does not classify where it stands. -/
theorem standing_of_none (h : voteOf cfg now owned s link = none) :
    (classifyOnce cfg now owned s).standing link = s.standing link := by
  have hkept := kept_classifyOnce_of_none cfg now h
  have hlast := congrArg Prod.fst hkept
  have hpending := congrArg Prod.snd hkept
  unfold kept at hlast hpending
  unfold PolicyState.standing PolicyState.classOf
  dsimp only at hlast hpending
  rw [hlast, hpending]

/-- **A vote** moves a link as its standing says. -/
theorem standing_vote (h : voteOf cfg now owned s link = some v) :
    (classifyOnce cfg now owned s).standing link =
      (s.standing link).vote cfg.classifier.hysteresis_passes (s.fresh link v.ts) v.candidate := by
  obtain ⟨q, cost, pending, hkept, hdec⟩ := kept_classifyOnce_of_some cfg now h
  have hpos := (voteOf_ts cfg now h).1
  have hlast := congrArg Prod.fst hkept
  have hpending := congrArg Prod.snd hkept
  unfold kept at hlast hpending
  dsimp only at hlast hpending
  have hafter : (classifyOnce cfg now owned s).standing link =
      (some q, pending.map (fun p => (p.quality, p.passes))) := by
    unfold PolicyState.standing PolicyState.classOf
    rw [hlast, hpending]
    rfl
  obtain ⟨hnextq, hnextn⟩ := @nextPending_eq (s.classifier.pending.get link) _ hpos v.candidate
  rw [hafter]
  unfold PolicyState.standing PolicyState.classOf PolicyState.fresh Standing.vote
  dsimp only
  rw [← hnextn]
  cases hdec with
  | first hnone => rw [hnone]; rfl
  | same p hp heq => rw [hp, Option.map_some]; simp [heq]
  | changed p hp hne henough =>
    rw [hp, Option.map_some]
    dsimp only
    rw [if_neg hne, if_pos henough]
    rfl
  | waiting p hp hne hfew =>
    rw [hp, Option.map_some]
    simp only [if_neg hne, if_neg (not_le.mpr hfew), Option.map_some, hnextq]

end Votes

/-! ### In step -/

/-- The vote leaves the link where it stands: it is for the class the link has and nothing is being
    confirmed, or its sample was counted already towards what is being confirmed. -/
def Unmoved (s : PolicyState F) (link : LinkKey) (v : Vote) : Prop :=
  (s.classOf link = some v.candidate ∧ s.classifier.pending.get link = none) ∨
    (s.classOf link ≠ some v.candidate ∧
      ∃ p, s.classifier.pending.get link = some p ∧ p.quality = v.candidate ∧ p.last_ts = v.ts)

section Runs

variable [LinearOrder F] [Arith F] (cfg : Config F) (l r : LinkKey)

/-- **In step.** A pass moves neither half; or it classifies both, as a pair or otherwise for the
    same candidate, and where they are confirming it, it reads a new sample of both or of neither. -/
def InStep (s : PolicyState F) : PolicyEvent F → Prop
  | .pass now owned =>
    ((∀ v, voteOf cfg now owned s l = some v → Unmoved s l v) ∧
      ∀ v, voteOf cfg now owned s r = some v → Unmoved s r v) ∨
    ∃ v v', voteOf cfg now owned s l = some v ∧ voteOf cfg now owned s r = some v' ∧
      (pairOf s.tsdb.links l = some r ∨ v.candidate = v'.candidate) ∧
      (s.classOf l ≠ some v.candidate → ∀ p p', s.classifier.pending.get l = some p →
        s.classifier.pending.get r = some p' → p.quality = v.candidate →
          (p.last_ts = v.ts ↔ p'.last_ts = v'.ts))
  | .ingest .. | .prune .. => True

/-- The halves stand alike. -/
def Level (s : PolicyState F) : Prop := s.standing l = s.standing r

variable {cfg} {l r} {s : PolicyState F} {link : LinkKey} {v : Vote} {now : ℕ}
variable {owned : List LinkKey}

/-- A vote that does not move the link. -/
theorem standing_of_unmoved {vs : List Vote} (hinv : Confirming cfg s link vs)
    (hunmoved : Unmoved s link v) (h : voteOf cfg now owned s link = some v) :
    (classifyOnce cfg now owned s).standing link = s.standing link := by
  rw [standing_vote h]
  rcases hunmoved with ⟨hclass, hnone⟩ | ⟨hclass, p, hp, hq, hts⟩
  · simp [Standing.vote, PolicyState.standing, hclass, hnone]
  · -- the sample does not count, and what was counted does not suffice
    have hfew := hinv.few p hp
    cases hc : s.classOf link with
    | none =>
      have hlast : s.classifier.last.get link = none := Option.map_eq_none_iff.mp hc
      exact absurd (hp.symm.trans (hinv.unclassified hlast)) (by simp)
    | some q =>
      have hne : q ≠ v.candidate := fun heq => hclass (hc.trans (congrArg some heq))
      have hnot : ¬ max cfg.classifier.hysteresis_passes 1 ≤ p.passes := not_le.mpr hfew
      simp [Standing.vote, PolicyState.standing, PolicyState.fresh, confirmations, hc, hp, hq, hts, hne]
      omega

omit [LinearOrder F] [Arith F] in
/-- Level halves have the same confirmations of what they are confirming, if the sample counts for
    both or for neither. -/
theorem confirmations_congr {ts ts' : ℕ} {c : Quality} (hlevel : Level l r s)
    (hcount : ∀ p p', s.classifier.pending.get l = some p → s.classifier.pending.get r = some p' →
      p.quality = c → (p.last_ts = ts ↔ p'.last_ts = ts')) :
    confirmations (s.standing l).2 (s.fresh l ts) c =
      confirmations (s.standing l).2 (s.fresh r ts') c := by
  have hsecond : (s.classifier.pending.get l).map (fun p => (p.quality, p.passes)) =
      (s.classifier.pending.get r).map (fun p => (p.quality, p.passes)) := congrArg Prod.snd hlevel
  cases hp : s.classifier.pending.get l with
  | none => simp [PolicyState.standing, hp, confirmations]
  | some p =>
    rw [hp] at hsecond
    obtain ⟨p', hp', -⟩ := Option.map_eq_some_iff.mp hsecond.symm
    by_cases hq : p.quality = c
    · have hiff := hcount p p' hp hp' hq
      simp [PolicyState.standing, PolicyState.fresh, hp, hp', confirmations, hq, hiff]
    · simp [PolicyState.standing, hp, confirmations, hq]

/-- **Step lemma.** A pass in step keeps the halves level. -/
theorem level_pass (hmode : cfg.classifier.pair_cost = .symmetric) {vs vs' : List Vote}
    (hinv : Confirming cfg s l vs) (hinv' : Confirming cfg s r vs') (hlevel : Level l r s)
    (hin : InStep cfg l r s (.pass now owned)) : Level l r (classifyOnce cfg now owned s) := by
  rcases hin with ⟨hl, hr⟩ | ⟨v, v', hv, hv', hcand, hcount⟩
  · -- neither half moves
    have hstay : ∀ {link vs}, Confirming cfg s link vs →
        (∀ v, voteOf cfg now owned s link = some v → Unmoved s link v) →
        (classifyOnce cfg now owned s).standing link = s.standing link := by
      intro link vs hinv h
      cases hvote : voteOf cfg now owned s link with
      | none => exact standing_of_none hvote
      | some v => exact standing_of_unmoved hinv (h v hvote) hvote
    exact (hstay hinv hl).trans (hlevel.trans (hstay hinv' hr).symm)
  · have hcand : v.candidate = v'.candidate :=
      hcand.elim (fun hpair => candidate_of_paired hmode hpair hv hv') id
    unfold Level
    rw [standing_vote hv, standing_vote hv', ← hcand, ← hlevel]
    unfold Standing.vote
    cases hclass : (s.standing l).1 with
    | none => rfl
    | some q =>
      by_cases heq : q = v.candidate
      · simp [heq]
      · -- the sample counts for both or for neither, where that matters
        have hne : s.classOf l ≠ some v.candidate := fun h =>
          heq (Option.some.inj (hclass.symm.trans h))
        have hsame : confirmations (s.standing l).2 (s.fresh l v.ts) v.candidate =
            confirmations (s.standing l).2 (s.fresh r v'.ts) v.candidate :=
          confirmations_congr hlevel (hcount hne)
        simp only [heq, hsame]

/-- A vote that leaves the standing does not move the link. -/
theorem unmoved_of_standing (h : voteOf cfg now owned s link = some v)
    (hstay : (classifyOnce cfg now owned s).standing link = s.standing link) : Unmoved s link v := by
  rw [standing_vote h] at hstay
  have hclass : (s.standing link).1 = s.classOf link := rfl
  unfold Standing.vote at hstay
  rw [hclass] at hstay
  cases hc : s.classOf link with
  -- a first vote gives the link a class
  | none =>
    rw [hc] at hstay
    have hfirst := congrArg Prod.fst hstay
    rw [hclass, hc] at hfirst
    exact absurd hfirst (by simp)
  | some q =>
    rw [hc] at hstay
    dsimp only at hstay
    split at hstay
    · -- the class it has: only a pending candidate could have moved
      rename_i heq
      have hsecond := congrArg Prod.snd hstay
      exact Or.inl ⟨by rw [hc, heq], Option.map_eq_none_iff.mp hsecond.symm⟩
    · rename_i hne
      have hq : s.classOf link ≠ some v.candidate := fun h => hne (Option.some.inj (hc.symm.trans h))
      split at hstay
      · -- confirmed: the class has changed
        have hfirst := congrArg Prod.fst hstay
        rw [hclass] at hfirst
        exact absurd hfirst.symm hq
      · -- the confirmations are the same, so the sample did not count
        have hsecond : some (v.candidate, confirmations (s.standing link).2 (s.fresh link v.ts)
            v.candidate) = (s.classifier.pending.get link).map (fun p => (p.quality, p.passes)) :=
          congrArg Prod.snd hstay
        obtain ⟨p, hp, hpair⟩ := Option.map_eq_some_iff.mp hsecond.symm
        obtain ⟨hquality, hpasses⟩ := Prod.mk.inj hpair
        refine Or.inr ⟨hc ▸ hq, p, hp, hquality, ?_⟩
        by_contra hts
        simp [PolicyState.standing, PolicyState.fresh, confirmations, hp, hquality, hts] at hpasses

/-- What makes two votes for one standing leave one standing. -/
theorem vote_eq_vote {passes : ℕ} {st : Standing} {fresh fresh' : Bool} {c c' : Quality}
    (hfew : ∀ q n, st.2 = some (q, n) → n < max passes 1)
    (h : st.vote passes fresh c = st.vote passes fresh' c') :
    c = c' ∧ (st.1.isSome → st.1 ≠ some c → ∀ n, st.2 = some (c, n) → fresh = fresh') := by
  obtain ⟨cls, pending⟩ := st
  unfold Standing.vote at h
  cases cls with
  | none => exact ⟨Option.some.inj (Prod.mk.inj h).1, fun hsome => absurd hsome (by simp)⟩
  | some q =>
    dsimp only at h hfew ⊢
    have hcand : c = c' := by
      split at h
      · rename_i heq
        split at h
        · rename_i heq'
          exact heq.symm.trans heq'
        · split at h
          · exact Option.some.inj (Prod.mk.inj h).1
          · exact absurd (Prod.mk.inj h).2 (by simp)
      · split at h
        · split at h
          · exact Option.some.inj (Prod.mk.inj h).1
          · split at h
            · exact Option.some.inj (Prod.mk.inj h).1
            · exact absurd (Prod.mk.inj h).2 (by simp)
        · split at h
          · exact absurd (Prod.mk.inj h).2 (by simp)
          · split at h
            · exact absurd (Prod.mk.inj h).2 (by simp)
            · exact (Prod.mk.inj (Option.some.inj (Prod.mk.inj h).2)).1
    subst hcand
    refine ⟨rfl, fun _ hne n hn => ?_⟩
    subst hn
    have hq : q ≠ c := fun heq => hne (congrArg some heq)
    have hn := hfew c n rfl
    rw [if_neg hq, if_neg hq] at h
    simp only [confirmations, if_true] at h
    -- one more confirmation makes a change, or a higher count
    have hapart : (if max passes 1 ≤ n + 1 then (some c, none) else (some q, some (c, n + 1))) ≠
        (some q, some (c, n)) := by
      split
      · exact fun heq => hq (Option.some.inj (Prod.mk.inj heq).1).symm
      · intro heq
        have hcount := (Prod.mk.inj (Option.some.inj (Prod.mk.inj heq).2)).2
        omega
    have hstay : ¬ max passes 1 ≤ n := not_le.mpr hn
    cases fresh with
    | true =>
      cases fresh' with
      | true => rfl
      | false => exact absurd (by simpa [hstay] using h) hapart
    | false =>
      cases fresh' with
      | true => exact absurd (by simpa [hstay] using h.symm) hapart
      | false => rfl

/-- **In step is all it takes**, and takes no more: a pass over level halves leaves them level
    exactly if it is in step. -/
theorem level_pass_iff (hmode : cfg.classifier.pair_cost = .symmetric) {vs vs' : List Vote}
    (hinv : Confirming cfg s l vs) (hinv' : Confirming cfg s r vs') (hlevel : Level l r s) :
    Level l r (classifyOnce cfg now owned s) ↔ InStep cfg l r s (.pass now owned) := by
  refine ⟨fun hafter => ?_, level_pass hmode hinv hinv' hlevel⟩
  unfold Level at hlevel hafter
  -- without a vote a half stays, so the other must have stayed as well
  cases hv : voteOf cfg now owned s l with
  | none =>
    rw [standing_of_none hv, hlevel] at hafter
    exact Or.inl ⟨fun v h => absurd (hv.symm.trans h) (by simp),
      fun v h => unmoved_of_standing h hafter.symm⟩
  | some v =>
    cases hv' : voteOf cfg now owned s r with
    | none =>
      rw [standing_of_none hv', ← hlevel] at hafter
      exact Or.inl ⟨fun v h => unmoved_of_standing h hafter,
        fun v h => absurd (hv'.symm.trans h) (by simp)⟩
    | some v' =>
      rw [standing_vote hv, standing_vote hv', ← hlevel] at hafter
      have hfew : ∀ q n, (s.standing l).2 = some (q, n) → n < max cfg.classifier.hysteresis_passes 1 := by
        intro q n hn
        obtain ⟨p, hp, hpair⟩ := Option.map_eq_some_iff.mp hn
        exact (Prod.mk.inj hpair).2 ▸ hinv.few p hp
      obtain ⟨hcand, hfresh⟩ := vote_eq_vote hfew hafter
      refine Or.inr ⟨v, v', hv, hv', Or.inr hcand, fun hne p p' hp hp' hq => ?_⟩
      -- a pending candidate belongs to a half with a class
      have hclass : (s.standing l).1.isSome := by
        by_contra hnone
        have hlast : s.classifier.last.get l = none := by
          simpa [PolicyState.standing, PolicyState.classOf] using hnone
        exact absurd (hp.symm.trans (hinv.unclassified hlast)) (by simp)
      have hsame := hfresh hclass hne p.passes (by simp [PolicyState.standing, hp, hq])
      simp only [PolicyState.fresh, hp, hp', Option.all_some] at hsame
      by_cases hts : p.last_ts = v.ts <;> by_cases hts' : p'.last_ts = v'.ts <;> simp_all

variable (cfg) in
/-- One event, as a step. -/
def PolicyState.step (s : PolicyState F) (e : PolicyEvent F) : Option (PolicyState F) :=
  some (s.handle cfg e)

/-- **Run lemma.** In a run of passes in step the halves are level. -/
theorem level_of_runs (hmode : cfg.classifier.pair_cost = .symmetric) {tsdb : Tsdb F}
    {kv : LwwStore F}
    (hrun : Runs (PolicyState.step cfg) (InStep cfg l r) (PolicyState.start tsdb kv) s) :
    Level l r s ∧ (∃ vs, Confirming cfg s l vs) ∧ ∃ vs, Confirming cfg s r vs := by
  have hstart : ∀ link, Confirming cfg (PolicyState.start tsdb kv) link [] := fun link =>
    ⟨fun _ => rfl, fun _ hp => absurd hp (by simp [PolicyState.start, ClassifierState.new]),
      fun _ hp => absurd hp (by simp [PolicyState.start, ClassifierState.new]),
      fun _ hp => absurd hp (by simp [PolicyState.start, ClassifierState.new])⟩
  refine hrun.invariant (I := fun t => Level l r t ∧ (∃ vs, Confirming cfg t l vs) ∧
    ∃ vs, Confirming cfg t r vs) ⟨rfl, ⟨[], hstart l⟩, ⟨[], hstart r⟩⟩ ?_
  rintro t e t' ⟨hlevel, ⟨vs, hinv⟩, ⟨vs', hinv'⟩⟩ hin hstep
  obtain rfl := Option.some.inj hstep
  refine ⟨?_, ⟨_, hinv.handle e⟩, ⟨_, hinv'.handle e⟩⟩
  cases e with
  | pass now owned => exact level_pass hmode hinv hinv' hlevel hin
  | ingest link x persist => exact hlevel
  | prune now => exact hlevel

/-- **One quality for both halves.** In a run in step, a pass in step that classifies both halves of
    a tunnel derives the same quality for both. -/
theorem symmetric_of_inStep (hmode : cfg.classifier.pair_cost = .symmetric) {tsdb : Tsdb F}
    {kv : LwwStore F}
    (hrun : Runs (PolicyState.step cfg) (InStep cfg l r) (PolicyState.start tsdb kv) s)
    (hin : InStep cfg l r s (.pass now owned)) :
    (classifyOnce cfg now owned s).classOf l = (classifyOnce cfg now owned s).classOf r := by
  obtain ⟨hlevel, ⟨vs, hinv⟩, ⟨vs', hinv'⟩⟩ := level_of_runs hmode hrun
  exact congrArg Prod.fst (level_pass hmode hinv hinv' hlevel hin)

end Runs

/-! ### Two halves -/

section Example

attribute [local instance] natArith

/-- The reverse half. -/
private def reverseKey : LinkKey := ⟨"hub-b", "hub-a", "awg7"⟩

/-- As in `twoVotes`, with the tunnel costed as one. -/
private def symmetricVotes : Config ℕ :=
  { twoVotes with classifier := { twoVotes.classifier with pair_cost := .symmetric } }

/-- A store without samples. -/
private def fresh : PolicyState ℕ := .start (Tsdb.new ⟨"", 7200, 86400⟩) .new

/-- Both halves are good, and then report a longer round trip. -/
private def together : List (PolicyEvent ℕ) :=
  [.ingest echoKey (rttSample 100 20) true, .ingest reverseKey (rttSample 100 20) true,
    .pass 101 [echoKey, reverseKey],
    .ingest echoKey (rttSample 115 80) true, .ingest reverseKey (rttSample 115 80) true]

private theorem runs_together :
    Runs (PolicyState.step symmetricVotes) (InStep symmetricVotes echoKey reverseKey) fresh
      (fresh.run symmetricVotes together) := by
  have hpass : InStep symmetricVotes echoKey reverseKey
      (fresh.run symmetricVotes (together.take 2)) (.pass 101 [echoKey, reverseKey]) := by
    -- the first classification of both
    have hnone : (fresh.run symmetricVotes (together.take 2)).classifier.pending.get echoKey = none := by
      decide
    exact Or.inr ⟨⟨100, .good⟩, ⟨100, .good⟩, by decide, by decide, Or.inr rfl,
      fun _ p _ hp => absurd (hnone.symm.trans hp) (by simp)⟩
  exact .cons (.ingest echoKey (rttSample 100 20) true) trivial rfl
    (.cons (.ingest reverseKey (rttSample 100 20) true) trivial rfl
      (.cons (.pass 101 [echoKey, reverseKey]) hpass rfl
        (.cons (.ingest echoKey (rttSample 115 80) true) trivial rfl
          (.cons (.ingest reverseKey (rttSample 115 80) true) trivial rfl (.refl _)))))

/-- The first vote for a worse class leaves both halves good. -/
theorem symmetric_together :
    (classifyOnce symmetricVotes 116 [echoKey, reverseKey]
        (fresh.run symmetricVotes together)).classOf echoKey =
      (classifyOnce symmetricVotes 116 [echoKey, reverseKey]
        (fresh.run symmetricVotes together)).classOf reverseKey := by
  have hnone : (fresh.run symmetricVotes together).classifier.pending.get echoKey = none := by decide
  exact symmetric_of_inStep (show symmetricVotes.classifier.pair_cost = .symmetric from rfl)
    runs_together (Or.inr ⟨⟨115, .acceptable⟩, ⟨115, .acceptable⟩, by decide, by decide, Or.inr rfl,
      fun _ p _ hp => absurd (hnone.symm.trans hp) (by simp)⟩)

/-- The same, but the reverse half has no further samples. -/
private def apart : List (PolicyEvent ℕ) :=
  [.ingest echoKey (rttSample 100 20) true, .ingest reverseKey (rttSample 100 20) true,
    .pass 101 [echoKey, reverseKey], .ingest echoKey (rttSample 115 80) true,
    .pass 116 [echoKey, reverseKey], .ingest echoKey (rttSample 130 80) true]

/-- **The halves confirm apart.** Both are classified from the merged window in every pass; the
    second sample of the one confirms its change, while the other has counted its own already. -/
theorem halves_confirm_apart :
    symmetricVotes.classifier.pair_cost = .symmetric ∧
      pairOf (fresh.run symmetricVotes apart).tsdb.links echoKey = some reverseKey ∧
      (voteOf symmetricVotes 131 [echoKey, reverseKey] (fresh.run symmetricVotes apart)
        echoKey).isSome ∧
      (voteOf symmetricVotes 131 [echoKey, reverseKey] (fresh.run symmetricVotes apart)
        reverseKey).isSome ∧
      (classifyOnce symmetricVotes 131 [echoKey, reverseKey]
        (fresh.run symmetricVotes apart)).classOf echoKey = some .acceptable ∧
      (classifyOnce symmetricVotes 131 [echoKey, reverseKey]
        (fresh.run symmetricVotes apart)).classOf reverseKey = some .good := by
  decide

end Example

end Mielofon
