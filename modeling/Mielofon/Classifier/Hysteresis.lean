import Mathlib
import Mielofon.Classifier.Pass
import Mielofon.Lib.Folds
import Mielofon.Tsdb.Redelivery

namespace Mielofon

open Lib

/-!
# Hysteresis

A link changes its class only after enough fresh samples in a row stood for the new one.  A run
is any interleaving of sample arrivals, prunes and classification passes; the passes that
classify a link leave it a sequence of votes, and the confirmation pending for the link is
backed by the last of them.

* `PolicyEvent`, `PolicyState.run` — the runs;
* `Vote`, `votes` — the newest sample and the candidate of every pass that classified a link;
* `Ring.Reaches` — how new the samples of a ring ever were, which never goes back;
* `classifyOnce_spec` — what a pass does to the class and the confirmation of a link;
* `Backed`, `Confirming` — the invariant, and `confirming_run`, that every run keeps it;
* `hysteresis` — what a change of class took, and that a held pass changes nothing.
-/

variable {F : Type*}

/-! ### How new a ring ever was -/

/-- The ring holds a sample from `ts` on, or its floor is there. -/
def Ring.Reaches (r : Ring F) (ts : ℕ) : Prop := ts ≤ r.floor ∨ ∃ x ∈ r.samples, ts ≤ x.ts

theorem Ring.Reaches.offer [LinearOrder F] {r : Ring F} {ts : ℕ} (h : r.Reaches ts)
    (s : RawSample F) : (r.offer s).1.Reaches ts := by
  rcases h with hle | ⟨x, hx, hle⟩
  · exact Or.inl (hle.trans (Ring.offer_spec r s).floor_le)
  · have hin : x.ts ∈ r.seconds ∪ secondsAbove r.floor [s] :=
      Finset.mem_union_left _ (Ring.mem_seconds.mpr ⟨x, Ring.sampleAt_of_mem hx⟩)
    obtain ⟨y, hy, hxy⟩ := Ring.exists_newest_offers hin
    exact Or.inr ⟨y, hy.1, hle.trans hxy⟩

theorem Ring.Reaches.prune {r : Ring F} {ts : ℕ} (h : r.Reaches ts) (cut : ℕ) :
    (r.prune cut).Reaches ts := by
  rcases h with hle | ⟨x, hx, hle⟩
  · exact Or.inl (hle.trans (r.floor_le_prune cut))
  · rcases Nat.lt_or_ge x.ts cut with hlt | hge
    · exact Or.inl (hle.trans (Ring.le_floor_prune
        (Ring.mem_seconds.mpr ⟨x, Ring.sampleAt_of_mem hx⟩) hlt))
    · have hkept : (r.prune cut).sampleAt x.ts = some x := by
        rw [Ring.sampleAt_prune, if_neg (not_lt.mpr hge), Ring.sampleAt_of_mem hx]
      exact Or.inr ⟨x, (Ring.sampleAt_eq_some_iff.mp hkept).1, hle⟩

/-- The newest sample is as new as the ring ever was. -/
theorem Ring.Reaches.le_newest {r : Ring F} {ts : ℕ} {x : RawSample F} (h : r.Reaches ts)
    (hx : r.Newest x) : ts ≤ x.ts := by
  rcases h with hle | ⟨y, hy, hle⟩
  · have := r.above x hx.1
    omega
  · exact hle.trans (hx.2 y hy)

/-- A window carries the second of the newest sample, which is not 0. -/
theorem Ring.window_ts [Zero F] {r : Ring F} {spec : WindowSpec} {now : ℕ} {view : WindowView F}
    (h : r.window spec now = some view) :
    0 < view.ts ∧ r.Reaches view.ts ∧ ∀ ts, r.Reaches ts → ts ≤ view.ts := by
  rw [Ring.window_eq, Option.map_eq_some_iff] at h
  obtain ⟨x, hx, rfl⟩ := h
  obtain ⟨hnew, -⟩ := Ring.newestWithin_eq_some_iff.mp hx
  have hpos := r.above x hnew.1
  exact ⟨by show 0 < x.ts; omega, Or.inr ⟨x, hnew.1, le_refl _⟩, fun ts h => h.le_newest hnew⟩

/-! ### Runs and votes -/

/-- What happens between passes, and a pass with the links of this node's agents at the time. -/
inductive PolicyEvent (F : Type*) where
  | ingest (link : LinkKey) (s : RawSample F) (persist : Bool)
  | prune (now : ℕ)
  | pass (now : ℕ) (owned : List LinkKey)

/-- What a pass that classified a link saw: the second of the newest sample, and the candidate. -/
structure Vote where
  ts : ℕ
  candidate : Quality
deriving DecidableEq, Repr

section Runs

variable [LinearOrder F] [Arith F] (cfg : Config F)

/-- The vote of a pass over a link; `none` where it does not classify the link. -/
def voteOf (now : ℕ) (owned : List LinkKey) (s : PolicyState F) (link : LinkKey) : Option Vote :=
  let views := (foldPairs cfg now owned s).views
  if link ∈ s.tsdb.links.filter owned.contains then
    (views.get link).bind (fun view =>
      (candidateOf cfg now view (classView cfg (pairsOf cfg s.tsdb.links) views link view)).map
        (⟨view.ts, ·⟩))
  else none

/-- A pass that holds the last decision for a link: the link is in use, or unmeasured. -/
def HeldBy (now : ℕ) (owned : List LinkKey) (s : PolicyState F) (link : LinkKey) : Prop :=
  let views := (foldPairs cfg now owned s).views
  ∃ view, views.get link = some view ∧
    (view.busyHeld now cfg.classifier.busy_hold_secs = true ∨
      (classView cfg (pairsOf cfg s.tsdb.links) views link view).measured = false)

namespace PolicyState

/-- A node that has classified nothing yet. -/
def start (tsdb : Tsdb F) (kv : LwwStore F) : PolicyState F := ⟨tsdb, .new, kv⟩

/-- The class held for a link. -/
def classOf (s : PolicyState F) (link : LinkKey) : Option Quality :=
  (s.classifier.last.get link).map LastPolicy.quality

/-- One event. -/
def handle (s : PolicyState F) : PolicyEvent F → PolicyState F
  | .ingest link x persist => { s with tsdb := (s.tsdb.ingest link x persist).1 }
  | .prune now => { s with tsdb := s.tsdb.prune now }
  | .pass now owned => classifyOnce cfg now owned s

/-- A run. -/
def run (s : PolicyState F) (es : List (PolicyEvent F)) : PolicyState F := es.foldl (handle cfg) s

/-- The vote of an event over a link. -/
def vote (link : LinkKey) (s : PolicyState F) : PolicyEvent F → Option Vote
  | .pass now owned => voteOf cfg now owned s link
  | _ => none

/-- The votes of a run over a link, in order. -/
def votes (link : LinkKey) : PolicyState F → List (PolicyEvent F) → List Vote
  | _, [] => []
  | s, e :: es => (vote cfg link s e).toList ++ votes link (s.handle cfg e) es

theorem votes_append (link : LinkKey) (s : PolicyState F) (es es' : List (PolicyEvent F)) :
    s.votes cfg link (es ++ es') = s.votes cfg link es ++ (s.run cfg es).votes cfg link es' := by
  induction es generalizing s with
  | nil => rfl
  | cons e es ih =>
    show (vote cfg link s e).toList ++ (s.handle cfg e).votes cfg link (es ++ es') = _
    rw [ih, ← List.append_assoc]
    rfl

end PolicyState

end Runs

/-! ### The stores during a pass -/

section Store

variable [LinearOrder F]

theorem Tsdb.reaches_ingest [Zero F] [Add F] {t : Tsdb F} {l : LinkKey} {ts : ℕ}
    (h : (t.ringOf l).Reaches ts) (link : LinkKey) (s : RawSample F) (persist : Bool) :
    ((t.ingest link s persist).1.ringOf l).Reaches ts := by
  rw [Tsdb.ringOf_ingest]
  split
  · rename_i hl
    exact (hl ▸ h).offer s
  · exact h

/-- The rings of `t'` are at least as new as those of `t`. -/
def Tsdb.NotOlder (t t' : Tsdb F) : Prop :=
  ∀ l ts, (t.ringOf l).Reaches ts → (t'.ringOf l).Reaches ts

variable [Arith F] (cfg : Config F) (now : ℕ)

/-- The passive tier of a link leaves the time of its view, and the rings no older. -/
theorem foldMarking_spec (link rev : LinkKey) (owned : Bool) (t : Tsdb F)
    (totals : Map LinkKey MarkTotals) (view : WindowView F) :
    (foldMarking cfg now link rev owned t totals view).2.2.ts = view.ts ∧
      t.NotOlder (foldMarking cfg now link rev owned t totals view).1 := by
  have hwrite : ∀ (t : Tsdb F) (b : Block), t.NotOlder (writeResult link t b) := by
    intro t b l ts h
    unfold writeResult
    split
    · exact Tsdb.reaches_ingest h link _ true
    · exact h
  unfold foldMarking
  dsimp only
  split
  · exact ⟨rfl, fun _ _ h => h⟩
  · split
    · exact ⟨rfl, fun _ _ h => h⟩
    · exact ⟨rfl, foldl_rel (fun _ _ _ h => h) (fun _ _ _ h h' l ts hr => h' l ts (h l ts hr))
        hwrite _ t⟩

/-- What the first half of a pass keeps: the times of the views, and how new the rings are. -/
structure Folding.Keeps (f f' : Folding F) : Prop where
  time : ∀ l view, f'.views.get l = some view → ∃ w, f.views.get l = some w ∧ view.ts = w.ts
  rings : f.tsdb.NotOlder f'.tsdb

omit [Arith F] [LinearOrder F] in
theorem Folding.Keeps.refl (f : Folding F) : f.Keeps f := ⟨fun _ view h => ⟨view, h, rfl⟩, fun _ _ h => h⟩

omit [Arith F] [LinearOrder F] in
theorem Folding.Keeps.trans {f f' f'' : Folding F} (h : f.Keeps f') (h' : f'.Keeps f'') :
    f.Keeps f'' := by
  refine ⟨fun l view hview => ?_, fun l ts hr => h'.rings l ts (h.rings l ts hr)⟩
  obtain ⟨w, hw, hts⟩ := h'.time l view hview
  obtain ⟨w', hw', hts'⟩ := h.time l w hw
  exact ⟨w', hw', hts.trans hts'⟩

theorem keeps_foldPair (owned : List LinkKey) (f : Folding F) (pair : LinkKey × LinkKey) :
    f.Keeps (foldPair cfg now owned f pair) := by
  unfold foldPair
  dsimp only
  split
  · exact .refl f
  split
  · rename_i view hview
    have hspec := foldMarking_spec cfg now pair.1 pair.2 (owned.contains pair.1) f.tsdb f.totals view
    refine ⟨fun l view' h => ?_, hspec.2⟩
    rw [Map.get_set] at h
    split at h
    · rename_i hl
      obtain rfl := Option.some.inj h
      exact ⟨view, hl ▸ hview, hspec.1⟩
    · exact ⟨view', h, rfl⟩
  · exact .refl f

omit [LinearOrder F] in
theorem get_addView {t : Tsdb F} {views : Map LinkKey (WindowView F)} {k l : LinkKey}
    {view : WindowView F} (h : (addView cfg now t views k).get l = some view) :
    views.get l = some view ∨ t.window l (windowSpec cfg) now = some view := by
  unfold addView at h
  cases hwindow : t.window k (windowSpec cfg) now with
  | none =>
    rw [hwindow] at h
    exact Or.inl h
  | some found =>
    rw [hwindow] at h
    by_cases hlk : l = k
    · subst hlk
      exact Or.inr (hwindow.trans ((Map.get_set_self _ _ _).symm.trans h))
    · exact Or.inl ((Map.get_set_ne _ _ hlk).symm.trans h)

omit [LinearOrder F] in
theorem get_viewsOf {t : Tsdb F} {links : List LinkKey} {l : LinkKey} {view : WindowView F}
    (h : (viewsOf cfg now t links).get l = some view) :
    t.window l (windowSpec cfg) now = some view := by
  -- every step of the loop stores the window of its link, or nothing
  have hkeep := foldl_rel (f := addView cfg now t)
    (R := fun views views' : Map LinkKey (WindowView F) => ∀ w, views'.get l = some w →
      views.get l = some w ∨ t.window l (windowSpec cfg) now = some w)
    (fun _ _ h => Or.inl h)
    (fun _ _ _ h h' w hw => (h' w hw).elim (h w) Or.inr) (fun _ _ _ hw => get_addView cfg now hw) links ∅
  exact (hkeep view h).resolve_left (by simp)

/-- The first half of a pass: the views carry the times of the windows, and the rings get no
    older. -/
theorem foldPairs_spec (owned : List LinkKey) (s : PolicyState F) :
    (∀ l view, (foldPairs cfg now owned s).views.get l = some view →
        ∃ w, s.tsdb.window l (windowSpec cfg) now = some w ∧ view.ts = w.ts) ∧
      s.tsdb.NotOlder (foldPairs cfg now owned s).tsdb := by
  have hkeeps := foldl_rel Folding.Keeps.refl (fun _ _ _ => Folding.Keeps.trans)
    (keeps_foldPair cfg now owned) (pairLinks s.tsdb.links)
    ⟨s.tsdb, s.classifier.totals, viewsOf cfg now s.tsdb s.tsdb.links⟩
  refine ⟨fun l view h => ?_, hkeeps.rings⟩
  obtain ⟨w, hw, hts⟩ := hkeeps.time l view h
  exact ⟨w, get_viewsOf cfg now hw, hts⟩

end Store

/-! ### What a pass does to one link -/

/-- The outcomes of a vote: the class afterwards and what is pending afterwards. -/
inductive Decided (passes : ℕ) (last : Option LastPolicy) (held : Option Pending) (v : Vote) :
    Quality → Option Pending → Prop
  /-- The first class of the link. -/
  | first (hlast : last = none) : Decided passes last held v v.candidate held
  /-- The class it has. -/
  | same (l : LastPolicy) (hlast : last = some l) (heq : l.quality = v.candidate) :
      Decided passes last held v v.candidate none
  /-- Another class, with enough votes. -/
  | changed (l : LastPolicy) (hlast : last = some l) (hne : l.quality ≠ v.candidate)
      (henough : max passes 1 ≤ (nextPending held v.ts v.candidate).passes) :
      Decided passes last held v v.candidate none
  /-- Another class, with too few. -/
  | waiting (l : LastPolicy) (hlast : last = some l) (hne : l.quality ≠ v.candidate)
      (hfew : (nextPending held v.ts v.candidate).passes < max passes 1) :
      Decided passes last held v l.quality (some (nextPending held v.ts v.candidate))

theorem confirm_spec (passes : ℕ) (last : Option LastPolicy) (pending : Map LinkKey Pending)
    (link : LinkKey) (v : Vote) :
    Decided passes last (pending.get link) v
      (confirm passes last pending link v.ts v.candidate).1
      ((confirm passes last pending link v.ts v.candidate).2.get link) := by
  unfold confirm
  cases last with
  | none => exact .first rfl
  | some l =>
    dsimp only
    split
    · rename_i heq
      rw [Map.get_erase, if_pos rfl]
      exact .same l rfl heq
    · rename_i hne
      split
      · rename_i henough
        rw [Map.get_erase, if_pos rfl]
        exact .changed l rfl hne henough
      · rename_i hfew
        rw [Map.get_set_self]
        exact .waiting l rfl hne (not_le.mp hfew)

/-- A vote over one link leaves the confirmations of the others. -/
theorem confirm_frame (passes : ℕ) (last : Option LastPolicy) (pending : Map LinkKey Pending)
    {link l : LinkKey} (ts : ℕ) (candidate : Quality) (h : l ≠ link) :
    (confirm passes last pending link ts candidate).2.get l = pending.get l := by
  unfold confirm
  split
  · rfl
  dsimp only
  split
  · rw [Map.get_erase, if_neg h]
  · split
    · rw [Map.get_erase, if_neg h]
    · rw [Map.get_set_ne _ _ h]

/-- What the classifier keeps of one link's class. -/
def kept (link : LinkKey) (s : ClassifierState) : Option LastPolicy × Option Pending :=
  (s.last.get link, s.pending.get link)

section Pass

variable [LinearOrder F] (cfg : Config F) (now : ℕ)

theorem classifyLink_frame (pairs : LinkKey → Option LinkKey) (views : Map LinkKey (WindowView F))
    (s : ClassifierState × LwwStore F) {link l : LinkKey} (h : link ≠ l) :
    kept l (classifyLink cfg now pairs views s link).1 = kept l s.1 := by
  unfold classifyLink
  split
  · rfl
  split
  · rfl
  · refine Prod.ext ?_ ?_
    · exact Map.get_set_ne _ _ h.symm
    · exact confirm_frame _ _ _ _ _ h.symm

omit [LinearOrder F] in
theorem nodup_links (t : Tsdb F) : t.links.Nodup := t.byLink.keys_nodup.filter _

variable [Arith F]

/-- A pass changes what it keeps of a link in the link's own turn. -/
theorem kept_classifyOnce (owned : List LinkKey) (s : PolicyState F) (link : LinkKey) :
    let views := (foldPairs cfg now owned s).views
    ∃ s' : ClassifierState × LwwStore F, kept link s'.1 = kept link s.classifier ∧
      kept link (classifyOnce cfg now owned s).classifier =
        if link ∈ s.tsdb.links.filter owned.contains then
          kept link (classifyLink cfg now (pairsOf cfg s.tsdb.links) views s' link).1
        else kept link s'.1 := by
  intro views
  have hframe : ∀ (x : ClassifierState × LwwStore F) (k : LinkKey), k ≠ link →
      kept link (classifyLink cfg now (pairsOf cfg s.tsdb.links) views x k).1 = kept link x.1 :=
    fun x k hk => classifyLink_frame cfg now _ _ x hk
  have hnd : ((s.tsdb.links.filter owned.contains).map id).Nodup := by
    rw [List.map_id]
    exact (nodup_links s.tsdb).filter _
  let init : ClassifierState × LwwStore F :=
    ({ s.classifier with totals := (foldPairs cfg now owned s).totals }, s.kv)
  let obs := fun x : ClassifierState × LwwStore F => kept link x.1
  split
  · rename_i hmem
    exact foldl_at id obs hframe hnd hmem rfl init
  · rename_i hmem
    refine ⟨init, rfl, ?_⟩
    exact foldl_frame id obs hframe (fun k hk (he : k = link) => hmem (he ▸ hk)) init

/-- A pass that does not classify a link leaves its class and confirmation. -/
theorem kept_classifyOnce_of_none {owned : List LinkKey} {s : PolicyState F} {link : LinkKey}
    (h : voteOf cfg now owned s link = none) :
    kept link (classifyOnce cfg now owned s).classifier = kept link s.classifier := by
  obtain ⟨s', hs', hkept⟩ := kept_classifyOnce cfg now owned s link
  rw [hkept]
  split
  · rename_i hmem
    unfold voteOf at h
    rw [if_pos hmem] at h
    unfold classifyLink
    cases hview : (foldPairs cfg now owned s).views.get link with
    | none => exact hs'
    | some view =>
      rw [hview, Option.bind_some, Option.map_eq_none_iff] at h
      simp only [h]
      exact hs'
  · exact hs'

/-- A pass that classifies a link decides on its vote. -/
theorem kept_classifyOnce_of_some {owned : List LinkKey} {s : PolicyState F} {link : LinkKey} {v : Vote}
    (h : voteOf cfg now owned s link = some v) :
    ∃ q cost pending, kept link (classifyOnce cfg now owned s).classifier = (some ⟨q, cost⟩, pending) ∧
      Decided cfg.classifier.hysteresis_passes (s.classifier.last.get link)
        (s.classifier.pending.get link) v q pending := by
  obtain ⟨s', hs', hkept⟩ := kept_classifyOnce cfg now owned s link
  unfold voteOf at h
  split at h
  · rename_i hmem
    rw [if_pos hmem] at hkept
    rw [Option.bind_eq_some_iff] at h
    obtain ⟨view, hview, hcand⟩ := h
    rw [Option.map_eq_some_iff] at hcand
    obtain ⟨candidate, hcand, rfl⟩ := hcand
    unfold classifyLink at hkept
    simp only [hview, hcand] at hkept
    have hlast : s'.1.last.get link = s.classifier.last.get link := congrArg Prod.fst hs'
    have hpending : s'.1.pending.get link = s.classifier.pending.get link := congrArg Prod.snd hs'
    have hspec := confirm_spec cfg.classifier.hysteresis_passes (s'.1.last.get link) s'.1.pending
      link ⟨view.ts, candidate⟩
    refine ⟨_, _, _, hkept.trans (Prod.ext (Map.get_set_self _ _ _) rfl), ?_⟩
    rw [← hlast, ← hpending]
    exact hspec
  · exact absurd h (by simp)

/-- What a vote says of the rings: it carries the second of the newest sample. -/
theorem voteOf_ts {owned : List LinkKey} {s : PolicyState F} {link : LinkKey} {v : Vote}
    (h : voteOf cfg now owned s link = some v) :
    0 < v.ts ∧ (s.tsdb.ringOf link).Reaches v.ts ∧
      ∀ ts, (s.tsdb.ringOf link).Reaches ts → ts ≤ v.ts := by
  unfold voteOf at h
  split at h
  · rw [Option.bind_eq_some_iff] at h
    obtain ⟨view, hview, hcand⟩ := h
    rw [Option.map_eq_some_iff] at hcand
    obtain ⟨candidate, _, rfl⟩ := hcand
    obtain ⟨w, hw, hts⟩ := (foldPairs_spec cfg now owned s).1 link view hview
    rw [Tsdb.window_eq] at hw
    have hspec := Ring.window_ts hw
    show 0 < view.ts ∧ _ ∧ _
    rw [hts]
    exact hspec
  · exact absurd h (by simp)

end Pass

/-! ### The invariant -/

/-- The last votes all stood for the pending candidate, and as many of them as it counts, the last
    of them included, came with samples newer each time. -/
def Backed (votes : List Vote) (p : Pending) : Prop :=
  ∃ older recent counted : List Vote, votes = older ++ recent ∧ (∀ v ∈ recent, v.candidate = p.quality) ∧
    counted.Sublist recent ∧ counted.Pairwise (fun v w => v.ts < w.ts) ∧
    counted.length = p.passes ∧ counted.getLast? = some ⟨p.last_ts, p.quality⟩

/-- One more vote, counted towards its candidate. -/
theorem backed_nextPending {votes : List Vote} {held : Option Pending} {v : Vote} (hpos : 0 < v.ts)
    (hheld : ∀ p, held = some p → Backed votes p ∧ p.last_ts ≤ v.ts) :
    Backed (votes ++ [v]) (nextPending held v.ts v.candidate) ∧
      nextPending held v.ts v.candidate = ⟨v.candidate,
        (nextPending held v.ts v.candidate).passes, v.ts⟩ := by
  have hfresh : Backed (votes ++ [v]) ⟨v.candidate, 1, v.ts⟩ :=
    ⟨votes, [v], [v], rfl, by simp, List.Sublist.refl _, List.pairwise_singleton _ _, rfl, rfl⟩
  have hts : (0 : ℕ) ≠ v.ts := by omega
  cases held with
  | none =>
    have hnext : nextPending none v.ts v.candidate = ⟨v.candidate, 1, v.ts⟩ := by
      simp [nextPending, hts]
    rw [hnext]
    exact ⟨hfresh, rfl⟩
  | some p =>
    obtain ⟨⟨older, recent, counted, heq, hall, hsub, hasc, hlen, hlast⟩, hle⟩ := hheld p rfl
    by_cases hq : p.quality = v.candidate
    · by_cases hsame : p.last_ts = v.ts
      · -- the same sample again
        have hnext : nextPending (some p) v.ts v.candidate = p := by
          simp [nextPending, hq, hsame]
        rw [hnext]
        refine ⟨⟨older, recent ++ [v], counted, by rw [heq, List.append_assoc], ?_,
          hsub.trans (List.sublist_append_left _ _), hasc, hlen, hlast⟩, by rw [← hq, ← hsame]⟩
        intro w hw
        rcases List.mem_append.mp hw with hw | hw
        · exact hall w hw
        · rw [List.mem_singleton.mp hw, hq]
      · -- a newer sample with the same candidate: one pass more
        have hnext : nextPending (some p) v.ts v.candidate = ⟨v.candidate, p.passes + 1, v.ts⟩ := by
          simp [nextPending, hq, hsame]
        rw [hnext]
        refine ⟨⟨older, recent ++ [v], counted ++ [v], by rw [heq, List.append_assoc], ?_,
          hsub.append_right [v], ?_, by rw [List.length_append, hlen]; rfl,
          List.getLast?_concat⟩, rfl⟩
        · intro w hw
          rcases List.mem_append.mp hw with hw | hw
          · exact (hall w hw).trans hq
          · rw [List.mem_singleton.mp hw]
        · -- the sample counted last was the newest of those counted
          obtain ⟨init, hinit⟩ := List.getLast?_eq_some_iff.mp hlast
          refine List.pairwise_append.mpr ⟨hasc, List.pairwise_singleton _ _, fun w hw x hx => ?_⟩
          rw [List.mem_singleton.mp hx]
          rw [hinit] at hasc hw
          rcases List.mem_append.mp hw with hw | hw
          · have := (List.pairwise_append.mp hasc).2.2 w hw _ (List.mem_singleton_self _)
            dsimp only at this
            omega
          · rw [List.mem_singleton.mp hw]
            dsimp only
            omega
    · -- a different candidate starts anew
      have hnext : nextPending (some p) v.ts v.candidate = ⟨v.candidate, 1, v.ts⟩ := by
        simp [nextPending, hq, hts]
      rw [hnext]
      exact ⟨hfresh, rfl⟩

section Invariant

variable [LinearOrder F] [Arith F] (cfg : Config F)

/-- What is pending for a link is backed by its votes, short of what a change takes, and counted up
    to a sample the ring has. -/
structure Confirming (s : PolicyState F) (link : LinkKey) (votes : List Vote) : Prop where
  unclassified : s.classifier.last.get link = none → s.classifier.pending.get link = none
  backed : ∀ p, s.classifier.pending.get link = some p → Backed votes p
  few : ∀ p, s.classifier.pending.get link = some p →
    p.passes < max cfg.classifier.hysteresis_passes 1
  reached : ∀ p, s.classifier.pending.get link = some p → (s.tsdb.ringOf link).Reaches p.last_ts

variable {cfg} {s : PolicyState F} {link : LinkKey} {vs : List Vote}

omit [LinearOrder F] [Arith F] in
/-- An event that leaves what is kept of the link, and its ring no older, keeps the invariant. -/
theorem Confirming.of_kept (h : Confirming cfg s link vs) {s' : PolicyState F}
    (hkept : kept link s'.classifier = kept link s.classifier)
    (hrings : s.tsdb.NotOlder s'.tsdb) : Confirming cfg s' link vs := by
  have hlast : s'.classifier.last.get link = s.classifier.last.get link := congrArg Prod.fst hkept
  have hpending : s'.classifier.pending.get link = s.classifier.pending.get link :=
    congrArg Prod.snd hkept
  refine ⟨fun hl => ?_, fun p hp => ?_, fun p hp => ?_, fun p hp => ?_⟩
  · rw [hpending]
    exact h.unclassified (hlast ▸ hl)
  · exact h.backed p (hpending ▸ hp)
  · exact h.few p (hpending ▸ hp)
  · exact hrings link p.last_ts (h.reached p (hpending ▸ hp))

/-- The next confirmation is backed by the votes and the one just cast. -/
theorem Confirming.next (h : Confirming cfg s link vs) {now : ℕ} {owned : List LinkKey} {v : Vote}
    (hv : voteOf cfg now owned s link = some v) :
    Backed (vs ++ [v]) (nextPending (s.classifier.pending.get link) v.ts v.candidate) ∧
      nextPending (s.classifier.pending.get link) v.ts v.candidate = ⟨v.candidate,
        (nextPending (s.classifier.pending.get link) v.ts v.candidate).passes, v.ts⟩ := by
  obtain ⟨hpos, _, hnewest⟩ := voteOf_ts cfg now hv
  exact backed_nextPending hpos (fun p hp => ⟨h.backed p hp, hnewest _ (h.reached p hp)⟩)

/-- A pass keeps the invariant. -/
theorem Confirming.pass (h : Confirming cfg s link vs) (now : ℕ) (owned : List LinkKey) :
    Confirming cfg (classifyOnce cfg now owned s) link
      (vs ++ (voteOf cfg now owned s link).toList) := by
  have hrings : s.tsdb.NotOlder (classifyOnce cfg now owned s).tsdb :=
    (foldPairs_spec cfg now owned s).2
  cases hv : voteOf cfg now owned s link with
  | none =>
    rw [Option.toList_none, List.append_nil]
    exact h.of_kept (kept_classifyOnce_of_none cfg now hv) hrings
  | some v =>
    obtain ⟨q, cost, pending, hkept, hdec⟩ := kept_classifyOnce_of_some cfg now hv
    have hlast : (classifyOnce cfg now owned s).classifier.last.get link = some ⟨q, cost⟩ :=
      congrArg Prod.fst hkept
    have hpending : (classifyOnce cfg now owned s).classifier.pending.get link = pending :=
      congrArg Prod.snd hkept
    -- whatever ends without a pending candidate has nothing left to back
    have hnone : pending = none →
        Confirming cfg (classifyOnce cfg now owned s) link (vs ++ [v]) := by
      intro hnone
      have habs : ∀ p, (classifyOnce cfg now owned s).classifier.pending.get link ≠ some p :=
        fun p hp => absurd (hp.symm.trans (hpending.trans hnone)) (by simp)
      exact ⟨fun hl => absurd (hlast.symm.trans hl) (by simp), fun p hp => absurd hp (habs p),
        fun p hp => absurd hp (habs p), fun p hp => absurd hp (habs p)⟩
    cases hdec with
    | first hnoclass => exact hnone (h.unclassified hnoclass)
    | same => exact hnone rfl
    | changed => exact hnone rfl
    -- the candidate waits: the vote is one more that backs it
    | waiting l _ _ hfew =>
      obtain ⟨hbacked, hnext⟩ := h.next hv
      have hval : ∀ p, (classifyOnce cfg now owned s).classifier.pending.get link = some p →
          p = nextPending (s.classifier.pending.get link) v.ts v.candidate :=
        fun p hp => Option.some.inj (hp.symm.trans hpending)
      refine ⟨fun hl => absurd (hlast.symm.trans hl) (by simp), fun p hp => ?_, fun p hp => ?_,
        fun p hp => ?_⟩
      · exact hval p hp ▸ hbacked
      · exact hval p hp ▸ hfew
      · rw [hval p hp, hnext]
        exact hrings link v.ts (voteOf_ts cfg now hv).2.1

/-- Every event keeps the invariant. -/
theorem Confirming.handle (h : Confirming cfg s link vs) (e : PolicyEvent F) :
    Confirming cfg (s.handle cfg e) link (vs ++ (s.vote cfg link e).toList) := by
  cases e with
  | ingest l x persist =>
    show Confirming cfg _ link (vs ++ [])
    rw [List.append_nil]
    exact h.of_kept rfl (fun _ _ hr => Tsdb.reaches_ingest hr l x persist)
  | prune now =>
    show Confirming cfg _ link (vs ++ [])
    rw [List.append_nil]
    refine h.of_kept rfl (fun l ts hr => ?_)
    show ((s.tsdb.prune now).ringOf l).Reaches ts
    rw [Tsdb.ringOf_prune]
    exact hr.prune _
  | pass now owned => exact h.pass now owned

/-- **Run rule.** Every run keeps the invariant. -/
theorem confirming_run (h : Confirming cfg s link vs) (es : List (PolicyEvent F)) :
    Confirming cfg (s.run cfg es) link (vs ++ s.votes cfg link es) := by
  induction es generalizing s vs with
  | nil =>
    show Confirming cfg s link (vs ++ [])
    rwa [List.append_nil]
  | cons e es ih =>
    have hstep := ih (h.handle e)
    rwa [List.append_assoc] at hstep

end Invariant

/-! ### What a change of class took -/

/-- **Hysteresis.** In every run, a pass that changes the class held for a link had at least
    `hysteresis_passes` votes for the new class, with ever newer samples and its own vote the last,
    and no other vote in between.  A pass that holds the last decision changes neither the class
    held nor what is pending. -/
theorem hysteresis [LinearOrder F] [Arith F] (cfg : Config F) (tsdb : Tsdb F) (kv : LwwStore F)
    (es : List (PolicyEvent F)) (now : ℕ) (owned : List LinkKey) (link : LinkKey) :
    let s := (PolicyState.start tsdb kv).run cfg es
    let s' := classifyOnce cfg now owned s
    (∀ q c, s.classOf link = some q → s'.classOf link = some c → q ≠ c →
      ∃ older recent counted : List Vote,
        (PolicyState.start tsdb kv).votes cfg link (es ++ [.pass now owned]) = older ++ recent ∧
        (∀ v ∈ recent, v.candidate = c) ∧ counted.Sublist recent ∧
        counted.Pairwise (fun v w => v.ts < w.ts) ∧
        max 1 cfg.classifier.hysteresis_passes ≤ counted.length ∧
        counted.getLast? = voteOf cfg now owned s link) ∧
    (HeldBy cfg now owned s link → kept link s'.classifier = kept link s.classifier) := by
  intro s s'
  have hstart : Confirming cfg (PolicyState.start tsdb kv) link [] :=
    ⟨fun _ => rfl, fun _ hp => absurd hp (by simp [PolicyState.start, ClassifierState.new]),
      fun _ hp => absurd hp (by simp [PolicyState.start, ClassifierState.new]),
      fun _ hp => absurd hp (by simp [PolicyState.start, ClassifierState.new])⟩
  have hinv : Confirming cfg s link ((PolicyState.start tsdb kv).votes cfg link es) := by
    have hrun := confirming_run hstart es
    rwa [List.nil_append] at hrun
  refine ⟨fun q c hq hc hne => ?_, fun hheld => kept_classifyOnce_of_none cfg now ?_⟩
  · have hvotes : (PolicyState.start tsdb kv).votes cfg link (es ++ [.pass now owned]) =
        (PolicyState.start tsdb kv).votes cfg link es ++ (voteOf cfg now owned s link).toList := by
      rw [PolicyState.votes_append]
      show _ ++ ((voteOf cfg now owned s link).toList ++ []) = _
      rw [List.append_nil]
    obtain ⟨policy, hpolicy, hpq⟩ := Option.map_eq_some_iff.mp hq
    obtain ⟨policy', hpolicy', hpc⟩ := Option.map_eq_some_iff.mp hc
    cases hv : voteOf cfg now owned s link with
    | none =>
      -- without a vote the class stays
      have hlast : s'.classifier.last.get link = s.classifier.last.get link :=
        congrArg Prod.fst (kept_classifyOnce_of_none cfg now hv)
      rw [hpolicy, hpolicy'] at hlast
      obtain rfl := Option.some.inj hlast
      exact absurd (hpq.symm.trans hpc) hne
    | some v =>
      obtain ⟨class', cost, pending, hkept, hdec⟩ := kept_classifyOnce_of_some cfg now hv
      have hlast : s'.classifier.last.get link = some ⟨class', cost⟩ := congrArg Prod.fst hkept
      have hclass : class' = c := by
        rw [hpolicy'] at hlast
        obtain rfl := Option.some.inj hlast
        exact hpc
      rw [hpolicy] at hdec
      cases hdec with
      | first hnone => exact absurd hnone (by simp)
      | same l hl heq =>
        obtain rfl := Option.some.inj hl
        exact absurd (hpq.symm.trans (heq.trans hclass)) hne
      | waiting l hl =>
        obtain rfl := Option.some.inj hl
        exact absurd (hpq.symm.trans hclass) hne
      | changed l _ _ henough =>
        obtain ⟨⟨older, recent, counted, heq, hall, hsub, hasc, hlen, hgetlast⟩, hnext⟩ :=
          hinv.next hv
        have hcand : (nextPending (s.classifier.pending.get link) v.ts v.candidate).quality = c := by
          rw [hnext]
          exact hclass
        refine ⟨older, recent, counted, by rw [hvotes, hv]; exact heq,
          fun w hw => (hall w hw).trans hcand, hsub, hasc, ?_, ?_⟩
        · rw [hlen, max_comm]
          exact henough
        · rw [hgetlast, hnext]
  · -- a held pass casts no vote
    obtain ⟨view, hview, hheld⟩ := hheld
    unfold voteOf
    split
    · dsimp only
      rw [hview, Option.bind_some, Option.map_eq_none_iff]
      unfold candidateOf
      rcases hheld with hbusy | hblind
      · rw [if_pos hbusy]
      · rw [hblind]
        split <;> rfl
    · rfl

/-! ### A run -/

/-- The arithmetic of the examples, on whole numbers. -/
abbrev natArith : Arith ℕ where
  sqrt := Nat.sqrt
  floor := id

section Example

attribute [local instance] natArith

/-- A class with a bound on the round trip alone. -/
def rttClass (rtt : Option ℕ) (cost : ℕ) : QualityClass ℕ :=
  ⟨rtt, none, none, none, none, none, none, cost⟩

/-- Good up to 50 ms; a change takes two votes. -/
def twoVotes : Config ℕ :=
  ⟨[], [], ⟨rttClass (some 50) 10, rttClass none 100, rttClass none 300, rttClass none 1000⟩,
    ⟨60, 900, 3600, 120, 2, .directional, 0, 300, 3600, 2000, .mathis, 1380⟩⟩

/-- One good report, then a worse one and a pass over it. -/
def worsening : List (PolicyEvent ℕ) :=
  [.ingest echoKey (rttSample 100 20) true, .pass 101 [echoKey],
    .ingest echoKey (rttSample 115 80) true, .pass 116 [echoKey], .pass 121 [echoKey],
    .ingest echoKey (rttSample 130 80) true]

/-- The pass over the second worse report changes the class. -/
theorem hysteresis_second_vote :
    ∃ older recent counted : List Vote,
      (PolicyState.start (Tsdb.new ⟨"", 7200, 86400⟩) .new).votes twoVotes echoKey
        (worsening ++ [.pass 131 [echoKey]]) = older ++ recent ∧
      (∀ v ∈ recent, v.candidate = .acceptable) ∧ counted.Sublist recent ∧
      counted.Pairwise (fun v w => v.ts < w.ts) ∧ 2 ≤ counted.length ∧
      counted.getLast? = some ⟨130, .acceptable⟩ :=
  (hysteresis twoVotes (Tsdb.new ⟨"", 7200, 86400⟩) .new worsening 131 [echoKey] echoKey).1
    .good .acceptable (by decide) (by decide) (by decide)

end Example

end Mielofon
