import Mathlib
import Mielofon.Classifier.Hysteresis
import Mielofon.Lib.Runs
import Mielofon.Tsdb.MarkBlocks

namespace Mielofon

open Lib

/-!
# Passive totals

The running totals of a link count the blocks a pass joins, those above the highest number
counted so far.  Halves arrive late, so a block can be joined after a later one was, and is then
left out for good.

* `Tally` — the four sums;
* `joinedIn` — the blocks a pass joins for a link of the node's own agents;
* `totals_classifyOnce` — what a pass does to the totals of a link;
* `Counted` — the totals are the sums over a set of blocks;
* `InOrder` — the blocks a pass joins for the first time are above all numbers folded in;
* `counted_of_inOrder` — the totals of runs whose passes all meet this;
* `late_half_not_counted` — a run with a pass that does not.
-/

/-! ### The sums -/

/-- The four sums of the totals. -/
inductive Tally where
  | sent_s | sent_l | lost_s | lost_l
deriving DecidableEq, Repr

/-- What a block adds to a sum. -/
def Block.tally (b : Block) : Tally → ℕ
  | .sent_s => b.sent_s
  | .sent_l => b.sent_l
  | .lost_s => b.lost_s
  | .lost_l => b.lost_l

namespace MarkTotals

/-- A sum. -/
def tally (t : MarkTotals) : Tally → ℕ
  | .sent_s => t.sent_s
  | .sent_l => t.sent_l
  | .lost_s => t.lost_s
  | .lost_l => t.lost_l

theorem tally_count (t : MarkTotals) (b : Block) (k : Tally) :
    (t.count b).tally k = t.tally k + b.tally k := by
  cases k <;> rfl

theorem tally_foldl_count (t : MarkTotals) (blocks : List Block) (k : Tally) :
    (blocks.foldl count t).tally k = t.tally k + (blocks.map (Block.tally · k)).sum := by
  induction blocks generalizing t with
  | nil => rfl
  | cons b blocks ih =>
    rw [List.foldl_cons, ih, tally_count, List.map_cons, List.sum_cons, Nat.add_assoc]

/-- The sums after a fold: every block above the highest number and outside tests is counted. -/
theorem tally_fold (t : MarkTotals) (blocks : List Block) (k : Tally) :
    (t.fold blocks).tally k = t.tally k +
      ((blocks.filter (fun b => decide (t.last_n < b.n) && !b.under_test)).map
        (Block.tally · k)).sum := by
  rw [← tally_foldl_count]
  cases k <;> rfl

theorem tally_noteRegime (t : MarkTotals) (regime : Option Regime) (k : Tally) :
    (t.noteRegime regime).tally k = t.tally k := by
  unfold noteRegime
  split
  · cases k <;> rfl
  · rfl

theorem last_n_noteRegime (t : MarkTotals) (regime : Option Regime) :
    (t.noteRegime regime).last_n = t.last_n := by
  unfold noteRegime
  split <;> rfl

end MarkTotals

/-! ### What a pass joins -/

section Pass

variable {F : Type*} [LinearOrder F] [Arith F] (cfg : Config F)

/-- The totals of a link. -/
def PolicyState.totalsOf (s : PolicyState F) (link : LinkKey) : MarkTotals :=
  (s.classifier.totals.get link).getD .default

/-- The stores when a pass comes to a link. -/
def turnOf (now : ℕ) (owned : List LinkKey) (s : PolicyState F) (link : LinkKey) : Folding F :=
  ((pairLinks s.tsdb.links).takeWhile (fun pair => pair.1 ≠ link)).foldl (foldPair cfg now owned)
    ⟨s.tsdb, s.classifier.totals, viewsOf cfg now s.tsdb s.tsdb.links⟩

/-- The blocks a pass joins for a link of this node's agents: none where the link is unpaired,
    has no window or is another node's. -/
def joinedIn (now : ℕ) (owned : List LinkKey) (s : PolicyState F) (link : LinkKey) : List Block :=
  let turn := turnOf cfg now owned s link
  match (pairLinks s.tsdb.links).find? (fun pair => pair.1 = link) with
  | none => []
  | some pair =>
    if owned.contains link && (turn.views.get link).isSome then
      join (turn.tsdb.query link (markSince cfg.classifier now) u64Max)
        (turn.tsdb.query pair.2 (markSince cfg.classifier now) u64Max)
    else []

theorem pairwise_joinedIn (now : ℕ) (owned : List LinkKey) (s : PolicyState F) (link : LinkKey) :
    (joinedIn cfg now owned s link).Pairwise (fun a b => a.n < b.n) := by
  unfold joinedIn
  dsimp only
  split
  · exact List.Pairwise.nil
  · split
    · exact pairwise_join _ _
    · exact List.Pairwise.nil

omit [LinearOrder F] [Arith F] in
/-- Every link is paired at most once. -/
theorem nodup_pairLinks (t : Tsdb F) : ((pairLinks t.links).map Prod.fst).Nodup := by
  have hkeys : ∀ (g : LinkKey → Option LinkKey) (l : List LinkKey),
      ((l.filterMap (fun x => (g x).map (fun rev => (x, rev)))).map Prod.fst).Sublist l := by
    intro g l
    induction l with
    | nil => exact List.Sublist.refl _
    | cons x l ih =>
      rw [List.filterMap_cons]
      cases g x with
      | none => exact ih.cons x
      | some rev => exact ih.cons_cons x
  exact (nodup_links t).sublist (hkeys _ _)

/-- Folding one pair leaves the totals of other links. -/
theorem foldPair_frame (now : ℕ) (owned : List LinkKey) (f : Folding F)
    {pair : LinkKey × LinkKey} {link : LinkKey} (h : pair.1 ≠ link) :
    (foldPair cfg now owned f pair).totals.get link = f.totals.get link := by
  unfold foldPair
  dsimp only
  split
  · rfl
  split
  · unfold foldMarking
    dsimp only
    split
    · rfl
    split
    · rfl
    · exact Map.get_set_ne _ _ h.symm
  · rfl

/-- The totals of a link after its pair was folded: its joined blocks are counted. -/
theorem totals_foldPair (now : ℕ) (owned : List LinkKey) (f : Folding F) (link rev : LinkKey) :
    ∃ regime, ((foldPair cfg now owned f (link, rev)).totals.get link).getD .default =
      (((f.totals.get link).getD .default).fold
        (if owned.contains link && (f.views.get link).isSome then
          join (f.tsdb.query link (markSince cfg.classifier now) u64Max)
            (f.tsdb.query rev (markSince cfg.classifier now) u64Max)
        else [])).noteRegime regime := by
  -- folding nothing changes nothing, so a pair that is passed over fits as well
  have hnil : ∀ t : MarkTotals, (t.fold []).noteRegime none = t := fun t => by
    simp [MarkTotals.fold, MarkTotals.noteRegime]
  unfold foldPair
  dsimp only
  cases hview : f.views.get link with
  | none =>
    refine ⟨none, ?_⟩
    rw [Option.isSome_none, Bool.and_false, if_neg Bool.false_ne_true, hnil]
    split <;> rfl
  | some view =>
    cases hown : owned.contains link with
    | false =>
      refine ⟨none, ?_⟩
      rw [Bool.false_and, if_neg Bool.false_ne_true, hnil]
      split
      · rfl
      · unfold foldMarking
        dsimp only
        split
        · rfl
        · rfl
    | true =>
      rw [Option.isSome_some, Bool.and_true, if_pos rfl, if_neg (by simp)]
      unfold foldMarking
      dsimp only
      split
      · rename_i hempty
        refine ⟨none, ?_⟩
        rw [List.isEmpty_iff.mp hempty, hnil]
      · rw [if_neg (by simp), Map.get_set_self]
        exact ⟨_, rfl⟩

omit [Arith F] in
/-- Classifying links leaves the totals. -/
theorem totals_classifyLinks (now : ℕ) (pairs : LinkKey → Option LinkKey)
    (views : Map LinkKey (WindowView F)) (links : List LinkKey) (x : ClassifierState × LwwStore F) :
    (links.foldl (classifyLink cfg now pairs views) x).1.totals = x.1.totals := by
  refine foldl_rel (R := fun x y => y.1.totals = x.1.totals) (fun _ => rfl) ?_ ?_ links x
  · intro x y z hxy hyz
    exact hyz.trans hxy
  · intro y link
    unfold classifyLink
    split
    · rfl
    split
    · rfl
    · rfl

/-- **What a pass does to the totals of a link**: it folds in the blocks it joins. -/
theorem totals_classifyOnce (now : ℕ) (owned : List LinkKey) (s : PolicyState F) (link : LinkKey) :
    ∃ regime, (classifyOnce cfg now owned s).totalsOf link =
      ((s.totalsOf link).fold (joinedIn cfg now owned s link)).noteRegime regime := by
  have htotals : (classifyOnce cfg now owned s).classifier.totals =
      (foldPairs cfg now owned s).totals := totals_classifyLinks cfg now _ _ _ _
  have hframe : ∀ (f : Folding F) (pair : LinkKey × LinkKey), pair.1 ≠ link →
      (foldPair cfg now owned f pair).totals.get link = f.totals.get link :=
    fun f pair h => foldPair_frame cfg now owned f h
  unfold PolicyState.totalsOf joinedIn
  rw [htotals]
  unfold foldPairs
  dsimp only
  split
  · -- no pair of the link: nothing is joined
    rename_i hnone
    rw [List.find?_eq_none] at hnone
    refine ⟨none, ?_⟩
    rw [foldl_frame Prod.fst (fun f : Folding F => f.totals.get link) hframe
      (fun pair hp he => hnone pair hp (decide_eq_true he))]
    simp [MarkTotals.fold, MarkTotals.noteRegime]
  · rename_i pair hpair
    rw [List.find?_eq_some_iff_append] at hpair
    obtain ⟨hkey, before, after, hsplit, hbefore⟩ := hpair
    have hlink : pair.1 = link := of_decide_eq_true hkey
    -- the link has one pair, so its totals only move at that turn
    have hne : ∀ p ∈ before, p.1 ≠ link := fun p hp => by simpa using hbefore p hp
    have hturn : turnOf cfg now owned s link = before.foldl (foldPair cfg now owned)
        ⟨s.tsdb, s.classifier.totals, viewsOf cfg now s.tsdb s.tsdb.links⟩ := by
      unfold turnOf
      rw [hsplit, List.takeWhile_append_of_pos (fun p hp => decide_eq_true (hne p hp)),
        List.takeWhile_cons_of_neg (by simp [hlink]), List.append_nil]
    have hafter : ∀ p ∈ after, p.1 ≠ link := by
      intro p hp he
      have hnd := nodup_pairLinks s.tsdb
      rw [hsplit, List.map_append, List.map_cons, List.nodup_append] at hnd
      exact (List.nodup_cons.mp hnd.2.1).1 (hlink ▸ he ▸ List.mem_map_of_mem hp)
    have hbeforeTotals : (turnOf cfg now owned s link).totals.get link =
        s.classifier.totals.get link := by
      rw [hturn]
      exact foldl_frame Prod.fst (fun f : Folding F => f.totals.get link) hframe hne _
    have hsame : ((pairLinks s.tsdb.links).foldl (foldPair cfg now owned)
        ⟨s.tsdb, s.classifier.totals, viewsOf cfg now s.tsdb s.tsdb.links⟩).totals.get link =
        (foldPair cfg now owned (turnOf cfg now owned s link) (link, pair.2)).totals.get link := by
      rw [hsplit, List.foldl_append, List.foldl_cons, hturn, ← hlink]
      exact foldl_frame Prod.fst (fun f : Folding F => f.totals.get pair.1)
        (hlink ▸ hframe) (hlink ▸ hafter) _
    rw [hsame, ← hbeforeTotals]
    exact totals_foldPair cfg now owned (turnOf cfg now owned s link) link pair.2

end Pass

/-! ### Counting each block once -/

/-- The sums are those over the blocks outside throughput tests. -/
def Counted (t : MarkTotals) (blocks : Finset Block) : Prop :=
  ∀ k, t.tally k = ∑ b ∈ blocks with b.under_test = false, b.tally k

/-- The blocks outside throughput tests are numbered up to the highest number folded in. -/
def Bounded (t : MarkTotals) (blocks : Finset Block) : Prop :=
  ∀ b ∈ blocks, b.under_test = false → b.n ≤ t.last_n

/-- The last block folded in bounds those outside tests. -/
theorem bounded_fold {t : MarkTotals} {seen : Finset Block} (hle : Bounded t seen)
    {blocks : List Block} (hasc : blocks.Pairwise (fun a b => a.n < b.n)) :
    Bounded (t.fold blocks) (seen ∪ blocks.toFinset) := by
  intro b hb htest
  have hlast : (t.fold blocks).last_n = max t.last_n ((blocks.getLast?.map Block.n).getD 0) := rfl
  rw [hlast]
  rcases Finset.mem_union.mp hb with hb | hb
  · exact (hle b hb htest).trans (le_max_left _ _)
  · cases hget : blocks.getLast? with
    | none =>
      rw [List.getLast?_eq_none_iff] at hget
      rw [hget] at hb
      exact absurd (List.mem_toFinset.mp hb) List.not_mem_nil
    | some last =>
      have hasc : Ascending Block.n blocks := hasc
      exact (hasc.key_le_getLast (List.mem_toFinset.mp hb) hget).trans (le_max_right _ _)

/-- A fold counts the blocks it adds, if those outside tests are above all folded in so far. -/
theorem counted_fold {t : MarkTotals} {seen : Finset Block} (h : Counted t seen)
    (hle : Bounded t seen) {blocks : List Block} (hasc : blocks.Pairwise (fun a b => a.n < b.n))
    (hnew : ∀ b ∈ blocks, b.under_test = false → b ∉ seen → t.last_n < b.n) :
    Counted (t.fold blocks) (seen ∪ blocks.toFinset) ∧
      Bounded (t.fold blocks) (seen ∪ blocks.toFinset) := by
  refine ⟨fun k => ?_, bounded_fold hle hasc⟩
  -- the blocks outside tests that the fold adds, none of which was folded in before
  let fresh := blocks.filter (fun b => decide (t.last_n < b.n) && !b.under_test)
  have hmem : ∀ b, b ∈ fresh ↔ b ∈ blocks ∧ t.last_n < b.n ∧ b.under_test = false := fun b => by
    rw [List.mem_filter, Bool.and_eq_true, decide_eq_true_eq, Bool.not_eq_true']
  have hnodup : fresh.Nodup :=
    (hasc.imp (fun hab he => absurd (he ▸ hab) (lt_irrefl _))).filter _
  have hdisj : Disjoint (seen.filter (fun b => b.under_test = false)) fresh.toFinset := by
    rw [Finset.disjoint_left]
    intro b hb hf
    obtain ⟨hseen, htest⟩ := Finset.mem_filter.mp hb
    have := hle b hseen htest
    have := ((hmem b).mp (List.mem_toFinset.mp hf)).2.1
    omega
  have hsplit : (seen ∪ blocks.toFinset).filter (fun b => b.under_test = false) =
      seen.filter (fun b => b.under_test = false) ∪ fresh.toFinset := by
    ext b
    simp only [Finset.mem_filter, Finset.mem_union, List.mem_toFinset, hmem]
    constructor
    · rintro ⟨hb, htest⟩
      by_cases hseen : b ∈ seen
      · exact Or.inl ⟨hseen, htest⟩
      · have hb := hb.resolve_left hseen
        exact Or.inr ⟨hb, hnew b hb htest hseen, htest⟩
    · rintro (⟨hseen, htest⟩ | ⟨hb, -, htest⟩)
      · exact ⟨Or.inl hseen, htest⟩
      · exact ⟨Or.inr hb, htest⟩
  calc (t.fold blocks).tally k
      = t.tally k + (fresh.map (Block.tally · k)).sum := t.tally_fold blocks k
    _ = ∑ b ∈ seen with b.under_test = false, b.tally k + ∑ b ∈ fresh.toFinset, b.tally k := by
        rw [h k, List.sum_toFinset _ hnodup]
    _ = ∑ b ∈ (seen ∪ blocks.toFinset) with b.under_test = false, b.tally k := by
        rw [hsplit, Finset.sum_union hdisj]

/-! ### Runs -/

section Runs

variable {F : Type*} [LinearOrder F] [Arith F] (cfg : Config F) (link : LinkKey)

/-- The blocks an event joins for a link. -/
def PolicyEvent.joined (s : PolicyState F) : PolicyEvent F → List Block
  | .pass now owned => joinedIn cfg now owned s link
  | _ => []

/-- One event, with the blocks joined by some pass so far. -/
def joinStep (x : PolicyState F × Finset Block) (e : PolicyEvent F) :
    Option (PolicyState F × Finset Block) :=
  some (x.1.handle cfg e, x.2 ∪ (e.joined cfg link x.1).toFinset)

/-- Every block outside tests that the event joins for the first time is numbered above all blocks
    folded in so far. -/
def InOrder (x : PolicyState F × Finset Block) (e : PolicyEvent F) : Prop :=
  ∀ b ∈ e.joined cfg link x.1, b.under_test = false → b ∉ x.2 → (x.1.totalsOf link).last_n < b.n

instance (x : PolicyState F × Finset Block) (e : PolicyEvent F) : Decidable (InOrder cfg link x e) :=
  inferInstanceAs (Decidable (∀ b ∈ _, _))

/-- What an event does to the totals of a link: it folds in the blocks it joins. -/
theorem totals_handle (s : PolicyState F) (e : PolicyEvent F) :
    ∃ regime, (s.handle cfg e).totalsOf link =
      ((s.totalsOf link).fold (e.joined cfg link s)).noteRegime regime := by
  have hnil : ∀ t : MarkTotals, (t.fold []).noteRegime none = t := fun t => by
    simp [MarkTotals.fold, MarkTotals.noteRegime]
  cases e with
  | ingest l x persist => exact ⟨none, (hnil _).symm⟩
  | prune now => exact ⟨none, (hnil _).symm⟩
  | pass now owned => exact totals_classifyOnce cfg now owned s link

/-- The totals never go down. -/
theorem tally_le_handle (s : PolicyState F) (e : PolicyEvent F) (k : Tally) :
    (s.totalsOf link).tally k ≤ ((s.handle cfg e).totalsOf link).tally k := by
  obtain ⟨regime, htotals⟩ := totals_handle cfg link s e
  rw [htotals, MarkTotals.tally_noteRegime, MarkTotals.tally_fold]
  exact Nat.le_add_right _ _

theorem pairwise_joined (s : PolicyState F) (e : PolicyEvent F) :
    (e.joined cfg link s).Pairwise (fun a b => a.n < b.n) := by
  cases e with
  | ingest => exact List.Pairwise.nil
  | prune => exact List.Pairwise.nil
  | pass now owned => exact pairwise_joinedIn cfg now owned s link

/-- **When the totals count every block once.** In a run whose passes join new blocks in the order
    of their numbers, the totals of the link are the sums over all blocks joined so far, and no
    event lowers them. -/
theorem counted_of_inOrder (tsdb : Tsdb F) (kv : LwwStore F) {s : PolicyState F}
    {seen : Finset Block} (h : Runs (joinStep cfg link) (InOrder cfg link)
      (PolicyState.start tsdb kv, ∅) (s, seen)) :
    Counted (s.totalsOf link) seen ∧
      ∀ e k, (s.totalsOf link).tally k ≤ ((s.handle cfg e).totalsOf link).tally k := by
  have hinv := h.invariant (I := fun x => Counted (x.1.totalsOf link) x.2 ∧
    Bounded (x.1.totalsOf link) x.2) ⟨fun k => by cases k <;> rfl, fun b hb => by simp at hb⟩ ?_
  · exact ⟨hinv.1, tally_le_handle cfg link s⟩
  · rintro x e x' ⟨hcounted, hbounded⟩ hok hstep
    obtain rfl := Option.some.inj hstep
    obtain ⟨regime, htotals⟩ := totals_handle cfg link x.1 e
    obtain ⟨hsums, hle⟩ := counted_fold hcounted hbounded (pairwise_joined cfg link x.1 e) hok
    dsimp only
    rw [htotals]
    refine ⟨fun k => ?_, fun b hb htest => ?_⟩
    · rw [MarkTotals.tally_noteRegime]
      exact hsums k
    · rw [MarkTotals.last_n_noteRegime]
      exact hle b hb htest

end Runs

/-! ### A half that arrives late -/

section Example

attribute [local instance] natArith

/-- The reverse half of the link of the examples. -/
def echoBack : LinkKey := ⟨"hub-b", "hub-a", "awg0"⟩

/-- One end's counters of block `n` arrive for `link`. -/
def blockArrives (link : LinkKey) (n : ℕ) : PolicyEvent ℕ :=
  .ingest link ((RawSample.fromBlock (doneBlock n)).getD RawSample.default) true

/-- A node that has classified nothing. -/
def freshNode : PolicyState ℕ := .start (Tsdb.new ⟨"", 7200, 86400⟩) .new

/-- **A late half is never counted.** The receiver's counters of block 11 arrive after those of
    block 12 were joined: the totals then miss block 11, which a later pass joins. -/
theorem late_half_not_counted : ∃ s seen,
    Runs (joinStep twoVotes echoKey) Always (freshNode, ∅) (s, seen) ∧
      ¬ Counted (s.totalsOf echoKey) seen := by
  have hrun : exec (joinStep twoVotes echoKey) Always (freshNode, ∅)
      [blockArrives echoKey 11, blockArrives echoKey 12, blockArrives echoBack 12,
        .pass 130 [echoKey], blockArrives echoBack 11, .pass 135 [echoKey]] = some _ := rfl
  refine ⟨_, _, Runs.of_exec _ hrun, fun h => absurd (h .sent_s) (by decide)⟩

/-- Halves that arrive in order are counted. -/
theorem counted_in_order : ∃ s seen,
    Runs (joinStep twoVotes echoKey) (InOrder twoVotes echoKey) (freshNode, ∅) (s, seen) ∧
      seen.card = 2 ∧ Counted (s.totalsOf echoKey) seen := by
  have hrun : exec (joinStep twoVotes echoKey) (InOrder twoVotes echoKey) (freshNode, ∅)
      [blockArrives echoKey 11, blockArrives echoBack 11, .pass 125 [echoKey],
        blockArrives echoKey 12, blockArrives echoBack 12, .pass 135 [echoKey]] = some _ := rfl
  have h := Runs.of_exec _ hrun
  exact ⟨_, _, h, by decide, (counted_of_inOrder twoVotes echoKey _ _ h).1⟩

end Example

end Mielofon
