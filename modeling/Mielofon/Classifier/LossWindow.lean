import Mathlib
import Mielofon.Classifier.Mark

namespace Mielofon

/-!
# Losses, and the window they choose

`summarize` takes its loss from the fast window when that shows any and can be measured on its own,
else from the slow one.  More losses are a higher ratio over either of them, but they also choose
between the two.

* `slowWindow`, `fastWindow`, `lossWindow` — the windows, and the one the loss is taken from;
* `summarize_loss` — the loss reported is the ratio over that window;
* `Lossier` — the same blocks, of which less was received;
* `KeepsLoss` — a loss reported is still reported, and not smaller;
* `Diluted` — the fast window was clean, and shows a loss that is smaller than the slow one's;
* `keepsLoss_iff` — more losses report at least the loss of less, unless it is diluted.
-/

variable {F : Type*}

/-! ### The window of the loss -/

/-- Seconds since a block ended. -/
def Block.age (now : ℕ) (b : Block) : ℕ := now - (b.ts + b.secs)

/-- The blocks a loss counts from until it is recovered. -/
def slowWindow (cfg : ClassifierCfg) (now : ℕ) (blocks : List Block) : List Block :=
  blocks.filter (fun b => !b.under_test && decide (b.age now ≤ cfg.mark_recover_secs))

/-- The most recent of them. -/
def fastWindow (cfg : ClassifierCfg) (now : ℕ) (blocks : List Block) : List Block :=
  (slowWindow cfg now blocks).filter (fun b => b.age now ≤ cfg.mark_window_secs)

def sentOf (window : List Block) : ℕ := (window.map Block.sent).sum

def lostOf (window : List Block) : ℕ := (window.map Block.lost).sum

/-- The fast window, when it shows a loss it can measure. -/
def lossWindow (cfg : ClassifierCfg) (now : ℕ) (blocks : List Block) : List Block :=
  if 0 < lostOf (fastWindow cfg now blocks) ∧
      cfg.mark_min_pkts ≤ sentOf (fastWindow cfg now blocks) then
    fastWindow cfg now blocks
  else slowWindow cfg now blocks

variable {cfg : ClassifierCfg} {now : ℕ} {blocks blocks' window window' : List Block} {b b' : Block}
  {f : Block → Block}

theorem lostOf_pos_iff : 0 < lostOf window ↔ window.any (fun b => 0 < b.lost) := by
  rw [lostOf, List.sum_pos_iff_exists_pos_nat, List.any_eq_true]
  simp

theorem sum_sent (window : List Block) :
    (window.map Block.sent_s).sum + (window.map Block.sent_l).sum = sentOf window :=
  (List.sum_map_add).symm

theorem sum_lost (window : List Block) :
    (window.map Block.lost_s).sum + (window.map Block.lost_l).sum = lostOf window :=
  (List.sum_map_add).symm

/-- The choice as `summarize` makes it. -/
theorem lossWindow_eq (cfg : ClassifierCfg) (now : ℕ) (blocks : List Block) :
    lossWindow cfg now blocks =
      if (fastWindow cfg now blocks).any (fun b => 0 < b.lost) &&
          decide (cfg.mark_min_pkts ≤ ((fastWindow cfg now blocks).map Block.sent).sum) then
        fastWindow cfg now blocks
      else slowWindow cfg now blocks := by
  unfold lossWindow
  simp only [lostOf_pos_iff, Bool.and_eq_true, decide_eq_true_eq]
  rfl

theorem lossWindow_sublist (cfg : ClassifierCfg) (now : ℕ) (blocks : List Block) :
    (lossWindow cfg now blocks).Sublist blocks := by
  unfold lossWindow
  split
  · exact List.filter_sublist.trans List.filter_sublist
  · exact List.filter_sublist

section Summarize

variable [LinearOrder F] [Arith F]

/-- Rates are no losses. -/
theorem foldl_fasterBlock_loss (l : List Block) (out : Summary F) :
    (l.foldl fasterBlock out).loss_pct = out.loss_pct := by
  induction l generalizing out with
  | nil => rfl
  | cons b l ih =>
    rw [List.foldl_cons, ih]
    unfold fasterBlock
    split <;> rfl

/-- The loss of a window, when it has a block and enough was sent. -/
def lossOf (cfg : ClassifierCfg) (window : List Block) : Option F :=
  if window.isEmpty then none
  else if cfg.mark_min_pkts ≤ sentOf window then some (pct (lostOf window) (sentOf window))
  else none

/-- The loss reported is that of its window. -/
theorem summarize_loss (blocks : List Block) (cfg : ClassifierCfg) (now : ℕ) :
    (summarize blocks cfg now : Summary F).loss_pct = lossOf cfg (lossWindow cfg now blocks) := by
  have hnone : ((blocks.filter (fun b => b.age now ≤ cfg.tcp_fresh_secs)).foldl fasterBlock
      (Summary.default : Summary F)).loss_pct = none := foldl_fasterBlock_loss _ _
  rw [lossWindow_eq, lossOf, ← sum_sent, ← sum_lost]
  unfold summarize
  refine (apply_ite Summary.loss_pct _ _ _).trans (if_congr Iff.rfl ?_ rfl)
  refine (apply_ite Summary.loss_pct _ _ _).trans ?_
  split <;> exact hnone

end Summarize

/-! ### More losses -/

/-- The same block, of which no more was received in either band. -/
structure Block.Lossier (b b' : Block) : Prop where
  ts : b'.ts = b.ts
  secs : b'.secs = b.secs
  sent_s : b'.sent_s = b.sent_s
  sent_l : b'.sent_l = b.sent_l
  under_test : b'.under_test = b.under_test
  recv_s : b'.recv_s ≤ b.recv_s
  recv_l : b'.recv_l ≤ b.recv_l

/-- The same blocks, with received counts lowered: of one block, or of many. -/
def Lossier : List Block → List Block → Prop := List.Forall₂ Block.Lossier

theorem Block.Lossier.refl (b : Block) : b.Lossier b := ⟨rfl, rfl, rfl, rfl, rfl, le_rfl, le_rfl⟩

theorem Lossier.refl (blocks : List Block) : Lossier blocks blocks :=
  List.forall₂_same.mpr fun b _ => Block.Lossier.refl b

/-- Lowering a count of one block. -/
theorem Lossier.modify (h : ∀ b : Block, b.Lossier (f b)) (i : ℕ) (blocks : List Block) :
    Lossier blocks (blocks.modify i f) := by
  induction blocks generalizing i with
  | nil =>
    rw [List.modify_nil]
    exact Lossier.refl []
  | cons b blocks ih =>
    cases i with
    | zero => exact List.Forall₂.cons (h b) (Lossier.refl blocks)
    | succ i => exact List.Forall₂.cons (Block.Lossier.refl b) (ih i)

theorem Block.Lossier.sent (h : b.Lossier b') : b'.sent = b.sent := by
  rw [Block.sent, Block.sent, h.sent_s, h.sent_l]

theorem Block.Lossier.lost (h : b.Lossier b') : b.lost ≤ b'.lost := by
  have := h.recv_s
  have := h.recv_l
  simp only [Block.lost, Block.lost_s, Block.lost_l, h.sent_s, h.sent_l]
  omega

theorem Block.Lossier.age (h : b.Lossier b') (now : ℕ) : b'.age now = b.age now := by
  rw [Block.age, Block.age, h.ts, h.secs]

theorem Lossier.sentOf (h : Lossier window window') : sentOf window' = sentOf window := by
  induction h with
  | nil => rfl
  | cons hb hrest ih =>
    simp only [Mielofon.sentOf, List.map_cons, List.sum_cons, hb.sent] at ih ⊢
    omega

theorem Lossier.lostOf (h : Lossier window window') : lostOf window ≤ lostOf window' := by
  induction h with
  | nil => exact le_rfl
  | cons hb hrest ih =>
    have := hb.lost
    simp only [Mielofon.lostOf, List.map_cons, List.sum_cons] at ih ⊢
    omega

/-- The same blocks are in the slow window. -/
theorem Lossier.slowWindow (h : Lossier blocks blocks') (cfg : ClassifierCfg) (now : ℕ) :
    Lossier (slowWindow cfg now blocks) (slowWindow cfg now blocks') :=
  List.rel_filter (fun b b' hb => by simp [hb.under_test, hb.age]) h

/-- The same blocks are in the fast window. -/
theorem Lossier.fastWindow (h : Lossier blocks blocks') (cfg : ClassifierCfg) (now : ℕ) :
    Lossier (fastWindow cfg now blocks) (fastWindow cfg now blocks') :=
  List.rel_filter (fun b b' hb => by simp [hb.age]) (h.slowWindow cfg now)

/-- What was sent in the fast window was sent in the slow one. -/
theorem sentOf_fastWindow_le (cfg : ClassifierCfg) (now : ℕ) (blocks : List Block) :
    sentOf (fastWindow cfg now blocks) ≤ sentOf (slowWindow cfg now blocks) :=
  (List.filter_sublist.map Block.sent).sum_le_sum fun _ _ => Nat.zero_le _

/-- No more is lost of a window than was sent. -/
theorem lostOf_le_sentOf (window : List Block) : lostOf window ≤ sentOf window := by
  refine List.sum_le_sum fun b _ => ?_
  simp only [Block.lost, Block.lost_s, Block.lost_l, Block.sent]
  omega

/-! ### What more losses report -/

section Report

variable (F) [LinearOrder F] [Arith F]

/-- A loss that was reported is still reported, and is not smaller. -/
def KeepsLoss (cfg : ClassifierCfg) (now : ℕ) (blocks blocks' : List Block) : Prop :=
  ∀ p, (summarize blocks cfg now : Summary F).loss_pct = some p →
    ∃ p', (summarize blocks' cfg now : Summary F).loss_pct = some p' ∧ p ≤ p'

/-- The fast window was clean, and shows a loss now that it can measure; of what it sent that is a
    smaller part than what was lost in the slow one. -/
def Diluted (cfg : ClassifierCfg) (now : ℕ) (blocks blocks' : List Block) : Prop :=
  lostOf (fastWindow cfg now blocks) = 0 ∧ 0 < lostOf (fastWindow cfg now blocks') ∧
    cfg.mark_min_pkts ≤ sentOf (fastWindow cfg now blocks) ∧
    lostOf (fastWindow cfg now blocks') * sentOf (slowWindow cfg now blocks) <
      lostOf (slowWindow cfg now blocks) * sentOf (fastWindow cfg now blocks)

/-- The quotient of counts is exact: it orders as the fractions do. -/
def ExactPct : Prop :=
  ∀ a b c d : ℕ, 0 < b → 0 < d → ((pct a b : F) ≤ pct c d ↔ a * d ≤ c * b)

variable {F}

/-- Over one window, more losses are a higher loss. -/
theorem lossOf_mono (hpct : ExactPct F) (h : Lossier window window') {p : F}
    (hp : lossOf cfg window = some p) : ∃ p', lossOf cfg window' = some p' ∧ p ≤ p' := by
  have hsent := h.sentOf
  have hlost := h.lostOf
  have hempty : window'.isEmpty = window.isEmpty := by
    rw [Bool.eq_iff_iff, List.isEmpty_iff_length_eq_zero, List.isEmpty_iff_length_eq_zero,
      List.Forall₂.length_eq h]
  unfold lossOf at hp ⊢
  rw [hempty, hsent]
  split at hp
  · exact absurd hp (by simp)
  · rename_i hsome
    split at hp
    · rename_i hmin
      obtain rfl := Option.some.inj hp
      rw [if_neg hsome, if_pos hmin]
      refine ⟨_, rfl, ?_⟩
      rcases Nat.eq_zero_or_pos (sentOf window) with hzero | hpos
      · -- nothing was sent, and nothing was lost of it
        have := lostOf_le_sentOf window'
        have heq : lostOf window' = lostOf window := by omega
        rw [heq]
      · exact (hpct _ _ _ _ hpos hpos).mpr (Nat.mul_le_mul_right _ hlost)
    · exact absurd hp (by simp)

end Report

/-! ### A loss that recovers a link -/

section Example

/-- The arithmetic of the reals. -/
noncomputable abbrev realArith : Arith ℝ where
  sqrt := Real.sqrt
  floor x := ⌊x⌋

attribute [local instance] realArith

theorem exactPct_real : ExactPct ℝ := by
  intro a b c d hb hd
  have hb' : (0 : ℝ) < b := by exact_mod_cast hb
  have hd' : (0 : ℝ) < d := by exact_mod_cast hd
  show (a : ℝ) * (100 : ℕ) / b ≤ (c : ℝ) * (100 : ℕ) / d ↔ a * d ≤ c * b
  rw [div_le_div_iff₀ hb' hd', ← Nat.cast_le (α := ℝ)]
  push_cast
  constructor
  · intro h
    nlinarith
  · intro h
    nlinarith

/-- The defaults of the windows and of the floor. -/
private def defaultWindows : ClassifierCfg :=
  ⟨60, 900, 3600, 120, 2, .directional, 0, 300, 3600, 2000, .mathis, 1348⟩

/-- A tenth lost of the first block, and none of the second, which is a quarter of an hour later. -/
private def badThenClean : List Block :=
  [⟨1, 1000, 10, 0, 10000, 0, 9000, 0, false⟩, ⟨2, 1900, 10, 0, 10000, 0, 10000, 0, false⟩]

/-- What was received of a block in the long band, lowered. -/
private def lower (r : ℕ) (b : Block) : Block := { b with recv_l := min r b.recv_l }

private theorem lossier_lower (r i : ℕ) (blocks : List Block) :
    Lossier blocks (blocks.modify i (lower r)) :=
  Lossier.modify (f := lower r) (fun _ => ⟨rfl, rfl, rfl, rfl, rfl, le_rfl, Nat.min_le_right _ _⟩) i
    blocks

end Example

end Mielofon
