import Mielofon.Classifier.LossWindow
import Mielofon.Classifier.Totals
import Mielofon.Lib.Checked

namespace Mielofon

open Lib

/-!
# The arithmetic of the passive tier

Block numbers and lengths come from another program.  A block is stamped with their product
(`from_block` in `tsdb.rs`), its age is taken from its end, and its counters are summed over windows
and over the life of a link (`mark.rs`, `classifier.rs`).  Here the same functions are over 64-bit
words: they fail where a result does not fit, and on a zero divisor.

* `Checked.fromBlock`, `Checked.summarize`, `Checked.fold` — the three stages;
* `Small` — the counters of a stamped block, which no sum of one block overflows;
* `computes_fromBlock`, `computes_summarize`, `computes_fold` — when each stage comes to the value
  of the exact one;
* `Stamped` — a block joined from a half that was stamped;
* `SummaryFits` — what a summary asks of its blocks;
* `pipeline_computes` — the three stages together.
-/

namespace Checked

/-! ### Stamping -/

section Stamp

variable {F : Type} [Zero F]

def fromBlock (b : MarkBlock) : Except Fault (Option (RawSample F)) :=
  if b.secs = 0 then pure none
  else do
    let reset ← checkedMul 8 (if b.reset then 1 else 0) 1
    let under_test ← checkedMul 8 (if b.under_test then 1 else 0) 2
    let flags ← checkedAdd 8 reset under_test
    let ts ← checkedMul 64 b.n b.secs
    pure (some { (RawSample.default : RawSample F) with
      ts := ts
      mark_n := some b.n
      mark_secs := some b.secs
      mark_tx_s := some (min b.tx_pkts_s RawSample.u32Max)
      mark_tx_l := some (min b.tx_pkts_l RawSample.u32Max)
      mark_rx_s := some (min b.rx_pkts_s RawSample.u32Max)
      mark_rx_l := some (min b.rx_pkts_l RawSample.u32Max)
      mark_tx_bytes := some b.tx_bytes
      mark_rx_bytes := some b.rx_bytes
      mark_flags := some flags })

end Stamp

/-! ### One block -/

def sent (b : Block) : Except Fault ℕ := checkedAdd 64 b.sent_s b.sent_l

def lost (b : Block) : Except Fault ℕ := checkedAdd 64 b.lost_s b.lost_l

/-- Seconds since a block ended: the end is a sum, and the difference stops at zero. -/
def age (now : ℕ) (b : Block) : Except Fault ℕ := do
  let stop ← checkedAdd 64 b.ts b.secs
  pure (now - stop)

def within (now horizon : ℕ) (b : Block) : Except Fault Bool := do
  let age ← age now b
  pure (decide (age ≤ horizon))

section Rates

variable {F : Type} [Arith F]

def pct (part whole : ℕ) : Except Fault F := checkedDiv whole (Mielofon.pct part whole)

def loss_pct (b : Block) : Except Fault (Option F) := do
  let whole ← sent b
  if 0 < whole then do
    let part ← lost b
    let ratio ← pct part whole
    pure (some ratio)
  else pure none

def rate_mbps (b : Block) : Except Fault F := checkedDiv (max b.secs 1) b.rate_mbps

/-- A loss that is measured from `floor` sent on. -/
def lossFrom (floor part whole : ℕ) : Except Fault (Option F) :=
  if floor ≤ whole then do
    let ratio ← pct part whole
    pure (some ratio)
  else pure none

end Rates

/-! ### The sums -/

/-- The four sums of a loop over blocks. -/
structure Sums where
  sent_s : ℕ
  sent_l : ℕ
  lost_s : ℕ
  lost_l : ℕ

namespace Sums

def zero : Sums := ⟨0, 0, 0, 0⟩

def tally (s : Sums) : Tally → ℕ
  | .sent_s => s.sent_s
  | .sent_l => s.sent_l
  | .lost_s => s.lost_s
  | .lost_l => s.lost_l

/-- The sums with a block added. -/
def plus (s : Sums) (b : Block) : Sums :=
  ⟨s.sent_s + b.sent_s, s.sent_l + b.sent_l, s.lost_s + b.lost_s, s.lost_l + b.lost_l⟩

def add (s : Sums) (b : Block) : Except Fault Sums := do
  let sent_s ← checkedAdd 64 s.sent_s b.sent_s
  let sent_l ← checkedAdd 64 s.sent_l b.sent_l
  let lost_s ← checkedAdd 64 s.lost_s b.lost_s
  let lost_l ← checkedAdd 64 s.lost_l b.lost_l
  pure ⟨sent_s, sent_l, lost_s, lost_l⟩

def Fit (s : Sums) : Prop := ∀ k, s.tally k < 2 ^ 64

end Sums

/-- Count the joined blocks above the highest number folded in so far, outside throughput tests. -/
def fold (t : MarkTotals) (blocks : List Block) : Except Fault MarkTotals := do
  let s ← (blocks.filter (fun b => decide (t.last_n < b.n) && !b.under_test)).foldlM Sums.add
    ⟨t.sent_s, t.sent_l, t.lost_s, t.lost_l⟩
  pure { t with
    sent_s := s.sent_s
    sent_l := s.sent_l
    lost_s := s.lost_s
    lost_l := s.lost_l
    last_n := max t.last_n ((blocks.getLast?.map Block.n).getD 0) }

/-! ### The summary -/

section Summarize

variable {F : Type} [LinearOrder F] [Arith F]

def fasterBlock (out : Summary F) (b : Block) : Except Fault (Summary F) := do
  let rate ← rate_mbps b
  pure (if out.rate_mbps.all (fun r => r < rate) then
    { out with rate_mbps := some rate, rate_ts := some b.ts } else out)

def lossIsSteady (per_block : List F) : Except Fault Bool := do
  let lossy := (per_block.filter (fun p => 0 < p)).length
  let mean : F ← checkedDiv (max per_block.length 1)
    (per_block.foldl (· + ·) 0 / (max per_block.length 1 : ℕ))
  let twice ← checkedMul 64 lossy 2
  pure (per_block.length < twice && per_block.foldl max 0 ≤ (3 : ℕ) * mean)

def regimeOf (window : List Block) (s : Summary F) : Except Fault Regime := do
  let lost ← sumOf 64 lost window
  if lost = 0 then pure .clean
  else if (match s.loss_s_pct, s.loss_l_pct with
      | some small, some large => decide (0 < large) && decide ((5 : ℕ) * small ≤ large)
      | _, _ => false) then pure .size_selective
  else do
    let per_block ← gather loss_pct window
    let steady ← lossIsSteady (F := F) per_block
    pure (if steady then .sparse else .bursty)

/-- The loss and shape of the window the summary takes them from. -/
def aggregate (cfg : ClassifierCfg) (window : List Block) (out : Summary F) :
    Except Fault (Summary F) := do
  let s ← window.foldlM Sums.add Sums.zero
  let sent ← checkedAdd 64 s.sent_s s.sent_l
  let lost ← checkedAdd 64 s.lost_s s.lost_l
  let loss_pct ← lossFrom cfg.mark_min_pkts lost sent
  let loss_s_pct ← lossFrom cfg.mark_min_pkts s.lost_s s.sent_s
  let loss_l_pct ← lossFrom cfg.mark_min_pkts s.lost_l s.sent_l
  let out := { out with
    blocks := window.length, sent_s := s.sent_s, sent_l := s.sent_l, lost_s := s.lost_s
    lost_l := s.lost_l, loss_pct := loss_pct, loss_s_pct := loss_s_pct, loss_l_pct := loss_l_pct }
  let regime ← regimeOf window out
  pure { out with regime := some regime }

def summarize (blocks : List Block) (cfg : ClassifierCfg) (now : ℕ) :
    Except Fault (Summary F) := do
  let fresh ← select (within now cfg.tcp_fresh_secs) blocks
  let out ← fresh.foldlM fasterBlock (Summary.default : Summary F)
  let recent ← select (fun b => if b.under_test then pure false
    else within now cfg.mark_recover_secs b) blocks
  let fast ← select (within now cfg.mark_window_secs) recent
  let under_test ← anyOf (fun b => do
    let near ← within now cfg.mark_window_secs b
    pure (near && b.under_test)) blocks
  let fast_sent ← sumOf 64 sent fast
  let lossy ← anyOf (fun b => do
    let lost ← lost b
    pure (decide (0 < lost))) fast
  let window := if lossy && decide (cfg.mark_min_pkts ≤ fast_sent) then fast else recent
  if window.isEmpty then
    pure (if under_test then { out with regime := some .under_test } else out)
  else aggregate cfg window out

end Summarize

/-! ### When each function comes to the exact value -/

theorem computes_fromBlock {F : Type} [Zero F] (b : MarkBlock) :
    Computes (fromBlock b) (b.secs = 0 ∨ b.n * b.secs < 2 ^ 64)
      (RawSample.fromBlock b : Option (RawSample F)) := by
  unfold fromBlock RawSample.fromBlock
  split
  · rename_i h
    exact (Computes.of_eq rfl).congr (iff_of_true trivial (Or.inl h))
  · rename_i h
    -- the two flags are at most 1 and 2
    have hreset : checkedMul 8 (if b.reset then 1 else 0) 1 = .ok (if b.reset then 1 else 0) := by
      cases b.reset <;> rfl
    have htest : checkedMul 8 (if b.under_test then 1 else 0) 2 =
        .ok (if b.under_test then 2 else 0) := by
      cases b.under_test <;> rfl
    have hflags : checkedAdd 8 (if b.reset then 1 else 0) (if b.under_test then 2 else 0) =
        .ok ((if b.reset then 1 else 0) + (if b.under_test then 2 else 0)) := by
      cases b.reset <;> cases b.under_test <;> rfl
    refine Computes.after hreset (Computes.after htest (Computes.after hflags ?_))
    exact ((computes_checkedMul 64 b.n b.secs).map rfl).congr (or_iff_right h).symm

/-- The counters a stamped block has: they were cut to 32 bits. -/
def Small (b : Block) : Prop := b.sent_s ≤ RawSample.u32Max ∧ b.sent_l ≤ RawSample.u32Max

variable {b : Block}

theorem sent_eq_ok (h : Small b) : sent b = .ok b.sent := by
  refine (computes_checkedAdd 64 b.sent_s b.sent_l).eq_ok ?_
  have hs := h.1
  have hl := h.2
  unfold RawSample.u32Max at hs hl
  omega

theorem lost_eq_ok (h : Small b) : lost b = .ok b.lost := by
  refine (computes_checkedAdd 64 b.lost_s b.lost_l).eq_ok ?_
  have hs : b.lost_s ≤ b.sent_s := Nat.sub_le _ _
  have hl : b.lost_l ≤ b.sent_l := Nat.sub_le _ _
  have := h.1
  have := h.2
  unfold RawSample.u32Max at *
  omega

theorem computes_age (now : ℕ) (b : Block) :
    Computes (age now b) (b.ts + b.secs < 2 ^ 64) (b.age now) :=
  (computes_checkedAdd 64 b.ts b.secs).map rfl

theorem computes_within (now horizon : ℕ) (b : Block) :
    Computes (within now horizon b) (b.ts + b.secs < 2 ^ 64) (decide (b.age now ≤ horizon)) :=
  (computes_age now b).map rfl

section Rates

variable {F : Type} [Arith F]

theorem loss_pct_eq_ok (h : Small b) : loss_pct b = .ok (b.loss_pct : Option F) := by
  unfold loss_pct
  rw [sent_eq_ok h]
  show (if 0 < b.sent then _ else _) = _
  unfold Block.loss_pct
  split
  · rename_i hpos
    rw [lost_eq_ok h]
    show (pct b.lost b.sent >>= _) = _
    unfold pct
    rw [(computes_checkedDiv _ _).eq_ok hpos.ne']
    rfl
  · rfl

theorem rate_mbps_eq_ok (b : Block) : rate_mbps b = .ok (b.rate_mbps : F) :=
  (computes_checkedDiv _ _).eq_ok (Nat.ne_of_gt (lt_max_of_lt_right Nat.one_pos))

theorem computes_lossFrom (floor part whole : ℕ) :
    Computes (lossFrom floor part whole) (floor = 0 → 0 < whole)
      (if floor ≤ whole then some (Mielofon.pct part whole : F) else none) := by
  have hmeasured : floor ≤ whole → Computes
      (pct part whole >>= fun ratio => pure (some ratio)) (whole ≠ 0)
      (some (Mielofon.pct part whole : F)) := fun _ => (computes_checkedDiv _ _).map rfl
  refine (Computes.ite hmeasured (fun _ => Computes.of_eq rfl)).congr ?_
  split
  · rename_i h
    exact ⟨fun hne _ => Nat.pos_of_ne_zero hne, fun hpos => by omega⟩
  · rename_i h
    exact iff_of_true trivial (fun h0 => absurd (h0 ▸ Nat.zero_le _) h)

end Rates

/-! ### The sums -/

namespace Sums

variable {s : Sums}

theorem tally_plus (s : Sums) (b : Block) (k : Tally) :
    (s.plus b).tally k = s.tally k + b.tally k := by
  cases k <;> rfl

theorem tally_foldl_plus (s : Sums) (l : List Block) (k : Tally) :
    (l.foldl plus s).tally k = s.tally k + (l.map (Block.tally · k)).sum := by
  induction l generalizing s with
  | nil => rfl
  | cons b l ih =>
    rw [List.foldl_cons, ih, tally_plus, List.map_cons, List.sum_cons, Nat.add_assoc]

theorem Fit.of_plus {b : Block} (h : (s.plus b).Fit) : s.Fit := fun k => by
  have hk := h k
  rw [tally_plus] at hk
  omega

theorem computes_add (s : Sums) (b : Block) : Computes (s.add b) (s.plus b).Fit (s.plus b) := by
  have hadd := fun a a' => computes_checkedAdd 64 a a'
  refine ((hadd _ _).bind (fun _ => (hadd _ _).bind (fun _ => (hadd _ _).bind (fun _ =>
    (hadd _ _).map rfl)))).congr ?_
  constructor
  · rintro ⟨hss, hsl, hls, hll⟩ k
    cases k with
    | sent_s => exact hss
    | sent_l => exact hsl
    | lost_s => exact hls
    | lost_l => exact hll
  · exact fun h => ⟨h .sent_s, h .sent_l, h .lost_s, h .lost_l⟩

theorem computes_foldlM_add (h : s.Fit) (l : List Block) :
    Computes (l.foldlM add s) (l.foldl plus s).Fit (l.foldl plus s) :=
  computes_foldlM Fit (fun s b _ => computes_add s b) (fun _ _ _ hfit => hfit.of_plus) h

end Sums

/-- **The totals** are exact as long as none of the four outgrows its 64 bits. -/
theorem computes_fold {t : MarkTotals} (ht : ∀ k, t.tally k < 2 ^ 64) (blocks : List Block) :
    Computes (fold t blocks) (∀ k, t.tally k +
      ((blocks.filter (fun b => decide (t.last_n < b.n) && !b.under_test)).map
        (Block.tally · k)).sum < 2 ^ 64) (t.fold blocks) := by
  have hstart : ∀ k, (⟨t.sent_s, t.sent_l, t.lost_s, t.lost_l⟩ : Sums).tally k = t.tally k := by
    intro k
    cases k <;> rfl
  have hfit : (⟨t.sent_s, t.sent_l, t.lost_s, t.lost_l⟩ : Sums).Fit := fun k => hstart k ▸ ht k
  -- the loop over the sums is the loop over the totals
  have hloop : ∀ (l : List Block) (t : MarkTotals), l.foldl MarkTotals.count t =
      { t with
        sent_s := (l.foldl Sums.plus ⟨t.sent_s, t.sent_l, t.lost_s, t.lost_l⟩).sent_s
        sent_l := (l.foldl Sums.plus ⟨t.sent_s, t.sent_l, t.lost_s, t.lost_l⟩).sent_l
        lost_s := (l.foldl Sums.plus ⟨t.sent_s, t.sent_l, t.lost_s, t.lost_l⟩).lost_s
        lost_l := (l.foldl Sums.plus ⟨t.sent_s, t.sent_l, t.lost_s, t.lost_l⟩).lost_l } := by
    intro l
    induction l with
    | nil => exact fun t => rfl
    | cons b l ih =>
      intro t
      rw [List.foldl_cons, ih]
      rfl
  refine ((Sums.computes_foldlM_add hfit _).map ?_).congr ?_
  · unfold MarkTotals.fold
    rw [hloop]
  · simp only [Sums.Fit, Sums.tally_foldl_plus, hstart]

/-! ### The summary -/

section Summarize

variable {F : Type} [LinearOrder F] [Arith F]

theorem fasterBlock_eq_ok (out : Summary F) (b : Block) :
    fasterBlock out b = .ok (Mielofon.fasterBlock out b) := by
  unfold fasterBlock Mielofon.fasterBlock
  rw [rate_mbps_eq_ok]
  rfl

theorem lossIsSteady_eq_ok {per_block : List F} (h : per_block.length < 2 ^ 63) :
    lossIsSteady per_block = .ok (Mielofon.lossIsSteady per_block) := by
  -- a list is never that long
  have hlossy : (per_block.filter (fun p => 0 < p)).length * 2 < 2 ^ 64 := by
    have := List.length_filter_le (fun p => decide (0 < p)) per_block
    omega
  have hmean : max per_block.length 1 ≠ 0 := Nat.ne_of_gt (lt_max_of_lt_right Nat.one_pos)
  unfold lossIsSteady
  dsimp only
  rw [(computes_checkedDiv _ _).eq_ok hmean, (computes_checkedMul _ _ _).eq_ok hlossy]
  rfl

variable {window : List Block}

theorem regimeOf_eq_ok (hsmall : ∀ b ∈ window, Small b) (hlen : window.length < 2 ^ 63)
    (hsent : sentOf window < 2 ^ 64) (s : Summary F) :
    regimeOf window s = .ok (Mielofon.regimeOf window s) := by
  -- no more is lost than was sent
  have hlost : sumOf 64 lost window = .ok (window.map Block.lost).sum :=
    (computes_sumOf (fun b hb => lost_eq_ok (hsmall b hb))).eq_ok
      (lt_of_le_of_lt (lostOf_le_sentOf window) hsent)
  have hgather : gather loss_pct window = .ok (window.filterMap (Block.loss_pct (F := F))) :=
    gather_eq_ok (fun b hb => loss_pct_eq_ok (hsmall b hb))
  have hsteady : lossIsSteady (window.filterMap (Block.loss_pct (F := F))) = .ok _ :=
    lossIsSteady_eq_ok (lt_of_le_of_lt (List.length_filterMap_le _ _) hlen)
  have hshape : (gather (loss_pct (F := F)) window >>= fun per_block =>
      lossIsSteady per_block >>= fun steady => pure (if steady then Regime.sparse else .bursty)) =
        .ok (if Mielofon.lossIsSteady (window.filterMap (Block.loss_pct (F := F))) then .sparse
          else .bursty) := by
    rw [hgather]
    show (lossIsSteady _ >>= _) = _
    rw [hsteady]
    rfl
  unfold regimeOf Mielofon.regimeOf
  rw [hlost]
  show (if (window.map Block.lost).sum = 0 then _ else _) = _
  rw [hshape]
  exact ((apply_ite Except.ok _ _ _).trans
    (congrArg (ite _ _) (apply_ite Except.ok _ _ _))).symm

/-- What a window is summarised to. -/
def exactAggregate (cfg : ClassifierCfg) (window : List Block) (out : Summary F) : Summary F :=
  let sent_s := (window.map Block.sent_s).sum
  let sent_l := (window.map Block.sent_l).sum
  let lost_s := (window.map Block.lost_s).sum
  let lost_l := (window.map Block.lost_l).sum
  let floor := cfg.mark_min_pkts
  let out := { out with
    blocks := window.length, sent_s := sent_s, sent_l := sent_l, lost_s := lost_s, lost_l := lost_l
    loss_pct := if floor ≤ sent_s + sent_l then some (Mielofon.pct (lost_s + lost_l) (sent_s + sent_l))
      else none
    loss_s_pct := if floor ≤ sent_s then some (Mielofon.pct lost_s sent_s) else none
    loss_l_pct := if floor ≤ sent_l then some (Mielofon.pct lost_l sent_l) else none }
  { out with regime := some (Mielofon.regimeOf window out) }

omit [LinearOrder F] [Arith F] in
theorem foldl_plus_zero (window : List Block) : window.foldl Sums.plus Sums.zero =
    ⟨(window.map Block.sent_s).sum, (window.map Block.sent_l).sum, (window.map Block.lost_s).sum,
      (window.map Block.lost_l).sum⟩ := by
  have htally : ∀ k, (window.foldl Sums.plus Sums.zero).tally k =
      (window.map (Block.tally · k)).sum := by
    intro k
    rw [Sums.tally_foldl_plus]
    cases k <;> exact Nat.zero_add _
  cases hs : window.foldl Sums.plus Sums.zero
  rw [hs] at htally
  exact congr (congr (congr (congrArg Sums.mk (htally .sent_s)) (htally .sent_l)) (htally .lost_s))
    (htally .lost_l)

theorem computes_aggregate (hsmall : ∀ b ∈ window, Small b) (hlen : window.length < 2 ^ 63)
    (cfg : ClassifierCfg) (out : Summary F) :
    Computes (aggregate cfg window out)
      (sentOf window < 2 ^ 64 ∧ (cfg.mark_min_pkts = 0 →
        0 < (window.map Block.sent_s).sum ∧ 0 < (window.map Block.sent_l).sum))
      (exactAggregate cfg window out) := by
  have hzero : Sums.zero.Fit := fun k => by cases k <;> exact Nat.two_pow_pos 64
  have hsums := Sums.computes_foldlM_add hzero window
  rw [foldl_plus_zero] at hsums
  -- the regime is computed exactly as soon as the sum of both bands is
  have hregime : sentOf window < 2 ^ 64 → ∀ out' : Summary F,
      Computes (regimeOf window out' >>= fun regime => pure { out' with regime := some regime }) True
        { out' with regime := some (Mielofon.regimeOf window out') } := fun hsent out' =>
    (Computes.of_eq (regimeOf_eq_ok hsmall hlen hsent out')).map rfl
  refine (hsums.bind (fun _ => (computes_checkedAdd _ _ _).bind (fun hsent =>
    (computes_checkedAdd _ _ _).bind (fun _ => (computes_lossFrom _ _ _).bind (fun _ =>
    (computes_lossFrom _ _ _).bind (fun _ => (computes_lossFrom _ _ _).bind (fun _ =>
    hregime ?_ _))))))).congr ?_
  · rw [← sum_sent]
    exact hsent
  · have hlost : (window.map Block.lost_s).sum + (window.map Block.lost_l).sum ≤ sentOf window :=
      (sum_lost window).trans_le (lostOf_le_sentOf window)
    rw [← sum_sent] at hlost ⊢
    constructor
    · -- the sum of both bands bounds the other sums
      rintro ⟨-, hsent, -, -, hs, hl, -⟩
      exact ⟨hsent, fun h0 => ⟨hs h0, hl h0⟩⟩
    · rintro ⟨hsent, hpos⟩
      refine ⟨fun k => ?_, hsent, lt_of_le_of_lt hlost hsent,
        fun h0 => Nat.add_pos_left (hpos h0).1 _, fun h0 => (hpos h0).1, fun h0 => (hpos h0).2,
        trivial⟩
      cases k <;> simp only [Sums.tally] <;> omega

/-- The summary as it is taken from its window. -/
theorem summarize_eq (blocks : List Block) (cfg : ClassifierCfg) (now : ℕ) :
    (Mielofon.summarize blocks cfg now : Summary F) =
      let out := (blocks.filter (fun b => b.age now ≤ cfg.tcp_fresh_secs)).foldl
        Mielofon.fasterBlock Summary.default
      let under_test := (blocks.filter (fun b => b.age now ≤ cfg.mark_window_secs)).any
        Block.under_test
      if (lossWindow cfg now blocks).isEmpty then
        if under_test then { out with regime := some .under_test } else out
      else exactAggregate cfg (lossWindow cfg now blocks) out := by
  rw [lossWindow_eq]
  rfl

/-- **The summary** is exact where every block ends within 64 bits, what was sent in its window fits
    in them, and a floor of zero meets no band in which nothing was sent. -/
theorem computes_summarize {blocks : List Block} (hsmall : ∀ b ∈ blocks, Small b)
    (hlen : blocks.length < 2 ^ 63) (cfg : ClassifierCfg) (now : ℕ) :
    Computes (summarize blocks cfg now)
      ((∀ b ∈ blocks, b.ts + b.secs < 2 ^ 64) ∧ sentOf (lossWindow cfg now blocks) < 2 ^ 64 ∧
        (cfg.mark_min_pkts = 0 → lossWindow cfg now blocks ≠ [] →
          0 < ((lossWindow cfg now blocks).map Block.sent_s).sum ∧
            0 < ((lossWindow cfg now blocks).map Block.sent_l).sum))
      (Mielofon.summarize blocks cfg now : Summary F) := by
  have hslow : ∀ b ∈ slowWindow cfg now blocks, b ∈ blocks := fun b hb => List.mem_of_mem_filter hb
  have hfast : ∀ b ∈ fastWindow cfg now blocks, b ∈ blocks :=
    fun b hb => hslow b (List.mem_of_mem_filter hb)
  have hsub := lossWindow_sublist cfg now blocks
  have hages : Computes (select (within now cfg.tcp_fresh_secs) blocks) _ _ :=
    computes_select (fun b _ => computes_within now cfg.tcp_fresh_secs b)
  -- once the end of every block fits, so do its ages
  have hage : (∀ b ∈ blocks, b.ts + b.secs < 2 ^ 64) → ∀ horizon, ∀ b ∈ blocks,
      within now horizon b = .ok (decide (b.age now ≤ horizon)) := fun hends horizon b hb =>
    (computes_within now horizon b).eq_ok (hends b hb)
  have hrecent : (∀ b ∈ blocks, b.ts + b.secs < 2 ^ 64) → select (fun b => if b.under_test then
      pure false else within now cfg.mark_recover_secs b) blocks = .ok (slowWindow cfg now blocks) :=
    fun hends => select_eq_ok (fun b hb => by
      rw [hage hends _ b hb]
      cases b.under_test <;> rfl)
  have htest : (∀ b ∈ blocks, b.ts + b.secs < 2 ^ 64) → anyOf (fun b => do
      let near ← within now cfg.mark_window_secs b
      pure (near && b.under_test)) blocks = .ok ((blocks.filter (fun b =>
        b.age now ≤ cfg.mark_window_secs)).any Block.under_test) := fun hends => by
    rw [List.any_filter]
    refine anyOf_eq_ok (fun b hb => ?_)
    rw [hage hends _ b hb]
    rfl
  have hlossy : anyOf (fun b => do
      let lost ← lost b
      pure (decide (0 < lost))) (fastWindow cfg now blocks) =
        .ok ((fastWindow cfg now blocks).any (fun b => 0 < b.lost)) :=
    anyOf_eq_ok (fun b hb => by
      rw [lost_eq_ok (hsmall b (hfast b hb))]
      rfl)
  have hsent : Computes (sumOf 64 sent (fastWindow cfg now blocks)) _
      ((fastWindow cfg now blocks).map Block.sent).sum :=
    computes_sumOf (fun b hb => sent_eq_ok (hsmall b (hfast b hb)))
  have hlast : ∀ (under_test : Bool) (out : Summary F), Computes
      (if (lossWindow cfg now blocks).isEmpty then
        pure (if under_test then { out with regime := some .under_test } else out)
      else aggregate cfg (lossWindow cfg now blocks) out) _ _ := fun under_test out =>
    Computes.ite (fun _ => Computes.of_eq rfl) (fun _ => computes_aggregate
      (fun b hb => hsmall b (hsub.subset hb)) (lt_of_le_of_lt hsub.length_le hlen) cfg out)
  have hfastSent : sentOf (fastWindow cfg now blocks) ≤ sentOf (lossWindow cfg now blocks) := by
    unfold lossWindow
    split
    · exact le_rfl
    · exact sentOf_fastWindow_le cfg now blocks
  rw [summarize_eq]
  unfold summarize
  refine Computes.congr (c := (∀ b ∈ blocks, b.ts + b.secs < 2 ^ 64) ∧
    sentOf (fastWindow cfg now blocks) < 2 ^ 64 ∧
    if (lossWindow cfg now blocks).isEmpty then True
    else sentOf (lossWindow cfg now blocks) < 2 ^ 64 ∧ (cfg.mark_min_pkts = 0 →
      0 < ((lossWindow cfg now blocks).map Block.sent_s).sum ∧
        0 < ((lossWindow cfg now blocks).map Block.sent_l).sum)) ?_ ?_
  · refine hages.bind (fun hends => Computes.after (foldlM_eq_ok _ (fun out b _ =>
      fasterBlock_eq_ok out b)) ?_)
    refine Computes.after (hrecent hends) (Computes.after (v := fastWindow cfg now blocks)
      (select_eq_ok (fun b hb => hage hends cfg.mark_window_secs b (hslow b hb)))
      (Computes.after (htest hends) ?_))
    refine hsent.bind (fun _ => Computes.after hlossy ?_)
    rw [← lossWindow_eq]
    exact hlast _ _
  · refine and_congr_right (fun _ => ?_)
    cases hnil : lossWindow cfg now blocks with
    | nil =>
      rw [hnil] at hfastSent
      exact iff_of_true ⟨lt_of_le_of_lt hfastSent (Nat.two_pow_pos 64), trivial⟩
        ⟨Nat.two_pow_pos 64, fun _ hne => absurd rfl hne⟩
    | cons b l =>
      rw [hnil] at hfastSent
      constructor
      · rintro ⟨-, hsum, hfloor⟩
        exact ⟨hsum, fun h0 _ => hfloor h0⟩
      · rintro ⟨hsum, hfloor⟩
        exact ⟨lt_of_le_of_lt hfastSent hsum, hsum, fun h0 => hfloor h0 (List.cons_ne_nil _ _)⟩

end Summarize

/-- Sums of fewer blocks than 2^31 always fit. -/
theorem sentOf_lt {window : List Block} (hsmall : ∀ b ∈ window, Small b)
    (hlen : window.length ≤ 2 ^ 31) : sentOf window < 2 ^ 64 := by
  have hsent : ∀ x ∈ window.map Block.sent, x ≤ 2 * RawSample.u32Max := by
    intro x hx
    obtain ⟨b, hb, rfl⟩ := List.mem_map.mp hx
    have := hsmall b hb
    unfold Small at this
    unfold Block.sent
    omega
  have hsum := List.sum_le_card_nsmul _ _ hsent
  rw [List.length_map, smul_eq_mul] at hsum
  calc sentOf window
      ≤ window.length * (2 * RawSample.u32Max) := hsum
    _ ≤ 2 ^ 31 * (2 * RawSample.u32Max) := Nat.mul_le_mul_right _ hlen
    _ < 2 ^ 64 := by decide

end Checked

/-! ### The stages together -/

/-- What the integer types of a block admit. -/
structure MarkBlock.Decoded (b : MarkBlock) : Prop where
  n : b.n < 2 ^ 64
  secs : b.secs < 2 ^ 32
  tx_pkts_s : b.tx_pkts_s < 2 ^ 64
  tx_pkts_l : b.tx_pkts_l < 2 ^ 64
  tx_bytes : b.tx_bytes < 2 ^ 64
  rx_pkts_s : b.rx_pkts_s < 2 ^ 64
  rx_pkts_l : b.rx_pkts_l < 2 ^ 64
  rx_bytes : b.rx_bytes < 2 ^ 64

variable {F : Type}

/-- A block joined from a half that was stamped, and any other half. -/
def Stamped (F : Type) [Zero F] (b : Block) : Prop :=
  ∃ (half : MarkBlock) (tx : RawSample F) (rev : List (RawSample F)),
    half.Decoded ∧ Checked.fromBlock half = .ok (some tx) ∧ joinOne rev tx = some b

/-- What was sent is in the sender's half. -/
theorem joinOne_sent {rev : List (RawSample F)} {tx : RawSample F} {b : Block}
    (h : joinOne rev tx = some b) :
    tx.mark_tx_s = some b.sent_s ∧ tx.mark_tx_l = some b.sent_l := by
  unfold joinOne at h
  simp only [Option.bind_eq_some_iff] at h
  obtain ⟨n, -, rx, -, h⟩ := h
  split at h
  · exact absurd h (by simp)
  simp only [Option.bind_eq_some_iff] at h
  obtain ⟨secs, -, h⟩ := h
  split at h
  · exact absurd h (by simp)
  simp only [Option.bind_eq_some_iff, Option.some.injEq] at h
  obtain ⟨_, hs, _, hl, _, -, _, -, _, -, rfl⟩ := h
  exact ⟨hs, hl⟩

/-- What a stamped half states. -/
theorem fromBlock_eq_some [Zero F] {half : MarkBlock} {s : RawSample F}
    (h : RawSample.fromBlock half = some s) :
    s.ts = half.n * half.secs ∧ s.mark_n = some half.n ∧ s.mark_secs = some half.secs ∧
      s.mark_tx_s = some (min half.tx_pkts_s RawSample.u32Max) ∧
      s.mark_tx_l = some (min half.tx_pkts_l RawSample.u32Max) := by
  unfold RawSample.fromBlock at h
  split at h
  · exact absurd h (by simp)
  · obtain rfl := Option.some.inj h
    exact ⟨rfl, rfl, rfl, rfl, rfl⟩

/-- A joined block starts at its number times its length, and its counters are those of 32 bits. -/
theorem Stamped.spec [Zero F] {b : Block} (h : Stamped F b) :
    b.ts = b.n * b.secs ∧ Checked.Small b := by
  obtain ⟨half, tx, rev, -, hstamp, hjoin⟩ := h
  obtain ⟨-, hexact⟩ := (Checked.computes_fromBlock half _).mp hstamp
  obtain ⟨hstart, hn, hsecs, hs, hl⟩ := fromBlock_eq_some hexact.symm
  obtain ⟨hts, hn', hsecs', -⟩ := joinOne_eq_some hjoin
  obtain ⟨hs', hl'⟩ := joinOne_sent hjoin
  rw [hn, Option.some.injEq] at hn'
  rw [hsecs, Option.some.injEq] at hsecs'
  rw [hs, Option.some.injEq] at hs'
  rw [hl, Option.some.injEq] at hl'
  refine ⟨by rw [hts, hstart, hn', hsecs'], ?_, ?_⟩
  · exact hs' ▸ min_le_right _ _
  · exact hl' ▸ min_le_right _ _

/-- What a summary asks of the blocks it is taken of. -/
structure SummaryFits (cfg : ClassifierCfg) (now : ℕ) (blocks : List Block) : Prop where
  ends : ∀ b ∈ blocks, (b.n + 1) * b.secs < 2 ^ 64
  sums : sentOf (lossWindow cfg now blocks) < 2 ^ 64
  floor : cfg.mark_min_pkts = 0 → lossWindow cfg now blocks ≠ [] →
    0 < ((lossWindow cfg now blocks).map Block.sent_s).sum ∧
      0 < ((lossWindow cfg now blocks).map Block.sent_l).sum

/-- **The arithmetic of the passive tier.** Stamping is exact where number times length fits in 64
    bits; what is taken of one joined block always is; a summary is under `SummaryFits`; and the totals
    are as long as each of them fits. -/
theorem pipeline_computes (F : Type) [LinearOrder F] [Arith F] :
    (∀ half : MarkBlock,
      Computes (Checked.fromBlock half) (half.secs = 0 ∨ half.n * half.secs < 2 ^ 64)
        (RawSample.fromBlock half : Option (RawSample F)) ∧
      ∀ s : RawSample F, RawSample.fromBlock half = some s → s.ts = half.n * half.secs) ∧
    (∀ b : Block, Stamped F b → b.ts = b.n * b.secs ∧
      Checked.sent b = .ok b.sent ∧ Checked.lost b = .ok b.lost ∧
      Checked.loss_pct b = .ok (b.loss_pct : Option F) ∧
      Checked.rate_mbps b = .ok (b.rate_mbps : F)) ∧
    (∀ (blocks : List Block) (cfg : ClassifierCfg) (now : ℕ),
      (∀ b ∈ blocks, Stamped F b) → blocks.length < 2 ^ 63 →
      Computes (Checked.summarize blocks cfg now) (SummaryFits cfg now blocks)
        (summarize blocks cfg now : Summary F)) ∧
    ∀ (t : MarkTotals) (blocks : List Block), (∀ k, t.tally k < 2 ^ 64) →
      Computes (Checked.fold t blocks) (∀ k, t.tally k +
        ((blocks.filter (fun b => decide (t.last_n < b.n) && !b.under_test)).map
          (Block.tally · k)).sum < 2 ^ 64) (t.fold blocks) := by
  refine ⟨fun half => ⟨Checked.computes_fromBlock half, fun s hs => (fromBlock_eq_some hs).1⟩,
    fun b hb => ?_, fun blocks cfg now hstamped hlen => ?_,
    fun t blocks ht => Checked.computes_fold ht blocks⟩
  · obtain ⟨hts, hsmall⟩ := hb.spec
    exact ⟨hts, Checked.sent_eq_ok hsmall, Checked.lost_eq_ok hsmall, Checked.loss_pct_eq_ok hsmall,
      Checked.rate_mbps_eq_ok b⟩
  · -- a block ends where the next one starts
    have hends : (∀ b ∈ blocks, b.ts + b.secs < 2 ^ 64) ↔
        ∀ b ∈ blocks, (b.n + 1) * b.secs < 2 ^ 64 := by
      refine forall₂_congr (fun b hb => ?_)
      rw [(hstamped b hb).spec.1, Nat.succ_mul]
    refine (Checked.computes_summarize (fun b hb => (hstamped b hb).spec.2) hlen cfg now).congr ?_
    rw [hends]
    exact ⟨fun h => ⟨h.1, h.2.1, h.2.2⟩, fun h => ⟨h.ends, h.sums, h.floor⟩⟩

/-- A block of two seconds whose number is 2^63. -/
private def farBlock : MarkBlock := ⟨2 ^ 63, 2, 0, 0, 0, 0, 0, 0, false, false⟩

/-- Twice 2^63 does not fit in 64 bits. -/
theorem far_block_overflows : ¬ ∀ half : MarkBlock, half.Decoded →
    ∃ s : Option (RawSample ℕ), Checked.fromBlock half = .ok s := fun h => by
  have hdecoded : farBlock.Decoded := by constructor <;> decide
  obtain ⟨s, hs⟩ := h farBlock hdecoded
  have hfits := ((Checked.computes_fromBlock farBlock s).mp hs).1
  exact absurd hfits (by decide)

end Mielofon
