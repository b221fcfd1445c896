import Mathlib
import Mielofon.Tsdb.Window

namespace Mielofon

/-!
# The passive tier

Loss and rate of a link from its alternate-marking blocks (`mark.rs`).  The sender counts what
it sends in a block, the receiver what arrives of it, and the two halves meet in the samples of
the link and of its reverse half.

`Arith` is the arithmetic of the code's floats, of which no law is assumed.

* `Block`, `join` — one joined block, and the join of two halves by block number;
* `Summary`, `summarize` — loss, rate and shape over the loss window;
* `impliedTcpMbps` — the TCP rate a loss allows;
* `joinOne_eq_some`, `exists_of_mem_join` — what is joined;
* `pairwise_join` — the joined blocks are in ascending order of their numbers.
-/

/-- The arithmetic of the passive tier. -/
class Arith (F : Type*) extends Zero F, Add F, Mul F, Div F, NatCast F where
  sqrt : F → F
  floor : F → F

/-- How the passive loss is converted to the TCP rate it allows. -/
inductive LossModel where
  | mathis
  | mbm
deriving DecidableEq, Repr

/-- How the two directions of one tunnel are combined. -/
inductive PairCost where
  | directional
  | symmetric
  | off
deriving DecidableEq, Repr

/-- The classifier's configuration. -/
structure ClassifierCfg where
  always_fresh_secs : ℕ
  tcp_fresh_secs : ℕ
  tcp_carry_secs : ℕ
  busy_hold_secs : ℕ
  hysteresis_passes : ℕ
  pair_cost : PairCost
  hub_spoke_cost_offset : ℕ
  mark_window_secs : ℕ
  mark_recover_secs : ℕ
  mark_min_pkts : ℕ
  loss_model : LossModel
  mss_bytes : ℕ
deriving DecidableEq, Repr

/-- One joined block of a directed link. -/
structure Block where
  n : ℕ
  ts : ℕ
  secs : ℕ
  sent_s : ℕ
  sent_l : ℕ
  recv_s : ℕ
  recv_l : ℕ
  bytes : ℕ
  under_test : Bool
deriving DecidableEq, Repr

namespace Block

def sent (b : Block) : ℕ := b.sent_s + b.sent_l

def lost_s (b : Block) : ℕ := b.sent_s - b.recv_s

def lost_l (b : Block) : ℕ := b.sent_l - b.recv_l

def lost (b : Block) : ℕ := b.lost_s + b.lost_l

end Block

variable {F : Type*}

section Rates

variable [Arith F]

/-- `part` of `whole` in percent. -/
def pct (part whole : ℕ) : F := (part : F) * (100 : ℕ) / (whole : F)

namespace Block

/-- Loss of the block in percent; `none` when nothing was sent. -/
def loss_pct (b : Block) : Option F := if 0 < b.sent then some (pct b.lost b.sent) else none

/-- The sender's rate over the block. -/
def rate_mbps (b : Block) : F := (b.bytes : F) * (8 : ℕ) / ((max b.secs 1 : ℕ) * (1000000 : ℕ))

end Block

end Rates

/-! ### The join -/

/-- The flag bits of a block sample. -/
def flagReset (s : RawSample F) : Bool := (s.mark_flags.getD 0) % 2 == 1

/-- A throughput test overlapped the block. -/
def flagUnderTest (s : RawSample F) : Bool := (s.mark_flags.getD 0) / 2 % 2 == 1

/-- The last block sample numbered `n`: the receiver's map by block number, where a later sample
    replaces an earlier one. -/
def rxOf (rev : List (RawSample F)) (n : ℕ) : Option (RawSample F) :=
  (rev.filter (fun s => s.isBlock && s.mark_n == some n)).getLast?

/-- The sender's half joined with the receiver's: `none` when either is missing, was restarted,
    or was counted on another length. -/
def joinOne (rev : List (RawSample F)) (tx : RawSample F) : Option Block :=
  tx.mark_n.bind fun n => (rxOf rev n).bind fun rx =>
    if flagReset tx || flagReset rx then none
    else tx.mark_secs.bind fun secs =>
      if rx.mark_secs ≠ some secs then none
      else tx.mark_tx_s.bind fun sent_s => tx.mark_tx_l.bind fun sent_l =>
        rx.mark_rx_s.bind fun recv_s => rx.mark_rx_l.bind fun recv_l =>
        tx.mark_tx_bytes.bind fun bytes =>
          some { n := n, ts := tx.ts, secs := secs, sent_s := sent_s, sent_l := sent_l,
                 recv_s := recv_s, recv_l := recv_l, bytes := bytes,
                 under_test := flagUnderTest tx || flagUnderTest rx }

/-- Drop the blocks that repeat the number of the one before (`dedup_by_key`). -/
def dedupByN : List Block → List Block
  | [] => []
  | b :: rest => match dedupByN rest with
    | [] => [b]
    | c :: kept => if b.n = c.n then b :: kept else b :: c :: kept

/-- Join the block samples of a directed link with those of its reverse half. -/
def join (own rev : List (RawSample F)) : List Block :=
  dedupByN (((own.filter RawSample.isBlock).filterMap (joinOne rev)).insertionSort
    (fun a b => a.n ≤ b.n))

/-! ### The summary -/

/-- The passive tier's contribution to a link's window. -/
structure Summary (F : Type*) where
  loss_pct : Option F
  loss_s_pct : Option F
  loss_l_pct : Option F
  rate_mbps : Option F
  rate_ts : Option ℕ
  regime : Option Regime
  blocks : ℕ
  sent_s : ℕ
  sent_l : ℕ
  lost_s : ℕ
  lost_l : ℕ

/-- The summary of nothing. -/
def Summary.default : Summary F := ⟨none, none, none, none, none, none, 0, 0, 0, 0, 0⟩

section Summarize

variable [LinearOrder F] [Arith F]

/-- The highest rate so far and the start of its block. -/
def fasterBlock (out : Summary F) (b : Block) : Summary F :=
  if out.rate_mbps.all (fun r => r < b.rate_mbps) then
    { out with rate_mbps := some b.rate_mbps, rate_ts := some b.ts }
  else out

/-- Whether the loss is spread over most blocks at a steady rate. -/
def lossIsSteady (per_block : List F) : Bool :=
  let lossy := (per_block.filter (fun p => 0 < p)).length
  let mean : F := per_block.foldl (· + ·) 0 / (max per_block.length 1 : ℕ)
  per_block.length < lossy * 2 && per_block.foldl max 0 ≤ (3 : ℕ) * mean

/-- The loss shape of the blocks the aggregate was taken over. -/
def regimeOf (window : List Block) (s : Summary F) : Regime :=
  if (window.map Block.lost).sum = 0 then .clean
  else if (match s.loss_s_pct, s.loss_l_pct with
      | some small, some large => decide (0 < large) && decide ((5 : ℕ) * small ≤ large)
      | _, _ => false) then .size_selective
  else if lossIsSteady (window.filterMap (Block.loss_pct (F := F))) then .sparse
  else .bursty

/-- Summarise the joined blocks of a link.  When the recent window shows loss the aggregate covers
    only it; when it is clean, the longer window, so that recovery is slow. -/
def summarize (blocks : List Block) (cfg : ClassifierCfg) (now : ℕ) : Summary F :=
  let age := fun (b : Block) => now - (b.ts + b.secs)
  let out := (blocks.filter (fun b => age b ≤ cfg.tcp_fresh_secs)).foldl fasterBlock
    (Summary.default : Summary F)
  let recent := blocks.filter (fun b => !b.under_test && decide (age b ≤ cfg.mark_recover_secs))
  let fast := recent.filter (fun b => age b ≤ cfg.mark_window_secs)
  let under_test := (blocks.filter (fun b => age b ≤ cfg.mark_window_secs)).any Block.under_test
  let fast_sent := (fast.map Block.sent).sum
  let window :=
    if fast.any (fun b => 0 < b.lost) && decide (cfg.mark_min_pkts ≤ fast_sent) then fast else recent
  if window.isEmpty then
    if under_test then { out with regime := some .under_test } else out
  else
    let sent_s := (window.map Block.sent_s).sum
    let sent_l := (window.map Block.sent_l).sum
    let lost_s := (window.map Block.lost_s).sum
    let lost_l := (window.map Block.lost_l).sum
    let floor := cfg.mark_min_pkts
    let out := { out with
      blocks := window.length, sent_s := sent_s, sent_l := sent_l, lost_s := lost_s, lost_l := lost_l
      loss_pct := if floor ≤ sent_s + sent_l then some (pct (lost_s + lost_l) (sent_s + sent_l)) else none
      loss_s_pct := if floor ≤ sent_s then some (pct lost_s sent_s) else none
      loss_l_pct := if floor ≤ sent_l then some (pct lost_l sent_l) else none }
    { out with regime := some (regimeOf window out) }

/-- The TCP rate a loss supports at a round-trip time.  `none` for zero loss, which is no
    constraint, never an infinite rate. -/
def impliedTcpMbps (loss_pct rtt_ms : F) (model : LossModel) (mss_bytes : ℕ) : Option F :=
  if 0 < loss_pct ∧ 0 < rtt_ms then
    let p := loss_pct / (100 : ℕ)
    let rtt := rtt_ms / (1000 : ℕ)
    let mss_bits : F := (mss_bytes : F) * (8 : ℕ)
    let bps := match model with
      | .mathis => (122 : ℕ) / (100 : ℕ) * mss_bits / (rtt * Arith.sqrt p)
      | .mbm => Arith.floor ((1 : ℕ) / Arith.sqrt ((3 : ℕ) * p)) * mss_bits / rtt
    some (bps / (1000000 : ℕ))
  else none

end Summarize

/-! ### What is joined -/

/-- A joined block carries the sender's second and number, and both halves are in the samples. -/
theorem joinOne_eq_some {rev : List (RawSample F)} {tx : RawSample F} {b : Block}
    (h : joinOne rev tx = some b) : b.ts = tx.ts ∧ tx.mark_n = some b.n ∧
      tx.mark_secs = some b.secs ∧ ∃ rx ∈ rev, rx.mark_n = some b.n ∧ rx.mark_secs = some b.secs := by
  unfold joinOne at h
  simp only [Option.bind_eq_some_iff] at h
  obtain ⟨n, hn, rx, hrx, h⟩ := h
  split at h
  · exact absurd h (by simp)
  simp only [Option.bind_eq_some_iff] at h
  obtain ⟨secs, hsecs, h⟩ := h
  split at h
  · exact absurd h (by simp)
  rename_i hrs
  simp only [Option.bind_eq_some_iff, Option.some.injEq] at h
  obtain ⟨_, _, _, _, _, _, _, _, _, _, rfl⟩ := h
  have hmem := List.mem_of_getLast? hrx
  rw [List.mem_filter, Bool.and_eq_true, beq_iff_eq] at hmem
  exact ⟨rfl, hn, hsecs, rx, hmem.1, hmem.2.2, not_not.mp hrs⟩

theorem mem_of_mem_dedupByN {b : Block} : ∀ {l : List Block}, b ∈ dedupByN l → b ∈ l
  | [], h => h
  | c :: rest, h => by
    unfold dedupByN at h
    split at h
    · exact List.mem_cons.mpr (Or.inl (List.mem_singleton.mp h))
    · rename_i d kept hd
      have hrest : ∀ x ∈ d :: kept, x ∈ rest := fun x hx => mem_of_mem_dedupByN (hd ▸ hx)
      split at h
      · rcases List.mem_cons.mp h with rfl | h
        · exact List.mem_cons_self
        · exact List.mem_cons_of_mem _ (hrest b (List.mem_cons_of_mem _ h))
      · rcases List.mem_cons.mp h with rfl | h
        · exact List.mem_cons_self
        · exact List.mem_cons_of_mem _ (hrest b h)

/-- What is joined was joined from a sample of the link. -/
theorem exists_of_mem_join {own rev : List (RawSample F)} {b : Block} (h : b ∈ join own rev) :
    ∃ tx ∈ own, joinOne rev tx = some b := by
  have hmem := mem_of_mem_dedupByN h
  rw [List.mem_insertionSort, List.mem_filterMap] at hmem
  obtain ⟨tx, htx, hj⟩ := hmem
  exact ⟨tx, (List.mem_filter.mp htx).1, hj⟩

/-- Dropping repeated numbers from an ascending list leaves a strictly ascending one. -/
theorem pairwise_dedupByN : ∀ {l : List Block}, l.Pairwise (fun a b => a.n ≤ b.n) →
    (dedupByN l).Pairwise (fun a b => a.n < b.n)
  | [], _ => List.Pairwise.nil
  | b :: rest, h => by
    obtain ⟨hb, hrest⟩ := List.pairwise_cons.mp h
    have hkept := pairwise_dedupByN hrest
    unfold dedupByN
    split
    · exact List.pairwise_singleton _ _
    · rename_i c kept hc
      rw [hc] at hkept
      obtain ⟨hck, hkept⟩ := List.pairwise_cons.mp hkept
      have hbc : b.n ≤ c.n := hb c (mem_of_mem_dedupByN (hc ▸ List.mem_cons_self))
      split
      · rename_i heq
        exact List.pairwise_cons.mpr ⟨fun x hx => heq ▸ hck x hx, hkept⟩
      · rename_i hne
        refine List.pairwise_cons.mpr ⟨fun x hx => ?_, List.pairwise_cons.mpr ⟨hck, hkept⟩⟩
        rcases List.mem_cons.mp hx with rfl | hx
        · omega
        · have := hck x hx
          omega

/-- The joined blocks are in ascending order of their numbers. -/
theorem pairwise_join (own rev : List (RawSample F)) :
    (join own rev).Pairwise (fun a b => a.n < b.n) :=
  pairwise_dedupByN (List.pairwise_insertionSort _ _)

end Mielofon
