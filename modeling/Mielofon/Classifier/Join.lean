import Mielofon.Classifier.LossWindow
import Mielofon.Lib.Keyed

namespace Mielofon

open Lib

/-!
# The join of two halves

A block of a link is counted at both of its ends, and the samples of the link and of its reverse
half hold one half each (`join` in `mark.rs`).  Where no list repeats a block number, what is
joined is a relation between two samples, and the order of the samples does not matter.

* `UniqueBlocks` — no two block samples of the list have one number;
* `Joins`, `Joined` — two halves that belong together, and the block they make;
* `joinOne_eq_some_iff`, `mem_join_iff` — what is joined, half by half and over the lists;
* `ascending_join` — the joined blocks are in ascending order of their numbers;
* `Percent` — what is assumed of the arithmetic of percentages;
* `join_characterised` — the join of any two lists.
-/

variable {F : Type*}

/-- No two block samples have one number. -/
def UniqueBlocks (samples : List (RawSample F)) : Prop :=
  ((samples.filter RawSample.isBlock).map RawSample.mark_n).Nodup

/-- The halves of block `n` belong together: counted over one length, neither restarted, with the
    counters each end contributes. -/
structure Joins (n : ℕ) (tx rx : RawSample F) : Prop where
  own : tx.mark_n = some n
  other : rx.mark_n = some n
  length : tx.mark_secs.isSome ∧ rx.mark_secs = tx.mark_secs
  kept : flagReset tx = false ∧ flagReset rx = false
  sent : tx.mark_tx_s.isSome ∧ tx.mark_tx_l.isSome ∧ tx.mark_tx_bytes.isSome
  received : rx.mark_rx_s.isSome ∧ rx.mark_rx_l.isSome

/-- `b` is the block two halves make. -/
structure Joined (tx rx : RawSample F) (b : Block) : Prop where
  joins : Joins b.n tx rx
  ts : b.ts = tx.ts
  secs : tx.mark_secs = some b.secs
  sent_s : tx.mark_tx_s = some b.sent_s
  sent_l : tx.mark_tx_l = some b.sent_l
  bytes : tx.mark_tx_bytes = some b.bytes
  recv_s : rx.mark_rx_s = some b.recv_s
  recv_l : rx.mark_rx_l = some b.recv_l
  under_test : b.under_test = (flagUnderTest tx || flagUnderTest rx)

theorem RawSample.isBlock_of_mark_n {s : RawSample F} {n : ℕ} (h : s.mark_n = some n) :
    s.isBlock = true := by
  rw [isBlock, h]
  rfl

theorem Joins.exists_joined {n : ℕ} {tx rx : RawSample F} (h : Joins n tx rx) :
    ∃ b, b.n = n ∧ Joined tx rx b := by
  obtain ⟨secs, hsecs⟩ := Option.isSome_iff_exists.mp h.length.1
  obtain ⟨sent_s, hs⟩ := Option.isSome_iff_exists.mp h.sent.1
  obtain ⟨sent_l, hl⟩ := Option.isSome_iff_exists.mp h.sent.2.1
  obtain ⟨bytes, hbytes⟩ := Option.isSome_iff_exists.mp h.sent.2.2
  obtain ⟨recv_s, hrs⟩ := Option.isSome_iff_exists.mp h.received.1
  obtain ⟨recv_l, hrl⟩ := Option.isSome_iff_exists.mp h.received.2
  exact ⟨⟨n, tx.ts, secs, sent_s, sent_l, recv_s, recv_l, bytes, flagUnderTest tx || flagUnderTest rx⟩,
    rfl, h, rfl, hsecs, hs, hl, hbytes, hrs, hrl, rfl⟩

/-! ### One number -/

/-- Without repeated numbers the receiver's map holds the sample of the number. -/
theorem rxOf_eq_some_iff {rev : List (RawSample F)} (h : UniqueBlocks rev) {n : ℕ}
    {rx : RawSample F} : rxOf rev n = some rx ↔ rx ∈ rev ∧ rx.mark_n = some n := by
  have hmem : ∀ s, s ∈ rev.filter (fun s => s.isBlock && s.mark_n == some n) ↔
      s ∈ rev ∧ s.mark_n = some n := by
    intro s
    rw [List.mem_filter, Bool.and_eq_true, beq_iff_eq]
    exact ⟨fun hs => ⟨hs.1, hs.2.2⟩, fun hs => ⟨hs.1, RawSample.isBlock_of_mark_n hs.2, hs.2⟩⟩
  unfold rxOf
  constructor
  · intro hlast
    exact (hmem rx).mp (List.mem_of_getLast? hlast)
  · intro hrx
    cases hlast : (rev.filter (fun s => s.isBlock && s.mark_n == some n)).getLast? with
    | none =>
      rw [List.getLast?_eq_none_iff] at hlast
      have hin := (hmem rx).mpr hrx
      rw [hlast] at hin
      exact absurd hin List.not_mem_nil
    | some s =>
      -- the sample found has the number too, so it is the same one
      obtain ⟨hs, hn⟩ := (hmem s).mp (List.mem_of_getLast? hlast)
      have hblock : ∀ s ∈ rev, s.mark_n = some n → s ∈ rev.filter RawSample.isBlock :=
        fun s hs hn => List.mem_filter.mpr ⟨hs, RawSample.isBlock_of_mark_n hn⟩
      rw [List.inj_on_of_nodup_map h (hblock s hs hn) (hblock rx hrx.1 hrx.2) (hn.trans hrx.2.symm)]

theorem joinOne_eq_some_iff {rev : List (RawSample F)} (h : UniqueBlocks rev)
    {tx : RawSample F} {b : Block} :
    joinOne rev tx = some b ↔ ∃ rx ∈ rev, Joined tx rx b := by
  unfold joinOne
  simp only [Option.bind_eq_some_iff, rxOf_eq_some_iff h]
  constructor
  · rintro ⟨n, hn, rx, ⟨hmem, hrn⟩, hrest⟩
    split at hrest
    · exact absurd hrest (by simp)
    rename_i hreset
    obtain ⟨secs, hsecs, hrest⟩ := Option.bind_eq_some_iff.mp hrest
    split at hrest
    · exact absurd hrest (by simp)
    rename_i hlength
    simp only [Option.bind_eq_some_iff, Option.some.injEq] at hrest
    obtain ⟨_, hs, _, hl, _, hrs, _, hrl, _, hbytes, rfl⟩ := hrest
    rw [Bool.or_eq_true, not_or, Bool.not_eq_true, Bool.not_eq_true] at hreset
    have hjoins : Joins n tx rx :=
      { own := hn, other := hrn, kept := hreset
        length := ⟨by rw [hsecs]; rfl, (not_not.mp hlength).trans hsecs.symm⟩
        sent := ⟨by rw [hs]; rfl, by rw [hl]; rfl, by rw [hbytes]; rfl⟩
        received := ⟨by rw [hrs]; rfl, by rw [hrl]; rfl⟩ }
    exact ⟨rx, hmem, hjoins, rfl, hsecs, hs, hl, hbytes, hrs, hrl, rfl⟩
  · rintro ⟨rx, hmem, hj⟩
    refine ⟨b.n, hj.joins.own, rx, ⟨hmem, hj.joins.other⟩, ?_⟩
    have hlength : rx.mark_secs = some b.secs := hj.joins.length.2.trans hj.secs
    simp only [hj.joins.kept.1, hj.joins.kept.2, Bool.or_self, Bool.false_eq_true, if_false, hj.secs,
      hlength, ne_eq, not_true_eq_false, hj.sent_s, hj.sent_l, hj.recv_s, hj.recv_l, hj.bytes,
      Option.bind_some, ← hj.ts, ← hj.under_test]

/-! ### The lists -/

/-- Nothing is dropped from a strictly ascending list. -/
theorem dedupByN_eq_self : ∀ {l : List Block}, l.Pairwise (fun a b => a.n < b.n) → dedupByN l = l
  | [], _ => rfl
  | b :: rest, h => by
    obtain ⟨hb, hrest⟩ := List.pairwise_cons.mp h
    unfold dedupByN
    rw [dedupByN_eq_self hrest]
    cases rest with
    | nil => rfl
    | cons c rest => exact if_neg (Nat.ne_of_lt (hb c List.mem_cons_self))

/-- The blocks joined from distinct numbers have distinct numbers. -/
private theorem pairwise_ne_joinOne {own : List (RawSample F)} (h : UniqueBlocks own)
    (rev : List (RawSample F)) :
    ((own.filter RawSample.isBlock).filterMap (joinOne rev)).Pairwise (fun a b => a.n ≠ b.n) := by
  rw [List.pairwise_filterMap]
  refine (List.pairwise_map.mp h).imp (fun hne => ?_)
  intro b hb b' hb' heq
  exact hne ((joinOne_eq_some hb).2.1.trans (heq ▸ (joinOne_eq_some hb').2.1.symm))

/-- Without repeated numbers the join is the sorted list of the joined halves. -/
theorem join_eq {own : List (RawSample F)} (h : UniqueBlocks own) (rev : List (RawSample F)) :
    join own rev = ((own.filter RawSample.isBlock).filterMap (joinOne rev)).insertionSort
      (fun a b => a.n ≤ b.n) := by
  refine dedupByN_eq_self ?_
  -- sorted, and no two of one number: ascending strictly, so nothing is dropped
  have hne := (List.perm_insertionSort (fun a b : Block => a.n ≤ b.n) _).symm.pairwise
    (pairwise_ne_joinOne h rev) (fun hab => hab.symm)
  have hle := List.pairwise_insertionSort (fun a b : Block => a.n ≤ b.n)
    ((own.filter RawSample.isBlock).filterMap (joinOne rev))
  exact (hle.and hne).imp (fun ⟨hab, hab'⟩ => Nat.lt_of_le_of_ne hab hab')

theorem mem_join_iff {own rev : List (RawSample F)} (hown : UniqueBlocks own)
    (hrev : UniqueBlocks rev) {b : Block} :
    b ∈ join own rev ↔ ∃ tx ∈ own, ∃ rx ∈ rev, Joined tx rx b := by
  rw [join_eq hown, List.mem_insertionSort, List.mem_filterMap]
  simp only [List.mem_filter, joinOne_eq_some_iff hrev]
  constructor
  · rintro ⟨tx, ⟨htx, -⟩, hj⟩
    exact ⟨tx, htx, hj⟩
  · rintro ⟨tx, htx, rx, hrx, hj⟩
    exact ⟨tx, ⟨htx, RawSample.isBlock_of_mark_n hj.joins.own⟩, rx, hrx, hj⟩

theorem ascending_join (own rev : List (RawSample F)) : Ascending Block.n (join own rev) :=
  pairwise_join own rev

/-- Lists that hold the same block samples are joined alike. -/
theorem join_congr {own own' rev rev' : List (RawSample F)} (hown : UniqueBlocks own)
    (hrev : UniqueBlocks rev) (hown' : UniqueBlocks own') (hrev' : UniqueBlocks rev')
    (h : ∀ s : RawSample F, s.isBlock = true → (s ∈ own ↔ s ∈ own'))
    (h' : ∀ s : RawSample F, s.isBlock = true → (s ∈ rev ↔ s ∈ rev')) :
    join own rev = join own' rev' := by
  refine (ascending_join own rev).eq_of_slot (ascending_join own' rev') (fun n => ?_)
  ext b
  rw [slot_eq_some_iff (ascending_join own rev), slot_eq_some_iff (ascending_join own' rev'),
    mem_join_iff hown hrev, mem_join_iff hown' hrev']
  refine and_congr_left' ⟨?_, ?_⟩
  · rintro ⟨tx, htx, rx, hrx, hj⟩
    exact ⟨tx, (h tx (RawSample.isBlock_of_mark_n hj.joins.own)).mp htx, rx,
      (h' rx (RawSample.isBlock_of_mark_n hj.joins.other)).mp hrx, hj⟩
  · rintro ⟨tx, htx, rx, hrx, hj⟩
    exact ⟨tx, (h tx (RawSample.isBlock_of_mark_n hj.joins.own)).mpr htx, rx,
      (h' rx (RawSample.isBlock_of_mark_n hj.joins.other)).mpr hrx, hj⟩

theorem UniqueBlocks.perm {samples samples' : List (RawSample F)} (h : UniqueBlocks samples)
    (hperm : samples.Perm samples') : UniqueBlocks samples' :=
  ((hperm.filter _).map _).nodup_iff.mp h

theorem UniqueBlocks.filter {samples : List (RawSample F)} (h : UniqueBlocks samples) :
    UniqueBlocks (samples.filter RawSample.isBlock) := by
  unfold UniqueBlocks
  rw [List.filter_filter]
  simp only [Bool.and_self]
  exact h

/-! ### Percentages -/

section Percentages

variable [LinearOrder F] [Arith F]

/-- What is assumed of the arithmetic of percentages: one of more parts is no smaller, none is
    zero, and the whole is a hundred for the counts whose hundredfold is exact. -/
structure Percent (F : Type*) [LinearOrder F] [Arith F] : Prop where
  mono : ∀ part part' whole : ℕ, part ≤ part' → 0 < whole → (pct part whole : F) ≤ pct part' whole
  none : ∀ whole : ℕ, 0 < whole → (pct 0 whole : F) = 0
  whole : ∀ whole : ℕ, 0 < whole → whole ≤ 2 ^ 46 → (pct whole whole : F) = (100 : ℕ)

/-- Between zero and a hundred. -/
def IsPercentage (p : F) : Prop := 0 ≤ p ∧ p ≤ (100 : ℕ)

theorem isPercentage_pct (hpct : Percent F) {part whole : ℕ} (h : part ≤ whole) (h0 : 0 < whole)
    (hfit : whole ≤ 2 ^ 46) : IsPercentage (pct part whole : F) := by
  constructor
  · rw [← hpct.none whole h0]
    exact hpct.mono 0 part whole (Nat.zero_le part) h0
  · rw [← hpct.whole whole h0 hfit]
    exact hpct.mono part whole whole h h0

omit [LinearOrder F] [Arith F]

theorem Block.lost_s_le (b : Block) : b.lost_s ≤ b.sent_s := Nat.sub_le _ _

theorem Block.lost_l_le (b : Block) : b.lost_l ≤ b.sent_l := Nat.sub_le _ _

theorem Block.lost_le (b : Block) : b.lost ≤ b.sent := Nat.add_le_add b.lost_s_le b.lost_l_le

end Percentages

/-- The packet counters are within `u32`, as the code's type has them. -/
def CountersFit (s : RawSample F) : Prop :=
  (∀ p, s.mark_tx_s = some p → p ≤ RawSample.u32Max) ∧ ∀ p, s.mark_tx_l = some p → p ≤ RawSample.u32Max

/-- For any two lists without repeated block numbers: the joined blocks ascend strictly in their
    numbers; a number is joined exactly when both lists hold halves of it that belong together; a
    joined block sends what the own half sent, receives what the reverse half received, and is
    under test if either half is; neither band loses more than it sent, so the losses of a block
    and of any joined blocks together are percentages; only block samples count; and the order
    of neither list does. -/
theorem join_characterised [LinearOrder F] [Arith F] (hpct : Percent F)
    {own rev : List (RawSample F)} (hown : UniqueBlocks own) (hrev : UniqueBlocks rev)
    (hfit : ∀ s ∈ own, CountersFit s) :
    (join own rev).Pairwise (fun a b => a.n < b.n) ∧
    (∀ n, (∃ b ∈ join own rev, b.n = n) ↔ ∃ tx ∈ own, ∃ rx ∈ rev, Joins n tx rx) ∧
    (∀ b ∈ join own rev, ∃ tx ∈ own, ∃ rx ∈ rev, Joined tx rx b) ∧
    (∀ b ∈ join own rev, b.lost_s ≤ b.sent_s ∧ b.lost_l ≤ b.sent_l ∧
      (∀ p : F, b.loss_pct = some p → IsPercentage p) ∧
      (0 < b.sent_s → IsPercentage (pct b.lost_s b.sent_s : F)) ∧
      (0 < b.sent_l → IsPercentage (pct b.lost_l b.sent_l : F))) ∧
    (∀ window : List Block, window ⊆ join own rev →
      ∀ band ∈ [(Block.lost_s, Block.sent_s), (Block.lost_l, Block.sent_l), (Block.lost, Block.sent)],
        0 < (window.map band.2).sum → (window.map band.2).sum ≤ 2 ^ 46 →
          IsPercentage (pct (window.map band.1).sum (window.map band.2).sum : F)) ∧
    join (own.filter RawSample.isBlock) (rev.filter RawSample.isBlock) = join own rev ∧
    ∀ own' rev', own.Perm own' → rev.Perm rev' → join own' rev' = join own rev := by
  -- the other samples of either list take no part
  have hblock : ∀ (l : List (RawSample F)) (s : RawSample F), s.isBlock = true →
      (s ∈ l.filter RawSample.isBlock ↔ s ∈ l) :=
    fun l s hs => by rw [List.mem_filter, and_iff_left hs]
  refine ⟨pairwise_join own rev, fun n => ⟨?_, ?_⟩, fun b hb => (mem_join_iff hown hrev).mp hb,
    fun b hb => ⟨b.lost_s_le, b.lost_l_le, ?_⟩, ?_,
    join_congr hown.filter hrev.filter hown hrev (hblock own) (hblock rev),
    fun own' rev' hperm hperm' => join_congr (hown.perm hperm) (hrev.perm hperm') hown hrev
      (fun s _ => hperm.symm.mem_iff) (fun s _ => hperm'.symm.mem_iff)⟩
  · rintro ⟨b, hb, rfl⟩
    obtain ⟨tx, htx, rx, hrx, hj⟩ := (mem_join_iff hown hrev).mp hb
    exact ⟨tx, htx, rx, hrx, hj.joins⟩
  · rintro ⟨tx, htx, rx, hrx, hjoins⟩
    obtain ⟨b, rfl, hj⟩ := hjoins.exists_joined
    exact ⟨b, (mem_join_iff hown hrev).mpr ⟨tx, htx, rx, hrx, hj⟩, rfl⟩
  · -- what was sent is two counters of the own half, and their hundredfold is exact
    obtain ⟨tx, htx, rx, -, hj⟩ := (mem_join_iff hown hrev).mp hb
    have hs := (hfit tx htx).1 b.sent_s hj.sent_s
    have hl := (hfit tx htx).2 b.sent_l hj.sent_l
    rw [RawSample.u32Max] at hs hl
    refine ⟨fun p hp => ?_, fun h0 => isPercentage_pct hpct b.lost_s_le h0 (by omega),
      fun h0 => isPercentage_pct hpct b.lost_l_le h0 (by omega)⟩
    unfold Block.loss_pct at hp
    split at hp
    · rename_i h0
      obtain rfl := Option.some.inj hp
      exact isPercentage_pct hpct b.lost_le h0 (by unfold Block.sent; omega)
    · exact absurd hp (by simp)
  · -- band by band, a block loses no more than it sent
    intro window _ band hband h0 hsum
    refine isPercentage_pct hpct (List.sum_le_sum (fun b _ => ?_)) h0 hsum
    simp only [List.mem_cons, List.not_mem_nil, or_false] at hband
    rcases hband with rfl | rfl | rfl
    · exact b.lost_s_le
    · exact b.lost_l_le
    · exact b.lost_le

/-! ### A join with a gap, a restart and a late packet -/

section Example

attribute [local instance] realArith

theorem percent_real : Percent ℝ where
  mono part part' whole h h0 := (exactPct_real part whole part' whole h0 h0).mpr
    (Nat.mul_le_mul_right whole h)
  none whole h0 := by simp [pct]
  whole whole h0 _ := by
    have h : (whole : ℝ) ≠ 0 := by exact_mod_cast h0.ne'
    rw [pct, mul_comm, mul_div_assoc, div_self h, mul_one]

/-- The half of block `n` a sample of ten seconds holds. -/
noncomputable def halfOf (n tx_l rx_l flags : ℕ) : RawSample ℝ :=
  { (RawSample.default : RawSample ℝ) with
    ts := n * 10, mark_n := some n, mark_secs := some 10, mark_tx_s := some 0, mark_tx_l := some tx_l
    mark_tx_bytes := some (tx_l * 1000), mark_rx_s := some 0, mark_rx_l := some rx_l
    mark_flags := some flags }

/-- Of three blocks sent, the second was restarted and the third arrived with a packet more. -/
noncomputable def sentHalves : List (RawSample ℝ) :=
  [halfOf 100 20 0 0, halfOf 101 20 0 1, halfOf 102 20 0 0]

noncomputable def receivedHalves : List (RawSample ℝ) := [halfOf 102 0 21 2, halfOf 100 0 15 0]

theorem joins_two_of_three :
    join sentHalves receivedHalves =
        [⟨100, 1000, 10, 0, 20, 0, 15, 20000, false⟩, ⟨102, 1020, 10, 0, 20, 0, 21, 20000, true⟩] ∧
      ∀ b ∈ join sentHalves receivedHalves, ∀ p : ℝ, b.loss_pct = some p → IsPercentage p := by
  have hsent : UniqueBlocks sentHalves := by unfold UniqueBlocks; decide
  have hreceived : UniqueBlocks receivedHalves := by unfold UniqueBlocks; decide
  have hspec := join_characterised percent_real hsent hreceived
    (by simp [sentHalves, halfOf, CountersFit, RawSample.u32Max])
  exact ⟨by rfl, fun b hb => (hspec.2.2.2.1 b hb).2.2.1⟩

end Example

end Mielofon
