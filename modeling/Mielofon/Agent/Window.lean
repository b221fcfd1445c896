import Mathlib
import Mielofon.Agent.Node
import Mielofon.Lib.Bounded

namespace Mielofon

open Lib

/-!
# The ping window of a link

One window holds the outcome of the last pings of a link, a reply with its rtt or a timeout, and
counts them (`window.rs`).  An rtt leaves the window with the loss it stands beside.

* `Window` — `new`, `recordReply`, `recordTimeout`, `snapshot` as the agent has them;
* `selectRtt` — the rtt of a matched reply, by the kernel's clock or the monotonic one;
* `Window.Holds` — a window after a list of outcomes;
* `Window.snapshot_rtt`, `Window.snapshot_loss` — what the snapshot says of them.
-/

/-- The outcomes of the last `size` pings, newest last: an rtt, or none for a timeout. -/
structure Window (F : Type*) where
  size : ℕ
  outcomes : List (Option F)
  sent : ℕ
  received : ℕ
  lost : ℕ
deriving DecidableEq, Repr

namespace Window

variable {F : Type*}

def new (size : ℕ) : Window F := ⟨max size 2, [], 0, 0, 0⟩

def push (w : Window F) (outcome : Option F) : Window F :=
  { w with outcomes := popFront w.size (w.outcomes ++ [outcome]) }

def recordReply (w : Window F) (rtt_ms : F) : Window F :=
  { w with received := w.received + 1 }.push (some rtt_ms)

def recordTimeout (w : Window F) : Window F := { w with lost := w.lost + 1 }.push none

/-- A ping is sent, or failed to be. -/
def countSent (w : Window F) : Window F := { w with sent := w.sent + 1 }

/-- The replies within the window. -/
def rtts (w : Window F) : List F := w.outcomes.filterMap id

variable [Field F]

/-- The mean of the replies. -/
def mean (w : Window F) : Option F :=
  if 0 < w.rtts.length then some (w.rtts.sum / w.rtts.length) else none

/-- What a reply carries to the controller; what is not measured is none. -/
def snapshot (sqrt : F → F) (w : Window F) : Snapshot F where
  rtt_ms := w.mean
  jitter_ms := w.mean.bind fun m =>
    if 2 ≤ w.rtts.length then
      some (sqrt ((w.rtts.map (fun r => (r - m) ^ 2)).sum / w.rtts.length))
    else none
  loss_pct :=
    if w.outcomes ≠ [] then
      some (100 * (w.outcomes.countP Option.isNone : F) / w.outcomes.length)
    else none

end Window

/-- The rtt of a matched reply in milliseconds: by the kernel's stamp, unless that cannot be
    right, and then by the monotonic clock.  Both are in nanoseconds. -/
def selectRtt {F : Type*} [Field F] (kernel : Option ℤ) (mono : ℕ) : F :=
  (((kernel.filter fun k : ℤ => decide (0 ≤ k ∧ k ≤ mono)).getD (mono : ℤ) : ℤ) : F) / 1000000

/-- Neither clock gives an rtt below zero or above the monotonic span. -/
theorem selectRtt_bounds {F : Type*} [Field F] [LinearOrder F] [IsStrictOrderedRing F]
    (kernel : Option ℤ) (mono : ℕ) :
    0 ≤ (selectRtt kernel mono : F) ∧ (selectRtt kernel mono : F) ≤ (mono : F) / 1000000 := by
  have hns : ∀ k : ℤ, 0 ≤ k ∧ k ≤ mono →
      0 ≤ (k : F) / 1000000 ∧ (k : F) / 1000000 ≤ (mono : F) / 1000000 := by
    intro k hk
    have hpos : (0 : F) ≤ (k : F) := Int.cast_nonneg hk.1
    have hle : (k : F) ≤ (mono : F) := by exact_mod_cast hk.2
    exact ⟨by positivity, by gcongr⟩
  refine hns _ ?_
  cases hk : kernel.filter fun k : ℤ => decide (0 ≤ k ∧ k ≤ mono) with
  | none => simp
  | some k => exact of_decide_eq_true (Option.filter_eq_some_iff.1 hk).2

namespace Window

/-! ### A window after a list of outcomes -/

variable {F : Type*}

/-- The window records one outcome. -/
def record (w : Window F) : Option F → Window F
  | some rtt => w.recordReply rtt
  | none => w.recordTimeout

/-- The window holds the newest of the outcomes recorded, and counts them all. -/
structure Holds (size : ℕ) (log : List (Option F)) (w : Window F) : Prop where
  sized : w.size = max size 2
  outcomes : w.outcomes = log.rtake (max size 2)
  received : w.received = log.countP Option.isSome
  lost : w.lost = log.countP Option.isNone

variable {size : ℕ} {log : List (Option F)} {w : Window F}

theorem holds_new (size : ℕ) : Holds size [] (new size : Window F) where
  sized := rfl
  outcomes := (List.rtake_nil _).symm
  received := rfl
  lost := rfl

@[simp] theorem sent_record (w : Window F) (o : Option F) : (w.record o).sent = w.sent := by
  cases o <;> rfl

theorem size_record (w : Window F) (o : Option F) : (w.record o).size = w.size := by
  cases o <;> rfl

theorem outcomes_record (w : Window F) (o : Option F) :
    (w.record o).outcomes = popFront w.size (w.outcomes ++ [o]) := by
  cases o <;> rfl

/-- **Step lemma.** One more outcome. -/
theorem Holds.record (h : Holds size log w) (o : Option F) :
    Holds size (log ++ [o]) (w.record o) where
  sized := by rw [size_record, h.sized]
  outcomes := by rw [outcomes_record, h.sized, h.outcomes, popFront_push]
  received := by
    rw [List.countP_append, ← h.received]
    cases o <;> rfl
  lost := by
    rw [List.countP_append, ← h.lost]
    cases o <;> rfl

theorem Holds.countSent (h : Holds size log w) : Holds size log w.countSent :=
  ⟨h.sized, h.outcomes, h.received, h.lost⟩

/-- All outcomes are counted as received or as lost. -/
theorem Holds.total (h : Holds size log w) : w.received + w.lost = log.length := by
  rw [h.received, h.lost, List.length_eq_countP_add_countP Option.isSome]
  congr 1
  exact List.countP_congr (fun o _ => by cases o <;> simp)

/-! ### What a snapshot says -/

section Snapshot

variable [Field F]

theorem mean_eq_none_iff : w.mean = none ↔ ∀ o ∈ w.outcomes, o = none := by
  have hnil : ¬ 0 < w.rtts.length ↔ ∀ o ∈ w.outcomes, o = none := by
    rw [List.length_pos_iff, not_not, Window.rtts, List.filterMap_eq_nil_iff]
    rfl
  rw [← hnil, mean]
  split <;> simp_all

variable [LinearOrder F] [IsStrictOrderedRing F]

/-- A sum of numbers within bounds is within their multiples. -/
private theorem sum_within {l : List F} {lo hi : F} (h : ∀ r ∈ l, lo ≤ r ∧ r ≤ hi) :
    lo * l.length ≤ l.sum ∧ l.sum ≤ hi * l.length := by
  constructor
  · have hle := List.card_nsmul_le_sum l lo (fun r hr => (h r hr).1)
    rw [nsmul_eq_mul, mul_comm] at hle
    exact hle
  · have hle := List.sum_le_card_nsmul l hi (fun r hr => (h r hr).2)
    rw [nsmul_eq_mul, mul_comm] at hle
    exact hle

/-- The mean lies between bounds of the replies. -/
theorem mean_within {lo hi m : F} (hm : w.mean = some m) (h : ∀ r ∈ w.rtts, lo ≤ r ∧ r ≤ hi) :
    lo ≤ m ∧ m ≤ hi := by
  rw [mean] at hm
  split at hm
  · rename_i hpos
    obtain rfl := Option.some.inj hm
    have hlen : (0 : F) < w.rtts.length := Nat.cast_pos.mpr hpos
    obtain ⟨hlo, hhi⟩ := sum_within h
    exact ⟨(le_div_iff₀ hlen).mpr hlo, (div_le_iff₀ hlen).mpr hhi⟩
  · exact absurd hm (by simp)

/-- The loss is a percentage of the outcomes in the window. -/
theorem loss_within {sqrt : F → F} {x : F} (hx : (w.snapshot sqrt).loss_pct = some x) :
    0 ≤ x ∧ x ≤ 100 := by
  simp only [snapshot] at hx
  split at hx
  · rename_i hne
    obtain rfl := Option.some.inj hx
    have hlen : (0 : F) < w.outcomes.length :=
      Nat.cast_pos.mpr (List.length_pos_iff.mpr hne)
    have hle : (w.outcomes.countP Option.isNone : F) ≤ w.outcomes.length :=
      Nat.cast_le.mpr List.countP_le_length
    refine ⟨by positivity, ?_⟩
    rw [div_le_iff₀ hlen]
    gcongr
  · exact absurd hx (by simp)

/-- Everything is lost exactly when no reply is left in the window to take an rtt from. -/
theorem loss_eq_hundred_iff {sqrt : F → F} (hne : w.outcomes ≠ []) :
    (w.snapshot sqrt).loss_pct = some 100 ↔ (w.snapshot sqrt).rtt_ms = none := by
  have hlen : (w.outcomes.length : F) ≠ 0 := by
    rw [Nat.cast_ne_zero]
    exact (List.length_pos_iff.mpr hne).ne'
  have hmean : (w.snapshot sqrt).rtt_ms = none ↔ ∀ o ∈ w.outcomes, o = none := mean_eq_none_iff
  rw [hmean]
  simp only [snapshot, if_pos hne, Option.some.injEq]
  rw [div_eq_iff hlen, mul_right_inj' (by norm_num : (100 : F) ≠ 0), Nat.cast_inj,
    List.countP_eq_length]
  simp

end Snapshot

end Window

end Mielofon
