import Mathlib.Order.Lattice
import Mathlib.Order.Defs.LinearOrder
import Mathlib.Data.Fintype.Basic
import Mielofon.Lib.Flat
import Mielofon.Proto

namespace Mielofon

open Lib

/-!
# Raw samples and the same-second merge

`RawSample` is one ingested measurement (`tsdb.rs`).  Its optional fields are read uniformly
through two index types, the nine measured dimensions (`Dim`) and the nine counters of an
alternate-marking block (`Mark`).

Values are of a linearly ordered type `F`: the code's floats without NaN.  Conversions between
`f32` and `f64` are the identity.

* `RawSample.mergedWith` — the merge of two samples of one second;
* `RawSample.Within` — the information order: whatever one sample states, the other states;
* `RawSample.Agrees` — two samples do not state different values for an optional field;
* `mergedWith_eq_self_iff` — a merge changes nothing exactly when the sample is within;
* `within_mergedWith_right`, `Within.mergedWith` — the newer sample is within the merge, and so
  is whatever the older one stated and the newer one does not contradict.
-/

/-- `ProbeState` code: 0 quiet, 1 busy, 2 conflict. -/
def stateCode : ProbeState → ℕ
  | .quiet => 0
  | .busy => 1
  | .conflict => 2

/-- One ingested measurement. -/
structure RawSample (F : Type*) where
  ts : ℕ
  rtt_ms : Option F
  loss_pct : Option F
  jitter_ms : Option F
  tcp_mbps : Option F
  udp_mbps : Option F
  udp_jitter_ms : Option F
  udp_loss_pct : Option F
  util_mbps : F
  state : ℕ
  mark_n : Option ℕ
  mark_secs : Option ℕ
  mark_tx_s : Option ℕ
  mark_tx_l : Option ℕ
  mark_rx_s : Option ℕ
  mark_rx_l : Option ℕ
  mark_tx_bytes : Option ℕ
  mark_rx_bytes : Option ℕ
  mark_flags : Option ℕ
  mark_loss_pct : Option F
  mark_rate_mbps : Option F
deriving DecidableEq, Repr

/-- The optional measured dimensions. -/
inductive Dim where
  | rtt | loss | jitter | tcp | udp | udp_jitter | udp_loss | mark_loss | mark_rate
deriving DecidableEq, Repr

/-- The optional counters of a marking block. -/
inductive Mark where
  | n | secs | tx_s | tx_l | rx_s | rx_l | tx_bytes | rx_bytes | flags
deriving DecidableEq, Repr

instance : Fintype Dim where
  elems := {.rtt, .loss, .jitter, .tcp, .udp, .udp_jitter, .udp_loss, .mark_loss, .mark_rate}
  complete d := by cases d <;> decide

instance : Fintype Mark where
  elems := {.n, .secs, .tx_s, .tx_l, .rx_s, .rx_l, .tx_bytes, .rx_bytes, .flags}
  complete m := by cases m <;> decide

variable {F : Type*}

namespace RawSample

/-- The value of a dimension. -/
def dim (s : RawSample F) : Dim → Option F
  | .rtt => s.rtt_ms
  | .loss => s.loss_pct
  | .jitter => s.jitter_ms
  | .tcp => s.tcp_mbps
  | .udp => s.udp_mbps
  | .udp_jitter => s.udp_jitter_ms
  | .udp_loss => s.udp_loss_pct
  | .mark_loss => s.mark_loss_pct
  | .mark_rate => s.mark_rate_mbps

/-- The value of a block counter. -/
def mark (s : RawSample F) : Mark → Option ℕ
  | .n => s.mark_n
  | .secs => s.mark_secs
  | .tx_s => s.mark_tx_s
  | .tx_l => s.mark_tx_l
  | .rx_s => s.mark_rx_s
  | .rx_l => s.mark_rx_l
  | .tx_bytes => s.mark_tx_bytes
  | .rx_bytes => s.mark_rx_bytes
  | .flags => s.mark_flags

/-- A sample is determined by its second, utilisation, state and optional fields. -/
theorem ext_fields {a b : RawSample F} (hts : a.ts = b.ts) (hutil : a.util_mbps = b.util_mbps)
    (hstate : a.state = b.state) (hdim : ∀ d, a.dim d = b.dim d)
    (hmark : ∀ m, a.mark m = b.mark m) : a = b := by
  cases a
  cases b
  rw [mk.injEq]
  exact ⟨hts, hdim .rtt, hdim .loss, hdim .jitter, hdim .tcp, hdim .udp, hdim .udp_jitter,
    hdim .udp_loss, hutil, hstate, hmark .n, hmark .secs, hmark .tx_s, hmark .tx_l, hmark .rx_s,
    hmark .rx_l, hmark .tx_bytes, hmark .rx_bytes, hmark .flags, hdim .mark_loss,
    hdim .mark_rate⟩

/-! ### Kinds of samples -/

/-- The sample that states nothing (`RawSample::default`). -/
def default [Zero F] : RawSample F :=
  { ts := 0, rtt_ms := none, loss_pct := none, jitter_ms := none, tcp_mbps := none,
    udp_mbps := none, udp_jitter_ms := none, udp_loss_pct := none, util_mbps := 0, state := 0,
    mark_n := none, mark_secs := none, mark_tx_s := none, mark_tx_l := none, mark_rx_s := none,
    mark_rx_l := none, mark_tx_bytes := none, mark_rx_bytes := none, mark_flags := none,
    mark_loss_pct := none, mark_rate_mbps := none }

/-- The greatest `u32`. -/
def u32Max : ℕ := 2 ^ 32 - 1

/-- The agent's counters for one alternate-marking block, stamped at the block start.  `none`
    for a block whose length the agent did not report. -/
def fromBlock [Zero F] (b : MarkBlock) : Option (RawSample F) :=
  if b.secs = 0 then none
  else some { (default : RawSample F) with
    ts := b.n * b.secs
    mark_n := some b.n
    mark_secs := some b.secs
    mark_tx_s := some (min b.tx_pkts_s u32Max)
    mark_tx_l := some (min b.tx_pkts_l u32Max)
    mark_rx_s := some (min b.rx_pkts_s u32Max)
    mark_rx_l := some (min b.rx_pkts_l u32Max)
    mark_tx_bytes := some b.tx_bytes
    mark_rx_bytes := some b.rx_bytes
    mark_flags := some ((if b.reset then 1 else 0) + (if b.under_test then 2 else 0)) }

/-- The classifier's joined loss and rate for the block at `ts`. -/
def blockResult [Zero F] (ts : ℕ) (loss_pct rate_mbps : F) : RawSample F :=
  { (default : RawSample F) with
    ts := ts, mark_loss_pct := some loss_pct, mark_rate_mbps := some rate_mbps }

/-- A probe report without the UDP leg. -/
def fromDims [Zero F] (state : ProbeState) (ts : ℕ) (rtt_ms loss_pct jitter_ms tcp_mbps : Option F)
    (util_mbps : F) : RawSample F :=
  { (default : RawSample F) with
    ts := ts, rtt_ms := rtt_ms, loss_pct := loss_pct, jitter_ms := jitter_ms,
    tcp_mbps := tcp_mbps, util_mbps := util_mbps, state := stateCode state }

/-- Attach the gated UDP leg's dimensions. -/
def withUdp (s : RawSample F) (mbps jitter_ms loss_pct : Option F) : RawSample F :=
  { s with udp_mbps := mbps, udp_jitter_ms := jitter_ms, udp_loss_pct := loss_pct }

/-- Whether the sample carries a block. -/
def isBlock (s : RawSample F) : Bool := s.mark_n.isSome

/-- Whether the sample is a probe report, as opposed to a marking block or a joined block
    result. -/
def isProbe (s : RawSample F) : Bool :=
  s.rtt_ms.isSome || s.loss_pct.isSome || s.jitter_ms.isSome || s.tcp_mbps.isSome ||
    s.udp_mbps.isSome || s.udp_loss_pct.isSome || (s.mark_n.isNone && s.mark_loss_pct.isNone)

/-! ### The merge of two samples of one second -/

/-- Whether a sample is a probe depends on what it states alone. -/
theorem isProbe_congr {a b : RawSample F} (hdim : ∀ d, (a.dim d).isSome = (b.dim d).isSome)
    (hmark : ∀ m, (a.mark m).isSome = (b.mark m).isSome) : a.isProbe = b.isProbe := by
  have hrtt : a.rtt_ms.isSome = b.rtt_ms.isSome := hdim .rtt
  have hloss : a.loss_pct.isSome = b.loss_pct.isSome := hdim .loss
  have hjitter : a.jitter_ms.isSome = b.jitter_ms.isSome := hdim .jitter
  have htcp : a.tcp_mbps.isSome = b.tcp_mbps.isSome := hdim .tcp
  have hudp : a.udp_mbps.isSome = b.udp_mbps.isSome := hdim .udp
  have hudploss : a.udp_loss_pct.isSome = b.udp_loss_pct.isSome := hdim .udp_loss
  have hmarkloss : a.mark_loss_pct.isSome = b.mark_loss_pct.isSome := hdim .mark_loss
  have hn : a.mark_n.isSome = b.mark_n.isSome := hmark .n
  simp only [isProbe, ← Option.not_isSome, hrtt, hloss, hjitter, htcp, hudp, hudploss, hmarkloss, hn]

section Merge

variable [LinearOrder F] {a b c : RawSample F}

/-- Fold a same-second sample into this one: every dimension `other` measured replaces ours,
    utilisation takes the larger reading and the state the more severe one. -/
def mergedWith (self other : RawSample F) : RawSample F :=
  { ts := self.ts
    rtt_ms := other.rtt_ms.or self.rtt_ms
    loss_pct := other.loss_pct.or self.loss_pct
    jitter_ms := other.jitter_ms.or self.jitter_ms
    tcp_mbps := other.tcp_mbps.or self.tcp_mbps
    udp_mbps := other.udp_mbps.or self.udp_mbps
    udp_jitter_ms := other.udp_jitter_ms.or self.udp_jitter_ms
    udp_loss_pct := other.udp_loss_pct.or self.udp_loss_pct
    util_mbps := max self.util_mbps other.util_mbps
    state := max self.state other.state
    mark_n := other.mark_n.or self.mark_n
    mark_secs := other.mark_secs.or self.mark_secs
    mark_tx_s := other.mark_tx_s.or self.mark_tx_s
    mark_tx_l := other.mark_tx_l.or self.mark_tx_l
    mark_rx_s := other.mark_rx_s.or self.mark_rx_s
    mark_rx_l := other.mark_rx_l.or self.mark_rx_l
    mark_tx_bytes := other.mark_tx_bytes.or self.mark_tx_bytes
    mark_rx_bytes := other.mark_rx_bytes.or self.mark_rx_bytes
    mark_flags := other.mark_flags.or self.mark_flags
    mark_loss_pct := other.mark_loss_pct.or self.mark_loss_pct
    mark_rate_mbps := other.mark_rate_mbps.or self.mark_rate_mbps }

@[simp] theorem mergedWith_ts (a b : RawSample F) : (a.mergedWith b).ts = a.ts := rfl

@[simp] theorem mergedWith_util (a b : RawSample F) :
    (a.mergedWith b).util_mbps = max a.util_mbps b.util_mbps := rfl

@[simp] theorem mergedWith_state (a b : RawSample F) :
    (a.mergedWith b).state = max a.state b.state := rfl

@[simp] theorem mergedWith_dim (a b : RawSample F) (d : Dim) :
    (a.mergedWith b).dim d = (b.dim d).or (a.dim d) := by
  cases d <;> rfl

@[simp] theorem mergedWith_mark (a b : RawSample F) (m : Mark) :
    (a.mergedWith b).mark m = (b.mark m).or (a.mark m) := by
  cases m <;> rfl

/-- Whatever `a` states, `b` states: the same optional values, and a utilisation and a state
    at least as high. -/
structure Within (a b : RawSample F) : Prop where
  dim : ∀ d, Flat.Le (a.dim d) (b.dim d)
  mark : ∀ m, Flat.Le (a.mark m) (b.mark m)
  util : a.util_mbps ≤ b.util_mbps
  state : a.state ≤ b.state

/-- `a` and `b` do not state different values for an optional field. -/
structure Agrees (a b : RawSample F) : Prop where
  dim : ∀ d, Flat.Agree (a.dim d) (b.dim d)
  mark : ∀ m, Flat.Agree (a.mark m) (b.mark m)

instance (a b : RawSample F) : Decidable (Within a b) :=
  decidable_of_iff ((∀ d, Flat.Le (a.dim d) (b.dim d)) ∧ (∀ m, Flat.Le (a.mark m) (b.mark m)) ∧
      a.util_mbps ≤ b.util_mbps ∧ a.state ≤ b.state)
    ⟨fun h => ⟨h.1, h.2.1, h.2.2.1, h.2.2.2⟩, fun h => ⟨h.dim, h.mark, h.util, h.state⟩⟩

instance (a b : RawSample F) : Decidable (Agrees a b) :=
  decidable_of_iff ((∀ d, Flat.Agree (a.dim d) (b.dim d)) ∧
      (∀ m, Flat.Agree (a.mark m) (b.mark m)))
    ⟨fun h => ⟨h.1, h.2⟩, fun h => ⟨h.dim, h.mark⟩⟩

theorem Within.refl (a : RawSample F) : Within a a :=
  ⟨fun _ => Flat.Le.refl _, fun _ => Flat.Le.refl _, le_refl _, le_refl _⟩

theorem Within.trans (h : Within a b) (h' : Within b c) : Within a c :=
  ⟨fun d => (h.dim d).trans (h'.dim d), fun m => (h.mark m).trans (h'.mark m),
    h.util.trans h'.util, h.state.trans h'.state⟩

theorem Within.antisymm (hts : a.ts = b.ts) (h : Within a b) (h' : Within b a) : a = b :=
  ext_fields hts (le_antisymm h.util h'.util) (le_antisymm h.state h'.state)
    (fun d => (h.dim d).antisymm (h'.dim d)) (fun m => (h.mark m).antisymm (h'.mark m))

omit [LinearOrder F] in
theorem Agrees.symm (h : Agrees a b) : Agrees b a :=
  ⟨fun d => (h.dim d).symm, fun m => (h.mark m).symm⟩

/-- Samples within one sample agree. -/
theorem Within.agrees (h : Within a c) (h' : Within b c) : Agrees a b :=
  ⟨fun d => (h.dim d).agree (h'.dim d), fun m => (h.mark m).agree (h'.mark m)⟩

/-- **A merge that changes nothing** is one of a sample within the one held. -/
theorem mergedWith_eq_self_iff : a.mergedWith b = a ↔ Within b a := by
  constructor
  · intro h
    refine ⟨fun d => ?_, fun m => ?_, ?_, ?_⟩
    · exact Flat.or_eq_right_iff.mp (by rw [← mergedWith_dim, h])
    · exact Flat.or_eq_right_iff.mp (by rw [← mergedWith_mark, h])
    · exact max_eq_left_iff.mp (by rw [← mergedWith_util, h])
    · exact max_eq_left_iff.mp (by rw [← mergedWith_state, h])
  · intro h
    refine ext_fields rfl (max_eq_left h.util) (max_eq_left h.state) (fun d => ?_) (fun m => ?_)
    · rw [mergedWith_dim]; exact Flat.or_eq_right_iff.mpr (h.dim d)
    · rw [mergedWith_mark]; exact Flat.or_eq_right_iff.mpr (h.mark m)

/-- The newer sample is within the merge. -/
theorem within_mergedWith_right (a b : RawSample F) : Within b (a.mergedWith b) :=
  ⟨fun d => by rw [mergedWith_dim]; exact Flat.le_or_left,
    fun m => by rw [mergedWith_mark]; exact Flat.le_or_left, le_max_right _ _, le_max_right _ _⟩

/-- What is within the older sample and agrees with the newer one is within the merge. -/
theorem Within.mergedWith (h : Within c a) (hagree : Agrees c b) : Within c (a.mergedWith b) :=
  ⟨fun d x hx => by
      rw [mergedWith_dim]
      exact Flat.or_of_agree (h.dim d x hx) (fun y hy => hagree.dim d x y hx hy),
    fun m x hx => by
      rw [mergedWith_mark]
      exact Flat.or_of_agree (h.mark m x hx) (fun y hy => hagree.mark m x y hx hy),
    h.util.trans (le_max_left _ _), h.state.trans (le_max_left _ _)⟩

/-- The merge of two samples within a third is within it. -/
theorem mergedWith_within (h : Within a c) (h' : Within b c) : Within (a.mergedWith b) c :=
  ⟨fun d => by rw [mergedWith_dim]; exact Flat.or_le (h.dim d) (h'.dim d),
    fun m => by rw [mergedWith_mark]; exact Flat.or_le (h.mark m) (h'.mark m),
    max_le h.util h'.util, max_le h.state h'.state⟩

/-! ### What a merge cannot take away -/

/-- `w` has a value wherever `x` has one, and at least its utilisation and state. -/
structure Stated (x w : RawSample F) : Prop where
  dim : ∀ d, (x.dim d).isSome → (w.dim d).isSome
  mark : ∀ m, (x.mark m).isSome → (w.mark m).isSome
  util : x.util_mbps ≤ w.util_mbps
  state : x.state ≤ w.state

variable {x w : RawSample F}

theorem Within.stated (h : x.Within w) : x.Stated w := by
  refine ⟨fun d hd => ?_, fun m hm => ?_, h.util, h.state⟩
  · obtain ⟨a, ha⟩ := Option.isSome_iff_exists.mp hd
    rw [h.dim d a ha]
    rfl
  · obtain ⟨a, ha⟩ := Option.isSome_iff_exists.mp hm
    rw [h.mark m a ha]
    rfl

/-- Later samples of the second may change the values, but do not take them away. -/
theorem Stated.mergedWith (h : x.Stated w) (s : RawSample F) : x.Stated (w.mergedWith s) := by
  refine ⟨fun d hd => ?_, fun m hm => ?_, h.util.trans (le_max_left _ _),
    h.state.trans (le_max_left _ _)⟩
  · rw [mergedWith_dim, Option.isSome_or, h.dim d hd, Bool.or_true]
  · rw [mergedWith_mark, Option.isSome_or, h.mark m hm, Bool.or_true]

/-- With no value that differs, what is stated is within. -/
theorem Stated.within (h : x.Stated w) (hagree : x.Agrees w) : x.Within w := by
  refine ⟨fun d a ha => ?_, fun m a ha => ?_, h.util, h.state⟩
  · obtain ⟨b, hb⟩ := Option.isSome_iff_exists.mp (h.dim d (by rw [ha]; rfl))
    rw [hb, hagree.dim d a b ha hb]
  · obtain ⟨b, hb⟩ := Option.isSome_iff_exists.mp (h.mark m (by rw [ha]; rfl))
    rw [hb, hagree.mark m a b ha hb]

/-- A sample that a second states already adds nothing to state. -/
theorem Stated.isSome_dim_mergedWith (h : x.Stated w) (d : Dim) :
    ((w.mergedWith x).dim d).isSome = (w.dim d).isSome := by
  rw [mergedWith_dim, Option.isSome_or]
  cases hx : (x.dim d).isSome with
  | false => rfl
  | true => rw [h.dim d hx]; rfl

theorem Stated.isSome_mark_mergedWith (h : x.Stated w) (m : Mark) :
    ((w.mergedWith x).mark m).isSome = (w.mark m).isSome := by
  rw [mergedWith_mark, Option.isSome_or]
  cases hx : (x.mark m).isSome with
  | false => rfl
  | true => rw [h.mark m hx]; rfl

theorem Stated.isProbe_mergedWith (h : x.Stated w) : (w.mergedWith x).isProbe = w.isProbe :=
  isProbe_congr h.isSome_dim_mergedWith h.isSome_mark_mergedWith

end Merge

end RawSample

end Mielofon
