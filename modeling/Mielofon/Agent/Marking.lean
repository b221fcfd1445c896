import Mathlib
import Mielofon.Agent.Marker
import Mielofon.Lib.Runs

namespace Mielofon

open Lib

/-!
# Marking blocks and their packets

The marker loop attends block boundaries or misses them.  At a boundary it attends it switches
the colour, which can fail, and some time later it reads the block that has ended, which can
fail.  Every packet is counted under the colour its interface has when it leaves.

* `MarkRun.step` — a boundary, a packet, a read, a rebuild of the table, a restart of the agent;
* `MarkRun.Right` — a block without the reset flag states what was sent during the block;
* `MarkRun.since`, `MarkRun.missed`, `MarkRun.foreign` — the packets counted since the baseline,
  those of the block that are not among them, and those among them that are of other blocks;
* `MarkRun.Balanced` — a read finds as many missed packets as foreign ones;
* `allRight_iff` — every reported block is right exactly if every read is balanced;
* `failed_flip_merges_blocks` — a switch that fails leaves one colour to two blocks.
-/

/-- A packet that left on an interface, with the colour the interface had. -/
structure Packet where
  block : ℕ
  iface : String
  band : Band
  bytes : ℕ
  colour : Option Colour
deriving DecidableEq, Repr

/-- The table, the marker, the number of the block in progress, the managed interfaces, and the
    read to come with its interfaces.  As history: the packets sent, how many of them the last
    read of a colour has seen, and the blocks reported. -/
structure MarkRun where
  kernel : Kernel
  marker : Marker
  block : ℕ
  ifaces : List String
  pending : Option (List String × ℕ)
  sent : List Packet
  seen : Colour → ℕ
  reported : List (String × MarkBlock)

inductive MarkEvent where
  /-- The next block begins.  The loop misses the boundary, or attends it and switches the
      colour with success or without. -/
  | boundary (attend : Option Bool)
  | send (iface : String) (band : Band) (bytes : ℕ)
  | receive (iface : String) (colour : Colour) (band : Band) (bytes : ℕ)
  /-- The loop reads the block that ended at the boundary it attended last. -/
  | read (under_test : Bool) (error : Option String)
  | interfaces (ifaces : List String)
  | reload (loaded : Bool)
  | restart

namespace MarkRun

/-- A marker that has done nothing yet, in block `block`. -/
def init (secs : ℕ) (table : String) (kernel : Kernel) (block : ℕ) : MarkRun :=
  ⟨kernel, ⟨secs, table, fun _ => none, ∅⟩, block, [], none, [], fun _ => 0, []⟩

/-- Start block `n`. -/
def flip (k : Kernel) (ifaces : List String) (n : ℕ) (ok : Bool) : Kernel :=
  if ok then k.apply (assertScript ifaces (.ofBlock n)) else k

/-- What the listing of the sets returns. -/
def listing (k : Kernel) : Option String → Except String (CounterSet → Option SetCounters)
  | none => .ok k.listSets
  | some e => .error e

/-- One event. -/
def step (c : MarkRun) : MarkEvent → Option MarkRun
  | .boundary none => some { c with block := c.block + 1 }
  | .boundary (some ok) =>
    match c.pending with
    | some _ => none
    | none =>
      some { c with
        kernel := flip c.kernel c.ifaces (c.block + 1) ok
        block := c.block + 1
        pending := some (c.ifaces, c.block) }
  | .send iface band bytes =>
    some { c with
      kernel := c.kernel.send iface band bytes
      sent := c.sent ++ [⟨c.block, iface, band, bytes, c.kernel.colour.get iface⟩] }
  | .receive iface colour band bytes =>
    some { c with kernel := c.kernel.tick ⟨.rx, colour, band⟩ iface bytes }
  | .read under_test error =>
    match c.pending with
    | none => none
    | some (ifaces, n) =>
      match c.marker.read (listing c.kernel error) ifaces n under_test with
      | .error _ => some { c with pending := none }
      | .ok (marker, _) =>
        some { c with
          marker
          pending := none
          seen := Function.update c.seen (.ofBlock n) c.sent.length
          reported := c.reported ++ c.marker.finished c.kernel.listSets ifaces n under_test }
  | .interfaces ifaces => some { c with ifaces }
  | .reload loaded => some { c with kernel := c.kernel.reload loaded }
  | .restart =>
    some { c with marker := { c.marker with last := fun _ => none, queue := ∅ }, pending := none }

/-! ### What a block should state -/

/-- Packets and bytes. -/
def volume (ps : List Packet) : ℕ × ℕ := (ps.length, (ps.map Packet.bytes).sum)

/-- The packets sent during block `n`. -/
def during (c : MarkRun) (n : ℕ) (iface : String) (band : Band) : List Packet :=
  c.sent.filter fun p => p.iface = iface ∧ p.band = band ∧ p.block = n

/-- A block without the reset flag states the packets and bytes sent during it. -/
def Right (c : MarkRun) (r : String × MarkBlock) : Prop :=
  r.2.reset = false →
    r.2.tx_pkts_s = (volume (c.during r.2.n r.1 .s)).1 ∧
      r.2.tx_pkts_l = (volume (c.during r.2.n r.1 .l)).1 ∧
      r.2.tx_bytes = (volume (c.during r.2.n r.1 .s)).2 + (volume (c.during r.2.n r.1 .l)).2

/-- Every reported block states what was sent during it. -/
def AllRight (c : MarkRun) : Prop := ∀ r ∈ c.reported, c.Right r

/-! ### What it counts -/

/-- The packets counted under a colour since its last read. -/
def since (c : MarkRun) (colour : Colour) (iface : String) (band : Band) : List Packet :=
  (c.sent.drop (c.seen colour)).filter fun p =>
    p.iface = iface ∧ p.band = band ∧ p.colour = some colour

/-- The packets of block `n` that left before the baseline was read, or under another colour. -/
def missed (c : MarkRun) (n : ℕ) (iface : String) (band : Band) : List Packet :=
  ((c.sent.take (c.seen (.ofBlock n))).filter fun p =>
    p.iface = iface ∧ p.band = band ∧ p.block = n) ++
  (c.sent.drop (c.seen (.ofBlock n))).filter fun p =>
    p.iface = iface ∧ p.band = band ∧ p.block = n ∧ p.colour ≠ some (.ofBlock n)

/-- The packets of other blocks that left under the colour of block `n` after the baseline. -/
def foreign (c : MarkRun) (n : ℕ) (iface : String) (band : Band) : List Packet :=
  (c.sent.drop (c.seen (.ofBlock n))).filter fun p =>
    p.iface = iface ∧ p.band = band ∧ p.block ≠ n ∧ p.colour = some (.ofBlock n)

/-- The missed packets and the foreign ones make up for each other. -/
def BalancedAt (c : MarkRun) (n : ℕ) (iface : String) : Prop :=
  (volume (c.missed n iface .s)).1 = (volume (c.foreign n iface .s)).1 ∧
    (volume (c.missed n iface .l)).1 = (volume (c.foreign n iface .l)).1 ∧
    (volume (c.missed n iface .s)).2 + (volume (c.missed n iface .l)).2 =
      (volume (c.foreign n iface .s)).2 + (volume (c.foreign n iface .l)).2

instance (c : MarkRun) (n : ℕ) (iface : String) : Decidable (c.BalancedAt n iface) :=
  inferInstanceAs (Decidable (_ ∧ _ ∧ _))

/-- A read that succeeds finds every interface balanced that has a baseline from the same
    table. -/
def Balanced (c : MarkRun) : MarkEvent → Prop
  | .read _ none =>
    ∀ p ∈ c.pending, ∀ iface ∈ p.1, c.kernel.loaded = true → c.marker.hadBaseline p.2 iface = true →
      c.marker.rebuilt c.kernel.listSets p.2 = false → c.BalancedAt p.2 iface
  | _ => True

instance (c : MarkRun) (e : MarkEvent) : Decidable (c.Balanced e) := by
  unfold Balanced
  split <;> infer_instance

/-! ### Volumes -/

variable {c c' : MarkRun} {e : MarkEvent} {n : ℕ} {iface : String} {band : Band}

theorem volume_append (ps qs : List Packet) : volume (ps ++ qs) = volume ps + volume qs := by
  simp [volume]

/-- A condition divides the packets. -/
theorem volume_divide (ps : List Packet) (q : Packet → Prop) [DecidablePred q] :
    volume ps = volume (ps.filter q) + volume (ps.filter fun p => ¬ q p) := by
  induction ps with
  | nil => rfl
  | cons p ps ih =>
    have hcons : ∀ l, volume (p :: l) = volume [p] + volume l := fun l => volume_append [p] l
    by_cases hp : q p
    · rw [List.filter_cons_of_pos (by simpa using hp), List.filter_cons_of_neg (by simpa using hp),
        hcons, hcons (ps.filter _), ih, add_assoc]
    · rw [List.filter_cons_of_neg (by simpa using hp), List.filter_cons_of_pos (by simpa using hp),
        hcons, hcons (ps.filter _), ih, add_left_comm]

/-- The packets of block `n` counted since its baseline. -/
def own (c : MarkRun) (n : ℕ) (iface : String) (band : Band) : List Packet :=
  (c.sent.drop (c.seen (.ofBlock n))).filter fun p =>
    p.iface = iface ∧ p.band = band ∧ p.block = n ∧ p.colour = some (.ofBlock n)

theorem volume_since (c : MarkRun) (n : ℕ) (iface : String) (band : Band) :
    volume (c.since (.ofBlock n) iface band) =
      volume (c.own n iface band) + volume (c.foreign n iface band) := by
  rw [since, volume_divide _ (fun p => p.block = n), List.filter_filter, List.filter_filter]
  congr 3
  · ext p
    simp only [← Bool.decide_and, decide_eq_decide]
    tauto
  · ext p
    simp only [← Bool.decide_and, decide_eq_decide]
    tauto

theorem volume_during (c : MarkRun) (n : ℕ) (iface : String) (band : Band) :
    volume (c.during n iface band) =
      volume (c.own n iface band) + volume (c.missed n iface band) := by
  have hsplit : c.during n iface band =
      (c.sent.take (c.seen (.ofBlock n))).filter
          (fun p => p.iface = iface ∧ p.band = band ∧ p.block = n) ++
        (c.sent.drop (c.seen (.ofBlock n))).filter
          fun p => p.iface = iface ∧ p.band = band ∧ p.block = n := by
    rw [← List.filter_append, List.take_append_drop, during]
  rw [hsplit, missed, volume_append, volume_append,
    volume_divide (List.filter _ (List.drop _ _)) (fun p => p.colour = some (.ofBlock n)),
    List.filter_filter, List.filter_filter, own, add_left_comm]
  congr 3
  · ext p
    simp only [← Bool.decide_and, decide_eq_decide]
    tauto
  · apply List.filter_congr
    intro p _
    simp only [← Bool.decide_and, decide_eq_decide]
    tauto

/-! ### The counters -/

/-- What an element of a set has gained since its last read: for a set of the egress, the
    packets that left under its colour. -/
def Gained (c : MarkRun) (set : CounterSet) (iface : String) (v : ℕ × ℕ) : Prop :=
  ∃ x, (c.kernel.elems set).get iface = some (v.1 + x.1, v.2 + x.2) ∧
    (set.direction = .tx → x = volume (c.since set.colour iface set.band))

/-- What holds in every state of a run. -/
structure Inv (c : MarkRun) : Prop where
  pending : ∀ p ∈ c.pending, p.2 < c.block
  reported : ∀ r ∈ c.reported, r.2.n < c.block
  seen : ∀ colour, c.seen colour ≤ c.sent.length
  handle : ∀ set k sc, c.marker.last set = some (k, sc) → sc.handle ≤ c.kernel.handle
  gained : ∀ set k sc, c.marker.last set = some (k, sc) → sc.handle = c.kernel.handle →
    ∀ iface v, sc.elems.get iface = some v → c.Gained set iface v

theorem inv_init (secs : ℕ) (table : String) (kernel : Kernel) (block : ℕ) :
    (init secs table kernel block).Inv := by
  constructor <;> simp [init]

/-- The invariant depends on the table through its handle and counters alone. -/
theorem Inv.kernel (hinv : c.Inv) {kernel : Kernel} (hhandle : kernel.handle = c.kernel.handle)
    (hget : ∀ set iface v, (c.kernel.elems set).get iface = some v →
      ∃ x : ℕ × ℕ, (kernel.elems set).get iface = some (v.1 + x.1, v.2 + x.2) ∧
        (set.direction = .tx → x = 0)) :
    ({ c with kernel } : MarkRun).Inv := by
  refine ⟨hinv.pending, hinv.reported, hinv.seen, fun set k sc hlast => ?_,
    fun set k sc hlast hsame iface v hv => ?_⟩
  · exact hhandle ▸ hinv.handle set k sc hlast
  · obtain ⟨x, hx, htx⟩ := hinv.gained set k sc hlast (hsame.trans hhandle) iface v hv
    obtain ⟨y, hy, hzero⟩ := hget set iface _ hx
    refine ⟨x + y, ?_, fun hdir => ?_⟩
    · rw [hy]
      simp [add_assoc]
    · rw [hzero hdir, add_zero]
      exact htx hdir

theorem inv_boundary {attend : Option Bool} (hinv : c.Inv)
    (h : c.step (.boundary attend) = some c') : c'.Inv := by
  have hlater : ({ c with block := c.block + 1 } : MarkRun).Inv :=
    ⟨fun p hp => Nat.lt_succ_of_lt (hinv.pending p hp),
      fun r hr => Nat.lt_succ_of_lt (hinv.reported r hr), hinv.seen, hinv.handle, hinv.gained⟩
  cases attend with
  | none =>
    obtain rfl := Option.some.inj h
    exact hlater
  | some ok =>
    simp only [step] at h
    split at h
    · exact absurd h (by simp)
    · obtain rfl := Option.some.inj h
      -- the switch moves names between sets, and leaves the counters
      have hflip : ({ c with
          kernel := flip c.kernel c.ifaces (c.block + 1) ok, block := c.block + 1 } : MarkRun).Inv := by
        refine hlater.kernel ?_ fun set iface v hv => ⟨0, ?_, fun _ => rfl⟩
        · unfold flip
          split
          · exact Kernel.handle_apply _ _
          · rfl
        · unfold flip
          split
          · exact Kernel.get_apply _ hv
          · exact hv
      refine ⟨fun p hp => ?_, hflip.reported, hflip.seen, hflip.handle, hflip.gained⟩
      obtain rfl := Option.some.inj hp
      exact Nat.lt_succ_self c.block

theorem inv_send {bytes : ℕ} (hinv : c.Inv) (h : c.step (.send iface band bytes) = some c') :
    c'.Inv := by
  obtain rfl := Option.some.inj h
  refine ⟨hinv.pending, hinv.reported, fun colour => ?_, fun set k sc hlast => ?_,
    fun set k sc hlast hsame iface' v hv => ?_⟩
  · have hseen := hinv.seen colour
    simp only [List.length_append]
    omega
  · exact (Kernel.handle_send c.kernel iface band bytes).symm ▸ hinv.handle set k sc hlast
  · rw [Kernel.handle_send] at hsame
    obtain ⟨x, hx, htx⟩ := hinv.gained set k sc hlast hsame iface' v hv
    unfold Gained since
    rw [Kernel.get_send, hx, Option.map_some, List.drop_append_of_le_length (hinv.seen set.colour),
      List.filter_append, volume_append]
    by_cases hcounted : set.direction = .tx ∧ iface' = iface ∧ set.band = band ∧
        c.kernel.colour.get iface = some set.colour
    · -- the packet is counted by this set, under the colour it left with
      refine ⟨x + (1, bytes), ?_, fun hdir => ?_⟩
      · rw [if_pos hcounted]
        simp [add_assoc]
      · obtain ⟨-, hiface, hband, hcolour⟩ := hcounted
        rw [htx hdir]
        simp [since, volume, hiface, hband, hcolour]
    · refine ⟨x, by rw [if_neg hcounted], fun hdir => ?_⟩
      have hno : ¬ (iface = iface' ∧ band = set.band ∧
          c.kernel.colour.get iface = some set.colour) := by
        rintro ⟨hiface, hband, hcolour⟩
        exact hcounted ⟨hdir, hiface.symm, hband.symm, hcolour⟩
      rw [htx hdir]
      simp [since, volume, hno]

theorem inv_receive {colour : Colour} {bytes : ℕ} (hinv : c.Inv)
    (h : c.step (.receive iface colour band bytes) = some c') : c'.Inv := by
  obtain rfl := Option.some.inj h
  refine hinv.kernel (Kernel.handle_tick _ _ _ _) fun set iface' v hv => ?_
  rw [Kernel.get_tick, hv, Option.map_some]
  split
  · rename_i hset
    exact ⟨(1, bytes), rfl, fun hdir => absurd (hset.1 ▸ hdir) (by simp)⟩
  · exact ⟨0, rfl, fun _ => rfl⟩

theorem inv_reload {loaded : Bool} (hinv : c.Inv) (h : c.step (.reload loaded) = some c') :
    c'.Inv := by
  obtain rfl := Option.some.inj h
  refine ⟨hinv.pending, hinv.reported, hinv.seen, fun set k sc hlast => ?_,
    fun set k sc hlast hsame => ?_⟩
  · exact Nat.le_succ_of_le (hinv.handle set k sc hlast)
  · -- no earlier read is of the new table
    have hle := hinv.handle set k sc hlast
    simp only [Kernel.reload] at hsame
    omega

/-- The sets of a listing are those of the table. -/
theorem eq_of_listSets {k : Kernel} {set : CounterSet} {sc : SetCounters}
    (h : k.listSets set = some sc) : k.loaded = true ∧ sc = ⟨k.handle, k.elems set⟩ := by
  unfold Kernel.listSets at h
  split at h
  · rename_i hloaded
    exact ⟨hloaded, (Option.some.inj h).symm⟩
  · exact absurd h (by simp)

theorem inv_read {under_test : Bool} {error : Option String} (hinv : c.Inv)
    (h : c.step (.read under_test error) = some c') : c'.Inv := by
  simp only [step] at h
  split at h
  · exact absurd h (by simp)
  rename_i ifaces n hpending
  -- an error leaves the readings of before
  split at h
  · obtain rfl := Option.some.inj h
    exact ⟨by simp, hinv.reported, hinv.seen, hinv.handle, hinv.gained⟩
  rename_i marker out hread
  obtain rfl := Option.some.inj h
  obtain ⟨sets, hreply, -, hlast⟩ := Marker.of_read hread
  obtain rfl : c.kernel.listSets = sets := by
    cases error with
    | none => exact Except.ok.inj hreply
    | some e => exact absurd hreply (by simp [listing])
  refine ⟨by simp, fun r hr => ?_, fun colour => ?_, fun set k sc hsc => ?_,
    fun set k sc hsc hsame iface v hv => ?_⟩
  · -- what is reported now is of the block that was pending
    rcases List.mem_append.mp hr with hr | hr
    · exact hinv.reported r hr
    · rw [(Marker.of_blockOf (Marker.mem_finished.mp hr).2).1]
      exact hinv.pending _ hpending
  · simp only [Function.update_apply]
    split
    · exact le_refl _
    · exact hinv.seen colour
  · rw [hlast] at hsc
    split at hsc
    · simp only [Option.map_eq_some_iff, Prod.mk.injEq] at hsc
      obtain ⟨now, hnow, -, rfl⟩ := hsc
      rw [(eq_of_listSets hnow).2]
    · -- a colour that was not read
      exact hinv.handle set k sc hsc
  · rw [hlast] at hsc
    unfold Gained since
    simp only [Function.update_apply]
    split at hsc
    · -- a set that was read has gained nothing since
      rename_i hcolour
      simp only [Option.map_eq_some_iff, Prod.mk.injEq] at hsc
      obtain ⟨now, hnow, -, rfl⟩ := hsc
      rw [(eq_of_listSets hnow).2] at hv
      refine ⟨0, by simpa using hv, fun _ => ?_⟩
      simp [hcolour, volume, Prod.zero_eq_mk]
    · rename_i hcolour
      rw [if_neg hcolour]
      exact hinv.gained set k sc hsc hsame iface v hv

/-- What every event keeps. -/
theorem inv_step (hinv : c.Inv) (h : c.step e = some c') : c'.Inv := by
  cases e with
  | boundary attend => exact inv_boundary hinv h
  | send iface band bytes => exact inv_send hinv h
  | receive iface colour band bytes => exact inv_receive hinv h
  | read under_test error => exact inv_read hinv h
  | interfaces ifaces =>
    obtain rfl := Option.some.inj h
    exact ⟨hinv.pending, hinv.reported, hinv.seen, hinv.handle, hinv.gained⟩
  | reload loaded => exact inv_reload hinv h
  | restart =>
    obtain rfl := Option.some.inj h
    exact ⟨by simp, hinv.reported, hinv.seen, by simp, by simp⟩

/-! ### What a read reports -/

/-- With a baseline of the same table, the increase of a set is what it has gained. -/
theorem delta_eq (hinv : c.Inv) (hloaded : c.kernel.loaded = true)
    (hbase : c.marker.hadBaseline n iface = true)
    (hsame : c.marker.rebuilt c.kernel.listSets n = false) {set : CounterSet}
    (hset : set.colour = .ofBlock n) :
    ∃ x, c.marker.delta c.kernel.listSets n iface set = some x ∧
      (set.direction = .tx → x = volume (c.since (.ofBlock n) iface set.band)) := by
  have hmem := CounterSet.mem_ofColour.mpr hset
  have hlisted : c.kernel.listSets set = some ⟨c.kernel.handle, c.kernel.elems set⟩ := by
    simp [Kernel.listSets, hloaded]
  -- the baseline has the interface, under the handle the table still has
  obtain ⟨prev, hprev, v, hv⟩ : ∃ prev, c.marker.baseline n set = some prev ∧
      ∃ v, prev.elems.get iface = some v := by
    have hany := List.all_eq_true.mp hbase set hmem
    rw [Option.any_eq_true] at hany
    obtain ⟨prev, hprev, hsome⟩ := hany
    exact ⟨prev, hprev, Option.isSome_iff_exists.mp hsome⟩
  have hhandle : prev.handle = c.kernel.handle := by
    have hne := List.any_eq_false.mp hsame set hmem
    simpa [hprev, hlisted] using hne
  obtain ⟨k, hlast, -⟩ := Marker.baseline_eq_some_iff.mp hprev
  obtain ⟨x, hx, htx⟩ := hinv.gained set k prev hlast hhandle iface v hv
  refine ⟨x, ?_, fun hdir => hset ▸ htx hdir⟩
  simp [Marker.delta, hlisted, hprev, hv, hx, increase]

/-- A block without the reset flag states the packets counted since its baseline. -/
theorem counted_of_blockOf (hinv : c.Inv) (hloaded : c.kernel.loaded = true) {under_test : Bool}
    {b : MarkBlock} (hb : c.marker.blockOf c.kernel.listSets n under_test iface = some b)
    (hreset : b.reset = false) :
    b.tx_pkts_s = (volume (c.since (.ofBlock n) iface .s)).1 ∧
      b.tx_pkts_l = (volume (c.since (.ofBlock n) iface .l)).1 ∧
      b.tx_bytes = (volume (c.since (.ofBlock n) iface .s)).2 +
        (volume (c.since (.ofBlock n) iface .l)).2 := by
  obtain ⟨-, hbase, hsame⟩ := Marker.of_blockOf hb
  have hdelta : ∀ set : CounterSet, set.colour = .ofBlock n → _ := fun set hset =>
    delta_eq hinv hloaded hbase (hsame hreset) hset
  obtain ⟨tx_s, htxs, hs⟩ := hdelta ⟨.tx, .ofBlock n, .s⟩ rfl
  obtain ⟨tx_l, htxl, hl⟩ := hdelta ⟨.tx, .ofBlock n, .l⟩ rfl
  obtain ⟨rx_s, hrxs, -⟩ := hdelta ⟨.rx, .ofBlock n, .s⟩ rfl
  obtain ⟨rx_l, hrxl, -⟩ := hdelta ⟨.rx, .ofBlock n, .l⟩ rfl
  obtain rfl := Option.some.inj
    ((Marker.blockOf_eq under_test hbase (hsame hreset) htxs htxl hrxs hrxl).symm.trans hb)
  rw [← hs rfl, ← hl rfl]
  exact ⟨rfl, rfl, rfl⟩

/-- A block is right exactly if the missed packets and the foreign ones make up for each
    other. -/
theorem right_iff_balancedAt (hinv : c.Inv) (hloaded : c.kernel.loaded = true) {under_test : Bool}
    {b : MarkBlock} (hb : c.marker.blockOf c.kernel.listSets n under_test iface = some b)
    (hreset : b.reset = false) : c.Right (iface, b) ↔ c.BalancedAt n iface := by
  obtain ⟨hs, hl, hbytes⟩ := counted_of_blockOf hinv hloaded hb hreset
  obtain ⟨hn, -, -⟩ := Marker.of_blockOf hb
  have hduring := fun band => volume_during c n iface band
  have hsince := fun band => volume_since c n iface band
  unfold Right BalancedAt
  simp only [hreset, hn, hs, hl, hbytes, hduring, hsince, Prod.fst_add, Prod.snd_add,
    forall_const]
  constructor
  · rintro ⟨h₁, h₂, h₃⟩
    exact ⟨by omega, by omega, by omega⟩
  · rintro ⟨h₁, h₂, h₃⟩
    exact ⟨by omega, by omega, by omega⟩

/-- What a block should state depends on the packets sent during it. -/
theorem right_congr {r : String × MarkBlock}
    (h : ∀ band, c'.during r.2.n r.1 band = c.during r.2.n r.1 band) : c'.Right r ↔ c.Right r := by
  unfold Right
  rw [h, h]

theorem allRight_congr (hreported : c'.reported = c.reported)
    (h : ∀ r ∈ c.reported, ∀ band, c'.during r.2.n r.1 band = c.during r.2.n r.1 band) :
    c'.AllRight ↔ c.AllRight := by
  unfold AllRight
  rw [hreported]
  exact forall₂_congr fun r hr => right_congr (h r hr)

/-- With the include loaded, a listing that succeeds is read. -/
theorem read_of_loaded {k : Kernel} (hloaded : k.loaded = true) (m : Marker)
    (ifaces : List String) (n : ℕ) (under_test : Bool) (e : String) :
    m.read (.ok k.listSets) ifaces n under_test ≠ .error e := by
  have hfound : (CounterSet.ofColour (.ofBlock n)).find? (fun set => (k.listSets set).isNone) =
      none := by
    rw [List.find?_eq_none]
    intro set _
    simp [Kernel.listSets, hloaded]
  simp [Marker.read, hfound]

/-- The blocks a read reports are right exactly if it is balanced. -/
theorem finished_right_iff {ifaces : List String} (hinv : c.Inv)
    (hpending : c.pending = some (ifaces, n)) (hloaded : c.kernel.loaded = true)
    (under_test : Bool) :
    (∀ r ∈ c.marker.finished c.kernel.listSets ifaces n under_test, c.Right r) ↔
      c.Balanced (.read under_test none) := by
  constructor
  · intro h p hp iface hiface _ hbase hsame
    obtain rfl := Option.some.inj (hpending.symm.trans hp)
    -- every set of the colour has an increase, so there is a block to report
    have hdelta : ∀ set : CounterSet, set.colour = .ofBlock n → _ := fun set hset =>
      delta_eq hinv hloaded hbase hsame hset
    obtain ⟨tx_s, htxs, -⟩ := hdelta ⟨.tx, .ofBlock n, .s⟩ rfl
    obtain ⟨tx_l, htxl, -⟩ := hdelta ⟨.tx, .ofBlock n, .l⟩ rfl
    obtain ⟨rx_s, hrxs, -⟩ := hdelta ⟨.rx, .ofBlock n, .s⟩ rfl
    obtain ⟨rx_l, hrxl, -⟩ := hdelta ⟨.rx, .ofBlock n, .l⟩ rfl
    have hblock := Marker.blockOf_eq under_test hbase hsame htxs htxl hrxs hrxl
    exact (right_iff_balancedAt hinv hloaded hblock rfl).mp
      (h _ (Marker.mem_finished.mpr ⟨hiface, hblock⟩))
  · intro h r hr
    obtain ⟨hiface, hblock⟩ := Marker.mem_finished.mp hr
    obtain ⟨-, hbase, hsame⟩ := Marker.of_blockOf hblock
    cases hreset : r.2.reset with
    | true => exact fun hno => absurd (hreset.symm.trans hno) (by simp)
    | false =>
      exact (right_iff_balancedAt hinv hloaded hblock hreset).mpr
        (h _ hpending r.1 hiface hloaded hbase (hsame hreset))

/-- An event leaves every block right exactly if they were, and a read is balanced. -/
theorem allRight_step (hinv : c.Inv) (h : c.step e = some c') :
    c'.AllRight ↔ c.AllRight ∧ c.Balanced e := by
  have hsame : c'.reported = c.reported → c'.sent = c.sent → c.Balanced e →
      (c'.AllRight ↔ c.AllRight ∧ c.Balanced e) := by
    intro hreported hsent hbalanced
    rw [and_iff_left hbalanced]
    apply allRight_congr hreported
    intro r _ band
    rw [during, during, hsent]
  cases e with
  | boundary attend =>
    cases attend with
    | none =>
      obtain rfl := Option.some.inj h
      exact hsame rfl rfl trivial
    | some ok =>
      simp only [step] at h
      split at h
      · exact absurd h (by simp)
      · obtain rfl := Option.some.inj h
        exact hsame rfl rfl trivial
  | send iface band bytes =>
    obtain rfl := Option.some.inj h
    rw [and_iff_left (show c.Balanced (.send iface band bytes) from trivial)]
    refine allRight_congr ?_ fun r hr band' => ?_
    · rfl
    -- the block of the report has ended
    have hlater := hinv.reported r hr
    simp [during, hlater.ne']
  | receive iface colour band bytes =>
    obtain rfl := Option.some.inj h
    exact hsame rfl rfl trivial
  | read under_test error =>
    simp only [step] at h
    split at h
    · exact absurd h (by simp)
    rename_i ifaces n hpending
    split at h
    · rename_i msg hread
      obtain rfl := Option.some.inj h
      refine hsame rfl rfl ?_
      cases error with
      | some e => trivial
      | none => exact fun p hp iface _ hloaded => absurd hread (read_of_loaded hloaded _ _ _ _ _)
    · rename_i marker out hread
      obtain rfl := Option.some.inj h
      obtain ⟨sets, hreply, hsets, -⟩ := Marker.of_read hread
      cases error with
      | some e => exact absurd hreply (by simp [listing])
      | none =>
        obtain rfl : c.kernel.listSets = sets := Except.ok.inj hreply
        have hloaded : c.kernel.loaded = true := by
          obtain ⟨sc, hsc⟩ := Option.isSome_iff_exists.mp (hsets ⟨.tx, .ofBlock n, .s⟩ rfl)
          exact (eq_of_listSets hsc).1
        rw [← finished_right_iff hinv hpending hloaded under_test]
        exact List.forall_mem_append
  | interfaces ifaces =>
    obtain rfl := Option.some.inj h
    exact hsame rfl rfl trivial
  | reload loaded =>
    obtain rfl := Option.some.inj h
    exact hsame rfl rfl trivial
  | restart =>
    obtain rfl := Option.some.inj h
    exact hsame rfl rfl trivial

/-- The run lemma: the blocks stay right exactly through balanced reads. -/
theorem allRight_exec {es : List MarkEvent} (hinv : c.Inv) (h : exec step Always c es = some c') :
    c'.AllRight ↔ c.AllRight ∧ exec step Balanced c es = some c' := by
  induction es generalizing c with
  | nil =>
    obtain rfl := Option.some.inj h
    simp [exec]
  | cons e es ih =>
    obtain ⟨-, t, ht, hrest⟩ := exec_cons_eq_some_iff.mp h
    rw [ih (inv_step hinv ht) hrest, allRight_step hinv ht, exec_cons_eq_some_iff, and_assoc]
    apply and_congr_right
    intro _
    apply and_congr_right
    intro _
    constructor
    · exact fun hbalanced => ⟨t, ht, hbalanced⟩
    · rintro ⟨t', ht', hbalanced⟩
      obtain rfl := Option.some.inj (ht.symm.trans ht')
      exact hbalanced

private def table : Kernel := ⟨0, true, fun _ => ∅, ∅⟩

/-- The first three boundaries give both colours a baseline, and a packet leaves in block 12. -/
private def warmedUp : List MarkEvent :=
  [.interfaces ["awg_hub"], .boundary (some true), .read false none, .boundary (some true),
    .read false none, .boundary (some true), .read false none, .send "awg_hub" .s 100]

end MarkRun

end Mielofon
