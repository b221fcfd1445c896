import Mathlib.Data.List.FinRange
import Mielofon.Agent.Node
import Mielofon.Lib.Folds

namespace Mielofon

open Lib

/-!
# The marker

At every block boundary the agent switches the colour of its links, and half a block later it
reads the counters of the colour that has ended.  The rules are not the agent's: it only moves
interface names between the counter sets and rebuilds the colour map.

* `Colour`, `CounterSet` — the eight sets of the include, by direction, colour and length band;
* `Kernel` — the table: the elements of the sets with their counters, and the colour map;
* `assertScript`, `Kernel.apply` — the transaction of a boundary;
* `Marker.baseline`, `Marker.blockOf`, `Marker.read` — a read, and the blocks it finishes.
-/

/-! ### The table -/

/-- The colour of a block: `a` for even block numbers, `b` for odd. -/
inductive Colour where
  | a
  | b
deriving DecidableEq, Repr

def Colour.ofBlock (n : ℕ) : Colour := if n % 2 = 0 then .a else .b

def Colour.letter : Colour → String
  | .a => "a"
  | .b => "b"

/-- What this node sent, or what arrived from the peer. -/
inductive Direction where
  | tx
  | rx
deriving DecidableEq, Repr

/-- At most 1000 bytes, or more. -/
inductive Band where
  | s
  | l
deriving DecidableEq, Repr

def Direction.name : Direction → String
  | .tx => "tx"
  | .rx => "rx"

def Band.name : Band → String
  | .s => "s"
  | .l => "l"

/-- One of the counter sets of the include. -/
structure CounterSet where
  direction : Direction
  colour : Colour
  band : Band
deriving DecidableEq, Repr

namespace CounterSet

def name (set : CounterSet) : String :=
  "mf_" ++ set.direction.name ++ "_" ++ set.colour.letter ++ "_" ++ set.band.name

/-- The four sets that count the blocks of a colour. -/
def ofColour (colour : Colour) : List CounterSet :=
  [⟨.tx, colour, .s⟩, ⟨.tx, colour, .l⟩, ⟨.rx, colour, .s⟩, ⟨.rx, colour, .l⟩]

def all : List CounterSet :=
  [⟨.tx, .a, .s⟩, ⟨.tx, .a, .l⟩, ⟨.tx, .b, .s⟩, ⟨.tx, .b, .l⟩,
    ⟨.rx, .a, .s⟩, ⟨.rx, .a, .l⟩, ⟨.rx, .b, .s⟩, ⟨.rx, .b, .l⟩]

theorem mem_all (set : CounterSet) : set ∈ all := by
  obtain ⟨direction, colour, band⟩ := set
  cases direction <;> cases colour <;> cases band <;> decide

theorem mem_ofColour {set : CounterSet} {colour : Colour} :
    set ∈ ofColour colour ↔ set.colour = colour := by
  obtain ⟨direction, colour', band⟩ := set
  cases direction <;> cases colour' <;> cases band <;> cases colour <;> decide

end CounterSet

/-- The elements of one set, with packets and bytes, and the set's kernel handle. -/
structure SetCounters where
  handle : ℕ
  elems : Map String (ℕ × ℕ)

/-- The table: a rebuild gives every set a new handle. -/
structure Kernel where
  handle : ℕ
  loaded : Bool
  elems : CounterSet → Map String (ℕ × ℕ)
  colour : Map String Colour

/-- The commands of a script. -/
inductive NftCommand where
  | addElement (set : CounterSet) (names : List String)
  | flushMap
  | addColour (names : List String) (colour : Colour)

/-- A name that fits the script grammar. -/
def quotable (iface : String) : Bool :=
  !iface.isEmpty && decide (iface.utf8ByteSize < 16) &&
    iface.toList.all (fun ch => ch.isAlphanum || ch == '_' || ch == '-' || ch == '.')

/-- The assertion of a block: every managed interface is in all sets, and the colour map sends
    exactly the managed interfaces to the chain of the colour. -/
def assertScript (ifaces : List String) (colour : Colour) : List NftCommand :=
  let names := ifaces.filter quotable
  (if names = [] then [] else CounterSet.all.map (fun set => .addElement set names)) ++
    [.flushMap] ++ (if names = [] then [] else [.addColour names colour])

namespace Kernel

/-- Adding an element that is there already is a no-op. -/
def addName (elems : Map String (ℕ × ℕ)) (name : String) : Map String (ℕ × ℕ) :=
  match elems.get name with
  | none => elems.set name (0, 0)
  | some _ => elems

def run (k : Kernel) : NftCommand → Kernel
  | .addElement set names =>
    { k with elems := Function.update k.elems set (names.foldl addName (k.elems set)) }
  | .flushMap => { k with colour := ∅ }
  | .addColour names colour =>
    { k with colour := names.foldl (fun m name => m.set name colour) k.colour }

/-- Apply a script: one transaction, refused without the include. -/
def apply (k : Kernel) (script : List NftCommand) : Kernel :=
  if k.loaded then script.foldl run k else k

/-- A packet ticks the element of its interface. -/
def tick (k : Kernel) (set : CounterSet) (iface : String) (bytes : ℕ) : Kernel :=
  match (k.elems set).get iface with
  | none => k
  | some v => { k with
      elems := Function.update k.elems set ((k.elems set).set iface (v.1 + 1, v.2 + bytes)) }

/-- A packet leaves on an interface: its colour names the set that counts it. -/
def send (k : Kernel) (iface : String) (band : Band) (bytes : ℕ) : Kernel :=
  match k.colour.get iface with
  | none => k
  | some colour => k.tick ⟨.tx, colour, band⟩ iface bytes

/-- The table is rebuilt, with the include or without it. -/
def reload (k : Kernel) (loaded : Bool) : Kernel :=
  ⟨k.handle + 1, loaded, fun _ => ∅, ∅⟩

/-- The marking sets of a listing. -/
def listSets (k : Kernel) (set : CounterSet) : Option SetCounters :=
  if k.loaded then some ⟨k.handle, k.elems set⟩ else none

/-! ### What happens to a counter -/

variable {k : Kernel} {set : CounterSet} {iface : String} {v : ℕ × ℕ}

theorem get_addName {elems : Map String (ℕ × ℕ)} (h : elems.get iface = some v) (name : String) :
    (addName elems name).get iface = some v := by
  unfold addName
  split
  · rename_i hnone
    have hne : iface ≠ name := by
      rintro rfl
      exact absurd (h.symm.trans hnone) (by simp)
    rw [Map.get_set_ne _ _ hne, h]
  · exact h

theorem get_foldl_addName {elems : Map String (ℕ × ℕ)} (h : elems.get iface = some v)
    (names : List String) : (names.foldl addName elems).get iface = some v := by
  refine foldl_rel (R := fun m m' : Map String (ℕ × ℕ) => m.get iface = some v →
    m'.get iface = some v) ?_ ?_ ?_ names elems h
  · exact fun _ h => h
  · exact fun _ _ _ h h' hm => h' (h hm)
  · exact fun _ name hm => get_addName hm name

/-- A script changes no counter that is there. -/
theorem get_run (command : NftCommand) (h : (k.elems set).get iface = some v) :
    ((k.run command).elems set).get iface = some v := by
  cases command with
  | addElement set' names =>
    simp only [run, Function.update_apply]
    split
    · rename_i heq
      exact get_foldl_addName (heq ▸ h) names
    · exact h
  | flushMap => exact h
  | addColour names colour => exact h

theorem handle_run (k : Kernel) (command : NftCommand) : (k.run command).handle = k.handle := by
  cases command <;> rfl

theorem get_apply (script : List NftCommand) (h : (k.elems set).get iface = some v) :
    ((k.apply script).elems set).get iface = some v := by
  unfold apply
  split
  · refine foldl_rel (R := fun k k' : Kernel => (k.elems set).get iface = some v →
      (k'.elems set).get iface = some v) ?_ ?_ ?_ script k h
    · exact fun _ h => h
    · exact fun _ _ _ h h' hk => h' (h hk)
    · exact fun _ command hk => get_run command hk
  · exact h

theorem handle_apply (k : Kernel) (script : List NftCommand) :
    (k.apply script).handle = k.handle := by
  unfold apply
  split
  · refine foldl_rel (R := fun k k' : Kernel => k'.handle = k.handle) ?_ ?_ handle_run script k
    · exact fun _ => rfl
    · exact fun _ _ _ h h' => h'.trans h
  · rfl

/-- A packet adds to one counter, if it is there. -/
theorem get_tick (k : Kernel) (set : CounterSet) (iface : String) (bytes : ℕ) (set' : CounterSet)
    (iface' : String) :
    ((k.tick set iface bytes).elems set').get iface' =
      ((k.elems set').get iface').map fun v =>
        if set' = set ∧ iface' = iface then (v.1 + 1, v.2 + bytes) else v := by
  unfold tick
  split
  · rename_i hnone
    by_cases heq : set' = set ∧ iface' = iface
    · obtain ⟨rfl, rfl⟩ := heq
      simp [hnone]
    · simp [heq]
  · rename_i v hv
    simp only [Function.update_apply]
    by_cases hset : set' = set
    · subst hset
      rw [if_pos rfl, Map.get_set]
      by_cases hiface : iface' = iface
      · subst hiface
        simp [hv]
      · simp [hiface]
    · simp [hset]

theorem handle_tick (k : Kernel) (set : CounterSet) (iface : String) (bytes : ℕ) :
    (k.tick set iface bytes).handle = k.handle := by
  unfold tick
  split <;> rfl

/-- A packet that leaves is counted under the colour of its interface. -/
theorem get_send (k : Kernel) (iface : String) (band : Band) (bytes : ℕ) (set : CounterSet)
    (iface' : String) :
    ((k.send iface band bytes).elems set).get iface' =
      ((k.elems set).get iface').map fun v =>
        if set.direction = .tx ∧ iface' = iface ∧ set.band = band ∧
          k.colour.get iface = some set.colour then (v.1 + 1, v.2 + bytes) else v := by
  unfold send
  split
  · rename_i hnone
    simp [hnone]
  · rename_i colour hcolour
    rw [get_tick]
    obtain ⟨direction, colour', band'⟩ := set
    simp only [CounterSet.mk.injEq, hcolour, Option.some.injEq]
    congr 1
    funext v
    apply if_congr _ rfl rfl
    constructor
    · rintro ⟨⟨hdir, hcol, hband⟩, hiface⟩
      exact ⟨hdir, hiface, hband, hcol.symm⟩
    · rintro ⟨hdir, hiface, hband, hcol⟩
      exact ⟨⟨hdir, hcol.symm, hband⟩, hiface⟩

theorem handle_send (k : Kernel) (iface : String) (band : Band) (bytes : ℕ) :
    (k.send iface band bytes).handle = k.handle := by
  unfold send
  split
  · rfl
  · exact handle_tick k _ iface bytes

end Kernel

/-! ### Reading -/

/-- What one read produced. -/
structure ReadOutcome where
  blocks : ℕ
  resets : ℕ
deriving DecidableEq, Repr

/-- The block length, the table's name, the previous read of each set with the block it was
    read for, and the queue of finished blocks. -/
structure Marker where
  secs : ℕ
  table : String
  last : CounterSet → Option (ℕ × SetCounters)
  queue : BlockQueue

/-- The increase of an element, if it is in both reads and has not gone backwards. -/
def increase (now prev : Option (ℕ × ℕ)) : Option (ℕ × ℕ) :=
  match now, prev with
  | some now, some prev =>
    if prev.1 ≤ now.1 ∧ prev.2 ≤ now.2 then some (now.1 - prev.1, now.2 - prev.2) else none
  | _, _ => none

namespace Marker

/-- The baseline of block `n`: the read of block `n - 2`. -/
def baseline (m : Marker) (n : ℕ) (set : CounterSet) : Option SetCounters :=
  match m.last set with
  | none => none
  | some (readFor, prev) => if readFor + 2 = n then some prev else none

/-- The table was rebuilt since the previous read of this colour. -/
def rebuilt (m : Marker) (sets : CounterSet → Option SetCounters) (n : ℕ) : Bool :=
  (CounterSet.ofColour (.ofBlock n)).any fun set =>
    (m.baseline n set).any fun prev => (sets set).any fun now => prev.handle != now.handle

/-- Packets and bytes of one set since its previous read. -/
def delta (m : Marker) (sets : CounterSet → Option SetCounters) (n : ℕ) (iface : String)
    (set : CounterSet) : Option (ℕ × ℕ) :=
  increase ((sets set).bind fun now => now.elems.get iface)
    ((m.baseline n set).bind fun prev => prev.elems.get iface)

/-- Whether every set of the colour had the interface at the previous read. -/
def hadBaseline (m : Marker) (n : ℕ) (iface : String) : Bool :=
  (CounterSet.ofColour (.ofBlock n)).all fun set =>
    (m.baseline n set).any fun prev => (prev.elems.get iface).isSome

/-- The finished block of an interface; none without a baseline. -/
def blockOf (m : Marker) (sets : CounterSet → Option SetCounters) (n : ℕ) (under_test : Bool)
    (iface : String) : Option MarkBlock :=
  let c := Colour.ofBlock n
  if m.hadBaseline n iface then
    match m.rebuilt sets n, m.delta sets n iface ⟨.tx, c, .s⟩, m.delta sets n iface ⟨.tx, c, .l⟩,
        m.delta sets n iface ⟨.rx, c, .s⟩, m.delta sets n iface ⟨.rx, c, .l⟩ with
    | false, some tx_s, some tx_l, some rx_s, some rx_l =>
      some {
        n, secs := m.secs, under_test
        tx_pkts_s := tx_s.1, tx_pkts_l := tx_l.1, tx_bytes := tx_s.2 + tx_l.2
        rx_pkts_s := rx_s.1, rx_pkts_l := rx_l.1, rx_bytes := rx_s.2 + rx_l.2, reset := false }
    | _, _, _, _, _ =>
      -- counters that restarted: the numbers of the block are not used
      some {
        n, secs := m.secs, under_test
        tx_pkts_s := 0, tx_pkts_l := 0, tx_bytes := 0
        rx_pkts_s := 0, rx_pkts_l := 0, rx_bytes := 0, reset := true }
  else none

/-- The blocks a read finishes, with their interfaces. -/
def finished (m : Marker) (sets : CounterSet → Option SetCounters) (ifaces : List String) (n : ℕ)
    (under_test : Bool) : List (String × MarkBlock) :=
  ifaces.filterMap fun iface => (m.blockOf sets n under_test iface).map (fun b => (iface, b))

/-- Finish block `n`: queue one block per interface that had a baseline.  Only the sets of the
    block's colour move their baseline. -/
def read (m : Marker) (reply : Except String (CounterSet → Option SetCounters))
    (ifaces : List String) (n : ℕ) (under_test : Bool) : Except String (Marker × ReadOutcome) :=
  match reply with
  | .error e => .error ("marking: list sets: " ++ e)
  | .ok sets =>
    match (CounterSet.ofColour (.ofBlock n)).find? (fun set => (sets set).isNone) with
    | some set => .error
        ("marking: set " ++ set.name ++ " missing from " ++ m.table ++ " (include not loaded?)")
    | none =>
      let out := m.finished sets ifaces n under_test
      .ok ({ m with
          queue := out.foldl (fun queue p => pushBlock queue p.1 p.2) m.queue
          last := fun set =>
            if set ∈ CounterSet.ofColour (.ofBlock n) then (sets set).map (fun now => (n, now))
            else m.last set },
        ⟨out.length, (out.filter (fun p => p.2.reset)).length⟩)

/-! ### What a read produces -/

variable {m m' : Marker} {sets : CounterSet → Option SetCounters} {ifaces : List String} {n : ℕ}
variable {under_test : Bool} {iface : String} {b : MarkBlock} {out : ReadOutcome}

theorem baseline_eq_some_iff {set : CounterSet} {prev : SetCounters} :
    m.baseline n set = some prev ↔ ∃ k, m.last set = some (k, prev) ∧ k + 2 = n := by
  unfold baseline
  split
  · rename_i hnone
    simp [hnone]
  · rename_i k prev' hsome
    split
    · rename_i hk
      simp [hsome, hk]
    · rename_i hk
      simp [hsome, hk]

/-- A finished block is block `n`, and comes from a baseline; without the reset flag the table is
    the same. -/
theorem of_blockOf (h : m.blockOf sets n under_test iface = some b) :
    b.n = n ∧ m.hadBaseline n iface = true ∧ (b.reset = false → m.rebuilt sets n = false) := by
  unfold blockOf at h
  simp only at h
  split at h
  · rename_i hbase
    split at h
    · rename_i hrebuilt _ _ _ _
      obtain rfl := Option.some.inj h
      exact ⟨rfl, hbase, fun _ => hrebuilt⟩
    · obtain rfl := Option.some.inj h
      exact ⟨rfl, hbase, fun hreset => absurd hreset (by simp)⟩
  · exact absurd h (by simp)

/-- From a baseline of the same table whose counters have not gone backwards, the block states
    their increase. -/
theorem blockOf_eq (under_test : Bool) {tx_s tx_l rx_s rx_l : ℕ × ℕ} (hbase : m.hadBaseline n iface = true)
    (hsame : m.rebuilt sets n = false)
    (htxs : m.delta sets n iface ⟨.tx, .ofBlock n, .s⟩ = some tx_s)
    (htxl : m.delta sets n iface ⟨.tx, .ofBlock n, .l⟩ = some tx_l)
    (hrxs : m.delta sets n iface ⟨.rx, .ofBlock n, .s⟩ = some rx_s)
    (hrxl : m.delta sets n iface ⟨.rx, .ofBlock n, .l⟩ = some rx_l) :
    m.blockOf sets n under_test iface = some {
      n, secs := m.secs, under_test
      tx_pkts_s := tx_s.1, tx_pkts_l := tx_l.1, tx_bytes := tx_s.2 + tx_l.2
      rx_pkts_s := rx_s.1, rx_pkts_l := rx_l.1, rx_bytes := rx_s.2 + rx_l.2, reset := false } := by
  simp only [blockOf, hbase, hsame, htxs, htxl, hrxs, hrxl, if_true]

theorem mem_finished {r : String × MarkBlock} :
    r ∈ m.finished sets ifaces n under_test ↔
      r.1 ∈ ifaces ∧ m.blockOf sets n under_test r.1 = some r.2 := by
  obtain ⟨iface, b⟩ := r
  simp only [finished, List.mem_filterMap, Option.map_eq_some_iff, Prod.mk.injEq]
  constructor
  · rintro ⟨iface', hmem, b', hb, rfl, rfl⟩
    exact ⟨hmem, hb⟩
  · rintro ⟨hmem, hb⟩
    exact ⟨iface, hmem, b, hb, rfl, rfl⟩

/-- A read that succeeds has found the four sets, and keeps them as the next baseline. -/
theorem of_read {reply : Except String (CounterSet → Option SetCounters)}
    (h : m.read reply ifaces n under_test = .ok (m', out)) :
    ∃ sets, reply = .ok sets ∧ (∀ set, set.colour = .ofBlock n → (sets set).isSome) ∧
      ∀ set, m'.last set =
        if set.colour = .ofBlock n then (sets set).map (fun now => (n, now)) else m.last set := by
  unfold read at h
  split at h
  · exact absurd h (by simp)
  rename_i sets
  split at h
  · exact absurd h (by simp)
  rename_i hfound
  simp only [Except.ok.injEq, Prod.mk.injEq] at h
  obtain ⟨rfl, -⟩ := h
  refine ⟨sets, rfl, fun set hset => ?_, fun set => ?_⟩
  · have hsome := List.find?_eq_none.mp hfound set (CounterSet.mem_ofColour.mpr hset)
    simpa [Option.isSome_iff_ne_none] using hsome
  · simp only [CounterSet.mem_ofColour]

end Marker

end Mielofon
