import Mathlib
import Mielofon.Agent.Marker
import Mielofon.Json

namespace Mielofon

open Lib

/-!
# What the reads of the marker count

A read asks `nft` for a listing, picks the marking sets of the table out of it, and compares the
sets of the block's colour with the ones it read two blocks before (`mark.rs`, `nft.rs`).

* `Listing`, `parseSets` — the sets of the table in a listing;
* `ReadCall`, `Marker.call` — a call of `Marker::read`, and the marker after it;
* `readings` — the listings that were read for a colour, in order;
* `last_calls` — the baseline is the last of them;
* `ExactReads` — a block states what two successive readings differ by, and blocks whose
  counters did not restart in between count different packets.
-/

/-! ### Listings -/

/-- What a listing has of the marking sets. -/
abbrev Listing := CounterSet → Option SetCounters

/-- A counter of an element; zero when the element has none. -/
def counterField (el : Json) (field : String) : ℕ :=
  (((el.get "counter").bind (·.get field)).bind Json.as_u64).getD 0

/-- The element of a set, when it has a counter statement. -/
def parseElem (e : Json) : Option (String × ℕ × ℕ) :=
  match e.get "elem" with
  | none => none
  | some el =>
    match (el.get "val").bind Json.as_str with
    | none => none
    | some iface => some (iface, counterField el "packets", counterField el "bytes")

/-- A set of the table, if it is a marking set. -/
def parseSet (table : String) (item : Json) : Option (CounterSet × SetCounters) :=
  match item.get "set" with
  | none => none
  | some set =>
    if (set.get "table").bind Json.as_str ≠ some table then none
    else
      match ((set.get "name").bind Json.as_str).bind
          (fun name => CounterSet.all.find? (fun s => s.name = name)) with
      | none => none
      | some s => some (s,
          { handle := ((set.get "handle").bind Json.as_u64).getD 0
            elems := ((((set.get "elem").bind Json.as_array).getD []).filterMap parseElem).foldl
              (fun m e => m.set e.1 e.2) ∅ })

/-- Pick the marking sets of `table` out of a `list sets` reply. -/
def parseSets (reply : Json) (table : String) : Listing :=
  match (reply.get "nftables").bind Json.as_array with
  | none => fun _ => none
  | some items =>
    (items.filterMap (parseSet table)).foldl (fun out p => Function.update out p.1 (some p.2))
      (fun _ => none)

/-! ### The listing of a table -/

/-- An element of a set with its counter, as `nft` lists it. -/
def elemItem (e : String × ℕ × ℕ) : Json :=
  .obj [("elem", .obj [("val", .str e.1),
    ("counter", .obj [("packets", .nat e.2.1), ("bytes", .nat e.2.2)])])]

namespace Kernel

def setItem (k : Kernel) (table : String) (set : CounterSet) : Json :=
  .obj [("set", .obj [("name", .str set.name), ("table", .str table), ("handle", .nat k.handle),
    ("elem", .arr ((k.elems set).pairs.map elemItem))])]

/-- The answer to `nft -j list sets` when there are no sets but the marking sets. -/
def listing (k : Kernel) (table : String) : Json :=
  .obj [("nftables", .arr (if k.loaded then CounterSet.all.map (k.setItem table) else []))]

theorem parseSet_setItem (k : Kernel) (table : String) (set : CounterSet) :
    parseSet table (k.setItem table set) =
      some (set, ⟨k.handle, (k.elems set).pairs.foldl (fun m e => m.set e.1 e.2) ∅⟩) := by
  have hname : CounterSet.all.find? (fun s => s.name = set.name) = some set := by
    obtain ⟨direction, colour, band⟩ := set
    cases direction <;> cases colour <;> cases band <;> decide
  have helems : ((k.elems set).pairs.map elemItem).filterMap parseElem = (k.elems set).pairs := by
    rw [List.filterMap_map]
    exact List.filterMap_some
  simp [parseSet, setItem, Json.get, List.lookup, Json.as_str, Json.as_array, Json.as_u64, hname,
    helems]

/-- **Round trip.** From the listing of the table the reader has its sets again, element by
    element. -/
theorem parseSets_listing (k : Kernel) (table : String) (set : CounterSet) :
    parseSets (k.listing table) table set = (k.listSets set).map (fun s =>
      { s with elems := s.elems.pairs.foldl (fun m e => m.set e.1 e.2) ∅ }) := by
  unfold listSets
  split
  · rename_i hloaded
    have hitems : (CounterSet.all.map (k.setItem table)).filterMap (parseSet table) =
        CounterSet.all.map (fun set =>
          (set, ⟨k.handle, (k.elems set).pairs.foldl (fun m e => m.set e.1 e.2) ∅⟩)) := by
      rw [List.filterMap_map, ← List.filterMap_eq_map]
      exact List.filterMap_congr fun set _ => k.parseSet_setItem table set
    have hparse : parseSets (k.listing table) table =
        ((CounterSet.all.map (k.setItem table)).filterMap (parseSet table)).foldl
          (fun (out : Listing) p => Function.update out p.1 (some p.2)) (fun _ => none) := by
      simp [parseSets, listing, Json.get, List.lookup, Json.as_array, hloaded]
    rw [hparse, hitems]
    obtain ⟨direction, colour, band⟩ := set
    cases direction <;> cases colour <;> cases band <;>
      simp [CounterSet.all]
  · rename_i hloaded
    simp [parseSets, listing, Json.get, List.lookup, Json.as_array, hloaded]

end Kernel

/-! ### Calls -/

/-- A call of `Marker::read`: what `nft` answers, and the arguments. -/
structure ReadCall where
  reply : Except String Json
  ifaces : List String
  n : ℕ
  under_test : Bool

namespace ReadCall

def colour (c : ReadCall) : Colour := .ofBlock c.n

/-- The listing a call reads: an answer that has the four sets of the colour. -/
def listing? (c : ReadCall) (table : String) : Option Listing :=
  match c.reply with
  | .error _ => none
  | .ok reply =>
    let sets := parseSets reply table
    if (CounterSet.ofColour c.colour).all (fun set => (sets set).isSome) then some sets else none

end ReadCall

namespace Marker

/-- The marker before its first read. -/
def new (secs : ℕ) (table : String) (queue : BlockQueue) : Marker :=
  ⟨secs, table, fun _ => none, queue⟩

/-- What a call returns. -/
def answer (table : String) (m : Marker) (c : ReadCall) : Except String (Marker × ReadOutcome) :=
  m.read (c.reply.map (parseSets · table)) c.ifaces c.n c.under_test

/-- The marker after a call; one that fails leaves it. -/
def call (table : String) (m : Marker) (c : ReadCall) : Marker :=
  match m.answer table c with
  | .ok (m, _) => m
  | .error _ => m

/-- The blocks a call queues, with their interfaces. -/
def emitted (table : String) (m : Marker) (c : ReadCall) : List (String × MarkBlock) :=
  match c.listing? table with
  | some sets => m.finished sets c.ifaces c.n c.under_test
  | none => []

/-- A read finishes a block for some of the interfaces it is given, in their order. -/
theorem finished_sublist (m : Marker) (sets : Listing) (ifaces : List String) (n : ℕ)
    (under_test : Bool) : ((m.finished sets ifaces n under_test).map Prod.fst).Sublist ifaces := by
  induction ifaces with
  | nil => exact List.Sublist.refl _
  | cons iface ifaces ih =>
    rw [finished, List.filterMap_cons]
    cases m.blockOf sets n under_test iface with
    | none => exact ih.cons _
    | some b => exact ih.cons_cons _

/-- A call that finds its sets queues its blocks and keeps the listing as the next baseline of the
    colour. -/
theorem answer_of_listing {table : String} (m : Marker) {c : ReadCall} {sets : Listing}
    (h : c.listing? table = some sets) :
    m.answer table c = .ok ({ m with
      queue := (m.emitted table c).foldl (fun queue p => pushBlock queue p.1 p.2) m.queue
      last := fun set =>
        if set.colour = c.colour then (sets set).map (fun now => (c.n, now)) else m.last set },
      ⟨(m.emitted table c).length, ((m.emitted table c).filter (fun p => p.2.reset)).length⟩) := by
  have hread := h
  unfold ReadCall.listing? at hread
  split at hread
  · exact absurd hread (by simp)
  rename_i reply hreply
  dsimp only at hread
  split at hread
  · rename_i hall
    obtain rfl := Option.some.inj hread
    have hfound : (CounterSet.ofColour (.ofBlock c.n)).find?
        (fun set => (parseSets reply table set).isNone) = none := by
      rw [List.find?_eq_none]
      intro set hset hnone
      have hsome := List.all_eq_true.mp hall set hset
      rw [Option.isNone_iff_eq_none] at hnone
      rw [hnone] at hsome
      exact absurd hsome (by simp)
    simp only [answer, emitted, h, read, hreply, Except.map, hfound, CounterSet.mem_ofColour]
    rfl
  · exact absurd hread (by simp)

/-- A call succeeds exactly if it finds its sets. -/
theorem answer_eq_ok_iff {table : String} {m : Marker} {c : ReadCall} :
    (∃ r, m.answer table c = .ok r) ↔ (c.listing? table).isSome := by
  constructor
  · rintro ⟨⟨m', out⟩, hok⟩
    obtain ⟨sets, hsets, hsome, -⟩ := of_read hok
    unfold ReadCall.listing?
    cases hreply : c.reply with
    | error e =>
      rw [hreply] at hsets
      exact absurd hsets (by simp [Except.map])
    | ok reply =>
      rw [hreply] at hsets
      obtain rfl := Except.ok.inj hsets
      dsimp only
      rw [if_pos]
      · rfl
      · exact List.all_eq_true.mpr fun set hset => hsome set (CounterSet.mem_ofColour.mp hset)
  · intro h
    obtain ⟨sets, hsets⟩ := Option.isSome_iff_exists.mp h
    exact ⟨_, answer_of_listing m hsets⟩

theorem call_of_listing {table : String} (m : Marker) {c : ReadCall} {sets : Listing}
    (h : c.listing? table = some sets) :
    m.call table c = { m with
      queue := (m.emitted table c).foldl (fun queue p => pushBlock queue p.1 p.2) m.queue
      last := fun set =>
        if set.colour = c.colour then (sets set).map (fun now => (c.n, now)) else m.last set } := by
  rw [call, answer_of_listing m h]

/-- A call that fails leaves the marker. -/
theorem call_of_none {table : String} (m : Marker) {c : ReadCall} (h : c.listing? table = none) :
    m.call table c = m := by
  unfold call
  split
  · rename_i m' out hok
    have hsome := answer_eq_ok_iff.mp ⟨_, hok⟩
    rw [h] at hsome
    exact absurd hsome (by simp)
  · rfl

/-- The marker after a sequence of calls. -/
def calls (table : String) (m : Marker) (cs : List ReadCall) : Marker := cs.foldl (call table) m

@[simp] theorem calls_concat (table : String) (m : Marker) (cs : List ReadCall) (c : ReadCall) :
    m.calls table (cs ++ [c]) = (m.calls table cs).call table c := by
  simp [calls]

end Marker

/-! ### What was read -/

/-- The listing a call reads for `colour`, with the block it was read for. -/
def readingOf (table : String) (colour : Colour) (c : ReadCall) : Option (ℕ × Listing) :=
  if c.colour = colour then (c.listing? table).map (fun sets => (c.n, sets)) else none

/-- The listings that were read for `colour`, in order. -/
def readings (table : String) (colour : Colour) (cs : List ReadCall) : List (ℕ × Listing) :=
  cs.filterMap (readingOf table colour)

theorem readings_append (table : String) (colour : Colour) (cs cs' : List ReadCall) :
    readings table colour (cs ++ cs') = readings table colour cs ++ readings table colour cs' :=
  List.filterMap_append

theorem readings_cons_of_listing {table : String} {c : ReadCall} {sets : Listing}
    (h : c.listing? table = some sets) (cs : List ReadCall) :
    readings table c.colour (c :: cs) = (c.n, sets) :: readings table c.colour cs := by
  rw [readings, List.filterMap_cons, readingOf, if_pos rfl, h]
  rfl

/-- **The baseline** of a set is what the last reading of its colour has of it. -/
theorem last_calls (table : String) (secs : ℕ) (name : String) (queue : BlockQueue)
    (cs : List ReadCall) (set : CounterSet) :
    ((Marker.new secs name queue).calls table cs).last set =
      (readings table set.colour cs).getLast?.bind
        (fun r => (r.2 set).map (fun now => (r.1, now))) := by
  induction cs using List.reverseRecOn with
  | nil => rfl
  | append_singleton cs c ih =>
    rw [Marker.calls_concat, readings_append]
    cases hlist : c.listing? table with
    | none =>
      -- a failed call is no reading
      have hnil : readings table set.colour [c] = [] := by
        simp [readings, readingOf, hlist]
      rw [Marker.call_of_none _ hlist, hnil, List.append_nil, ih]
    | some sets =>
      rw [Marker.call_of_listing _ hlist]
      dsimp only
      split
      · rename_i hcolour
        rw [hcolour, readings_cons_of_listing hlist]
        simp [readings]
      · rename_i hcolour
        have hnil : readings table set.colour [c] = [] := by
          simp [readings, readingOf, Ne.symm hcolour]
        rw [hnil, List.append_nil, ih]

theorem secs_calls (table : String) (m : Marker) (cs : List ReadCall) :
    (m.calls table cs).secs = m.secs := by
  induction cs using List.reverseRecOn with
  | nil => rfl
  | append_singleton cs c ih =>
    rw [Marker.calls_concat]
    cases hlist : c.listing? table with
    | none => rw [Marker.call_of_none _ hlist, ih]
    | some sets => rw [Marker.call_of_listing _ hlist, ← ih]

/-! ### What a block states -/

namespace Listing

/-- The counter of an interface in a set: packets and bytes. -/
def counter (l : Listing) (iface : String) (set : CounterSet) : Option (ℕ × ℕ) :=
  (l set).bind (fun now => now.elems.get iface)

def handle (l : Listing) (set : CounterSet) : Option ℕ := (l set).map (·.handle)

end Listing

/-- The block that states by how much the counters of its colour differ. -/
def differences (secs : ℕ) (c : ReadCall) (v w : CounterSet → ℕ × ℕ) : MarkBlock :=
  let pkts direction band := (w ⟨direction, c.colour, band⟩).1 - (v ⟨direction, c.colour, band⟩).1
  let bytes direction band := (w ⟨direction, c.colour, band⟩).2 - (v ⟨direction, c.colour, band⟩).2
  { n := c.n, secs, under_test := c.under_test
    tx_pkts_s := pkts .tx .s, tx_pkts_l := pkts .tx .l, tx_bytes := bytes .tx .s + bytes .tx .l
    rx_pkts_s := pkts .rx .s, rx_pkts_l := pkts .rx .l, rx_bytes := bytes .rx .s + bytes .rx .l
    reset := false }

/-- Two listings the block of `colour` can be counted between: the sets are the same ones, and
    the interface has its counters `v` and `w` in all of them, none of which went down. -/
structure Comparable (prev now : Listing) (colour : Colour) (iface : String)
    (v w : CounterSet → ℕ × ℕ) : Prop where
  handle : ∀ set, set.colour = colour → prev.handle set = now.handle set
  prev : ∀ set, set.colour = colour → prev.counter iface set = some (v set)
  now : ∀ set, set.colour = colour → now.counter iface set = some (w set)
  pkts : ∀ set, set.colour = colour → (v set).1 ≤ (w set).1
  bytes : ∀ set, set.colour = colour → (v set).2 ≤ (w set).2

theorem increase_eq_some_iff {now prev : Option (ℕ × ℕ)} {d : ℕ × ℕ} :
    increase now prev = some d ↔ ∃ v w, prev = some v ∧ now = some w ∧ v.1 ≤ w.1 ∧ v.2 ≤ w.2 ∧
      d = (w.1 - v.1, w.2 - v.2) := by
  unfold increase
  split
  · rename_i w v
    split
    · rename_i hle
      simp only [Option.some.injEq]
      constructor
      · rintro rfl
        exact ⟨v, w, rfl, rfl, hle.1, hle.2, rfl⟩
      · rintro ⟨_, _, ⟨⟩, ⟨⟩, -, -, rfl⟩
        rfl
    · rename_i hle
      constructor
      · exact fun h => absurd h (by simp)
      · rintro ⟨_, _, ⟨⟩, ⟨⟩, hpkts, hbytes, -⟩
        exact absurd ⟨hpkts, hbytes⟩ hle
  · rename_i hnone
    constructor
    · exact fun h => absurd h (by simp)
    · rintro ⟨v, w, rfl, rfl, -⟩
      exact absurd rfl (hnone w v rfl)

/-- The four sets of a colour, one after another. -/
theorem forall_ofColour {colour : Colour} {p : CounterSet → Prop} :
    (∀ set, set.colour = colour → p set) ↔ p ⟨.tx, colour, .s⟩ ∧ p ⟨.tx, colour, .l⟩ ∧
      p ⟨.rx, colour, .s⟩ ∧ p ⟨.rx, colour, .l⟩ := by
  constructor
  · exact fun h => ⟨h _ rfl, h _ rfl, h _ rfl, h _ rfl⟩
  · rintro ⟨htxs, htxl, hrxs, hrxl⟩ ⟨direction, colour', band⟩ hcolour
    obtain rfl : colour' = colour := hcolour
    cases direction <;> cases band <;> assumption

section Block

variable {m : Marker} {c : ReadCall} {now : Listing} {iface : String} {b : MarkBlock}

/-- Without the read of block `n - 2` no block is finished. -/
theorem blockOf_eq_none (h : ∀ set, set.colour = c.colour → m.baseline c.n set = none) :
    m.blockOf now c.n c.under_test iface = none := by
  have hbase : m.hadBaseline c.n iface = false := by
    rw [Marker.hadBaseline, List.all_eq_false]
    exact ⟨⟨.tx, c.colour, .s⟩, CounterSet.mem_ofColour.mpr rfl, by rw [h _ rfl]; simp⟩
  simp [Marker.blockOf, hbase]

section Baseline

variable {prev : Listing}

theorem hadBaseline_iff (hprev : ∀ set, set.colour = c.colour → m.baseline c.n set = prev set) :
    m.hadBaseline c.n iface = true ↔
      ∀ set, set.colour = c.colour → (prev.counter iface set).isSome := by
  rw [Marker.hadBaseline, List.all_eq_true]
  refine forall_congr' fun set => ?_
  constructor
  · intro h hset
    have hany := h (CounterSet.mem_ofColour.mpr hset)
    rw [hprev set hset, Option.any_eq_true] at hany
    obtain ⟨p, hp, helem⟩ := hany
    rw [Listing.counter, hp]
    exact helem
  · intro h hmem
    have hset := CounterSet.mem_ofColour.mp hmem
    obtain ⟨v, hv⟩ := Option.isSome_iff_exists.mp (h hset)
    obtain ⟨p, hp, helem⟩ := Option.bind_eq_some_iff.mp hv
    rw [hprev set hset, hp, Option.any_some, helem, Option.isSome_some]

/-- Between listings that both have the sets of the colour, the table was not rebuilt exactly when
    every one of them has kept its handle. -/
theorem rebuilt_eq_false_iff
    (hprev : ∀ set, set.colour = c.colour → m.baseline c.n set = prev set)
    (hsome : ∀ set, set.colour = c.colour → (prev set).isSome)
    (hnow : ∀ set, set.colour = c.colour → (now set).isSome) :
    m.rebuilt now c.n = false ↔
      ∀ set, set.colour = c.colour → prev.handle set = now.handle set := by
  have hone : ∀ set, set.colour = c.colour →
      ((m.baseline c.n set).any (fun p => (now set).any fun q => p.handle != q.handle) = false ↔
        prev.handle set = now.handle set) := by
    intro set hset
    obtain ⟨p, hp⟩ := Option.isSome_iff_exists.mp (hsome set hset)
    obtain ⟨q, hq⟩ := Option.isSome_iff_exists.mp (hnow set hset)
    rw [hprev set hset, Listing.handle, Listing.handle, hp, hq]
    simp
  rw [Marker.rebuilt, List.any_eq_false]
  constructor
  · intro h set hset
    exact (hone set hset).mp (Bool.eq_false_iff.mpr (h set (CounterSet.mem_ofColour.mpr hset)))
  · intro h set hmem
    have hset := CounterSet.mem_ofColour.mp hmem
    exact Bool.eq_false_iff.mp ((hone set hset).mpr (h set hset))

theorem delta_eq_some_iff
    (hprev : ∀ set, set.colour = c.colour → m.baseline c.n set = prev set) {set : CounterSet}
    (hset : set.colour = c.colour) {d : ℕ × ℕ} :
    m.delta now c.n iface set = some d ↔ ∃ v w, prev.counter iface set = some v ∧
      now.counter iface set = some w ∧ v.1 ≤ w.1 ∧ v.2 ≤ w.2 ∧ d = (w.1 - v.1, w.2 - v.2) := by
  rw [Marker.delta, hprev set hset]
  exact increase_eq_some_iff

end Baseline

/-- A block without the reset flag has counted every set of its colour. -/
theorem delta_of_blockOf (h : m.blockOf now c.n c.under_test iface = some b)
    (hreset : b.reset = false) :
    ∀ set, set.colour = c.colour → ∃ d, m.delta now c.n iface set = some d := by
  unfold Marker.blockOf at h
  simp only [(Marker.of_blockOf h).2.1, if_true] at h
  split at h
  · rename_i htxs htxl hrxs hrxl
    exact forall_ofColour.mpr ⟨⟨_, htxs⟩, ⟨_, htxl⟩, ⟨_, hrxs⟩, ⟨_, hrxl⟩⟩
  · obtain rfl := Option.some.inj h
    exact absurd hreset (by simp)

theorem blockOf_eq_differences {v w : CounterSet → ℕ × ℕ}
    (hbase : m.hadBaseline c.n iface = true) (hsame : m.rebuilt now c.n = false)
    (hd : ∀ set, set.colour = c.colour →
      m.delta now c.n iface set = some ((w set).1 - (v set).1, (w set).2 - (v set).2)) :
    m.blockOf now c.n c.under_test iface = some (differences m.secs c v w) :=
  Marker.blockOf_eq c.under_test hbase hsame (hd _ rfl) (hd _ rfl) (hd _ rfl) (hd _ rfl)

/-- **A block without the reset flag** is finished exactly between comparable listings, and states
    their differences. -/
theorem blockOf_eq_some_iff {prev : Listing} (hnow : ∀ set, set.colour = c.colour → (now set).isSome)
    (hprev : ∀ set, set.colour = c.colour → m.baseline c.n set = prev set) :
    (m.blockOf now c.n c.under_test iface = some b ∧ b.reset = false) ↔
      ∃ v w, Comparable prev now c.colour iface v w ∧ b = differences m.secs c v w := by
  have hsets : (∀ set, set.colour = c.colour → (prev.counter iface set).isSome) →
      ∀ set, set.colour = c.colour → (prev set).isSome := by
    intro h set hset
    obtain ⟨v, hv⟩ := Option.isSome_iff_exists.mp (h set hset)
    obtain ⟨p, hp, -⟩ := Option.bind_eq_some_iff.mp hv
    exact Option.isSome_iff_exists.mpr ⟨p, hp⟩
  constructor
  · rintro ⟨hblock, hreset⟩
    obtain ⟨-, hbase, hsame⟩ := Marker.of_blockOf hblock
    have hcounters := (hadBaseline_iff hprev).mp hbase
    have hcounted := delta_of_blockOf hblock hreset
    -- the counters of the two listings, whatever they are outside the colour
    let v set := (prev.counter iface set).getD (0, 0)
    let w set := (now.counter iface set).getD (0, 0)
    have hvalues : ∀ set, set.colour = c.colour → prev.counter iface set = some (v set) ∧
        now.counter iface set = some (w set) ∧ (v set).1 ≤ (w set).1 ∧ (v set).2 ≤ (w set).2 ∧
          m.delta now c.n iface set = some ((w set).1 - (v set).1, (w set).2 - (v set).2) := by
      intro set hset
      obtain ⟨d, hd⟩ := hcounted set hset
      obtain ⟨x, y, hx, hy, hpkts, hbytes, rfl⟩ := (delta_eq_some_iff hprev hset).mp hd
      obtain rfl : v set = x := by simp [v, hx]
      obtain rfl : w set = y := by simp [w, hy]
      exact ⟨hx, hy, hpkts, hbytes, hd⟩
    have hblock' := blockOf_eq_differences hbase (hsame hreset)
      (fun set hset => (hvalues set hset).2.2.2.2)
    refine ⟨v, w, ⟨?_, fun set hset => (hvalues set hset).1,
      fun set hset => (hvalues set hset).2.1, fun set hset => (hvalues set hset).2.2.1,
      fun set hset => (hvalues set hset).2.2.2.1⟩, Option.some.inj (hblock.symm.trans hblock')⟩
    exact (rebuilt_eq_false_iff hprev (hsets hcounters) hnow).mp (hsame hreset)
  · rintro ⟨v, w, hcmp, rfl⟩
    have hcounters : ∀ set, set.colour = c.colour → (prev.counter iface set).isSome :=
      fun set hset => Option.isSome_iff_exists.mpr ⟨v set, hcmp.prev set hset⟩
    have hd : ∀ set, set.colour = c.colour → m.delta now c.n iface set =
        some ((w set).1 - (v set).1, (w set).2 - (v set).2) := by
      intro set hset
      exact (delta_eq_some_iff hprev hset).mpr ⟨v set, w set, hcmp.prev set hset,
        hcmp.now set hset, hcmp.pkts set hset, hcmp.bytes set hset, rfl⟩
    exact ⟨blockOf_eq_differences ((hadBaseline_iff hprev).mpr hcounters)
      ((rebuilt_eq_false_iff hprev (hsets hcounters) hnow).mpr hcmp.handle) hd, rfl⟩

end Block

/-! ### Runs of reads -/

/-- Call `c`, after the calls `pre`, counts the interface from `v` to `w`: it finds its sets, the
    last reading of the colour was the one of block `n - 2`, and the two are comparable. -/
def Counts (table : String) (pre : List ReadCall) (c : ReadCall) (iface : String)
    (v w : CounterSet → ℕ × ℕ) : Prop :=
  iface ∈ c.ifaces ∧ ∃ k prev now, c.listing? table = some now ∧
    (readings table c.colour pre).getLast? = some (k, prev) ∧ k + 2 = c.n ∧
    Comparable prev now c.colour iface v w

/-- The counter did not restart between two readings: it is in both, and not lower in the later. -/
def Continues (iface : String) (set : CounterSet) (r r' : ℕ × Listing) : Prop :=
  ∃ x y, r.2.counter iface set = some x ∧ r'.2.counter iface set = some y ∧ x.1 ≤ y.1 ∧ x.2 ≤ y.2

instance (iface : String) (set : CounterSet) : IsTrans (ℕ × Listing) (Continues iface set) where
  trans _ _ _ := by
    rintro ⟨x, y, hx, hy, hpkts, hbytes⟩ ⟨y', z, hy', hz, hpkts', hbytes'⟩
    obtain rfl := Option.some.inj (hy.symm.trans hy')
    exact ⟨x, z, hx, hz, hpkts.trans hpkts', hbytes.trans hbytes'⟩

/-- **Reads are exact**, after every sequence of calls from the first one on. -/
structure ExactReads (table : String) (m₀ : Marker) : Prop where
  /-- A call returns an error, or finds its sets. -/
  succeeds : ∀ pre c, (∃ r, (m₀.calls table pre).answer table c = .ok r) ↔
    (c.listing? table).isSome
  /-- A block without the reset flag is queued exactly if the interface is counted between two
      readings, and states their differences. -/
  finished : ∀ pre c iface b,
    ((iface, b) ∈ (m₀.calls table pre).emitted table c ∧ b.reset = false) ↔
      ∃ v w, Counts table pre c iface v w ∧ b = differences m₀.secs c v w
  /-- There is one for each interface at most. -/
  once : ∀ pre c, c.ifaces.Nodup →
    (((m₀.calls table pre).emitted table c).map Prod.fst).Nodup
  /-- A block counts from the reading of an earlier one or from a later reading of its colour. -/
  apart : ∀ pre c mid c' iface iface' v w v' w', c.colour = c'.colour →
    Counts table pre c iface v w → Counts table (pre ++ c :: mid) c' iface' v' w' →
    ∃ r ∈ readings table c.colour (c :: mid),
      (readings table c'.colour (pre ++ c :: mid)).getLast? = some r
  /-- If the counter did not restart between the two, they count different packets and bytes. -/
  disjoint : ∀ pre c mid c' iface v w v' w' set, c.colour = c'.colour → set.colour = c.colour →
    Counts table pre c iface v w → Counts table (pre ++ c :: mid) c' iface v' w' →
    (readings table c.colour (c :: mid)).IsChain (Continues iface set) →
    Disjoint (Set.Ioc (v set).1 (w set).1) (Set.Ioc (v' set).1 (w' set).1) ∧
      Disjoint (Set.Ioc (v set).2 (w set).2) (Set.Ioc (v' set).2 (w' set).2)
  /-- A failed read leaves the baselines. -/
  failed : ∀ pre c e, (m₀.calls table pre).answer table c = .error e →
    (m₀.calls table (pre ++ [c])).last = (m₀.calls table pre).last

/-- Which blocks a call finishes. -/
theorem emitted_iff (secs : ℕ) (table name : String) (queue : BlockQueue) (pre : List ReadCall)
    (c : ReadCall) (iface : String) (b : MarkBlock) :
    ((iface, b) ∈ ((Marker.new secs name queue).calls table pre).emitted table c ∧ b.reset = false) ↔
      ∃ v w, Counts table pre c iface v w ∧ b = differences secs c v w := by
  have hlast := last_calls table secs name queue pre
  have hsecs : ((Marker.new secs name queue).calls table pre).secs = secs := secs_calls _ _ _
  -- the marker is read through its last listing and its block length alone
  generalize (Marker.new secs name queue).calls table pre = m at hlast hsecs
  subst hsecs
  cases hlist : c.listing? table with
  | none => simp [Marker.emitted, Counts, hlist]
  | some now =>
    have hnow : ∀ set, set.colour = c.colour → (now set).isSome := by
      unfold ReadCall.listing? at hlist
      split at hlist
      · exact absurd hlist (by simp)
      · dsimp only at hlist
        split at hlist
        · rename_i hall
          obtain rfl := Option.some.inj hlist
          exact fun set hset => List.all_eq_true.mp hall set (CounterSet.mem_ofColour.mpr hset)
        · exact absurd hlist (by simp)
    have hmem : (iface, b) ∈ m.emitted table c ↔
        iface ∈ c.ifaces ∧ m.blockOf now c.n c.under_test iface = some b := by
      simp only [Marker.emitted, hlist]
      exact Marker.mem_finished
    rw [hmem, and_assoc]
    -- the baseline is there if the last reading of the colour was the one of block `n - 2`
    by_cases hread : ∃ k prev, (readings table c.colour pre).getLast? = some (k, prev) ∧ k + 2 = c.n
    · obtain ⟨k, prev, hprev, hk⟩ := hread
      have hbase : ∀ set, set.colour = c.colour → m.baseline c.n set = prev set := by
        intro set hset
        rw [Marker.baseline, hlast, hset, hprev, Option.bind_some]
        cases hp : prev set with
        | none => simp [hp]
        | some p => simp [hp, hk]
      rw [blockOf_eq_some_iff hnow hbase]
      constructor
      · rintro ⟨hiface, v, w, hcmp, rfl⟩
        exact ⟨v, w, ⟨hiface, k, prev, now, hlist, hprev, hk, hcmp⟩, rfl⟩
      · rintro ⟨v, w, ⟨hiface, k', prev', now', hnow', hprev', -, hcmp⟩, rfl⟩
        obtain rfl := Option.some.inj (hlist.symm.trans hnow')
        obtain ⟨-, rfl⟩ := Prod.mk.inj (Option.some.inj (hprev.symm.trans hprev'))
        exact ⟨hiface, v, w, hcmp, rfl⟩
    · -- the last reading, if any, is of another block
      have hbase : ∀ set, set.colour = c.colour → m.baseline c.n set = none := by
        intro set hset
        rw [Marker.baseline, hlast, hset]
        cases hprev : (readings table c.colour pre).getLast? with
        | none => rfl
        | some r =>
          obtain ⟨k, prev⟩ := r
          have hk : k + 2 ≠ c.n := fun hk => hread ⟨k, prev, hprev, hk⟩
          rw [Option.bind_some]
          cases hp : prev set with
          | none => simp [hp]
          | some p => simp [hp, hk]
      rw [blockOf_eq_none hbase]
      constructor
      · rintro ⟨-, hnone, -⟩
        exact absurd hnone (by simp)
      · rintro ⟨v, w, ⟨-, k, prev, -, -, hprev, hk, -⟩, -⟩
        exact absurd ⟨k, prev, hprev, hk⟩ hread

/-- What a call is counted from after an earlier one that was read. -/
theorem getLast?_readings {table : String} {c : ReadCall} {now : Listing}
    (h : c.listing? table = some now) (pre mid : List ReadCall) :
    (readings table c.colour (pre ++ c :: mid)).getLast? =
      (readings table c.colour (c :: mid)).getLast? := by
  rw [readings_append, readings_cons_of_listing h, List.getLast?_append, List.getLast?_cons]
  rfl

/-- **Every sequence of reads is exact.** -/
theorem reads_exact (secs : ℕ) (table name : String) (queue : BlockQueue) :
    ExactReads table (Marker.new secs name queue) where
  succeeds _ _ := Marker.answer_eq_ok_iff
  finished pre c iface b := emitted_iff secs table name queue pre c iface b
  once pre c hnodup := by
    unfold Marker.emitted
    split
    · rename_i sets hsets
      exact hnodup.sublist (Marker.finished_sublist _ _ _ _ _)
    · exact List.nodup_nil
  apart pre c mid c' iface iface' v w v' w' hcolour hc hc' := by
    obtain ⟨-, k, prev, now, hnow, -⟩ := hc
    obtain ⟨-, k', prev', now', -, hprev', -⟩ := hc'
    rw [hprev']
    rw [← hcolour, getLast?_readings hnow] at hprev'
    exact ⟨_, List.mem_of_getLast? hprev', rfl⟩
  disjoint pre c mid c' iface v w v' w' set hcolour hset hc hc' hchain := by
    obtain ⟨-, k, prev, now, hnow, -, -, hcmp⟩ := hc
    obtain ⟨-, k', prev', now', -, hprev', -, hcmp'⟩ := hc'
    rw [← hcolour, getLast?_readings hnow] at hprev'
    have hw := hcmp.now set hset
    have hv' := hcmp'.prev set (hset.trans hcolour)
    -- the counter has not gone down from the one reading to the other
    have hle : (w set).1 ≤ (v' set).1 ∧ (w set).2 ≤ (v' set).2 := by
      rw [readings_cons_of_listing hnow] at hchain hprev'
      rcases List.mem_cons.mp (List.mem_of_getLast? hprev') with heq | hmem
      · obtain rfl := (Prod.mk.inj heq).2
        obtain heq := Option.some.inj (hw.symm.trans hv')
        rw [heq]
        exact ⟨le_rfl, le_rfl⟩
      · obtain ⟨x, y, hx, hy, hpkts, hbytes⟩ := hchain.rel_cons hmem
        obtain rfl := Option.some.inj (hw.symm.trans hx)
        obtain rfl := Option.some.inj (hv'.symm.trans hy)
        exact ⟨hpkts, hbytes⟩
    exact ⟨Set.Ioc_disjoint_Ioc_of_le hle.1, Set.Ioc_disjoint_Ioc_of_le hle.2⟩
  failed pre c e he := by
    have hnone : c.listing? table = none := by
      rw [← Option.not_isSome_iff_eq_none, ← Marker.answer_eq_ok_iff (m := (Marker.new secs name
        queue).calls table pre)]
      rintro ⟨r, hr⟩
      exact absurd (he.symm.trans hr) (by simp)
    rw [Marker.calls_concat, Marker.call_of_none _ hnone]

/-! ### A counter that restarts -/

/-- The table of handle 7 whose sets have `wg0` with the same counter. -/
private def tableAt (pkts : ℕ) : Kernel :=
  ⟨7, true, fun _ => (∅ : Map String (ℕ × ℕ)).set "wg0" (pkts, 100 * pkts), ∅⟩

/-- The read of block `n` that finds every counter at `pkts`. -/
private def readAt (n pkts : ℕ) : ReadCall :=
  ⟨.ok ((tableAt pkts).listing "fw4"), ["wg0"], n, false⟩

/-- Such reads are comparable if the counter did not go down. -/
private theorem counts_readAt (pre : List ReadCall) (n : ℕ) {v w : ℕ} (hle : v ≤ w) :
    Counts "fw4" (pre ++ [readAt n v]) (readAt (n + 2) w) "wg0" (fun _ => (v, 100 * v))
      (fun _ => (w, 100 * w)) := by
  have hlist : ∀ n pkts, (readAt n pkts).listing? "fw4" =
      some (parseSets ((tableAt pkts).listing "fw4") "fw4") := by
    intro n pkts
    refine if_pos (List.all_eq_true.mpr fun set _ => ?_)
    rw [Kernel.parseSets_listing]
    rfl
  have hhandle : ∀ pkts set, Listing.handle (parseSets ((tableAt pkts).listing "fw4") "fw4") set =
      some 7 := by
    intro pkts set
    rw [Listing.handle, Kernel.parseSets_listing]
    rfl
  have hcounter : ∀ pkts set, Listing.counter (parseSets ((tableAt pkts).listing "fw4") "fw4") "wg0"
      set = some (pkts, 100 * pkts) := by
    intro pkts set
    rw [Listing.counter, Kernel.parseSets_listing]
    exact (Map.get_foldl_pairs _ _).trans (Map.get_set_self _ _ _)
  have hcolour : (readAt n v).colour = (readAt (n + 2) w).colour := by
    have hmod : (n + 2) % 2 = n % 2 := by omega
    rw [ReadCall.colour, ReadCall.colour, Colour.ofBlock, Colour.ofBlock]
    exact if_congr (by rw [show (readAt (n + 2) w).n % 2 = n % 2 from hmod]; rfl) rfl rfl
  refine ⟨List.mem_singleton_self _, n, _, _, hlist _ w, ?_, rfl, fun set _ => ?_,
    fun set _ => hcounter v set, fun set _ => hcounter w set, fun _ _ => hle, fun _ _ => ?_⟩
  · rw [← hcolour, getLast?_readings (hlist n v), readings_cons_of_listing (hlist n v)]
    rfl
  · rw [hhandle, hhandle]
  · exact Nat.mul_le_mul_left 100 hle

/-- **A counter that restarts counts the same numbers again.** The counter of `wg0` goes from 0 to
    100 in block 2; it restarts in block 4, where it is at 10; in block 6 it goes from 10 to 60. -/
theorem restarted_counter_overlaps : ∃ v w v' w' : CounterSet → ℕ × ℕ,
    Counts "fw4" [readAt 0 0] (readAt 2 100) "wg0" v w ∧
    Counts "fw4" [readAt 0 0, readAt 2 100, readAt 4 10] (readAt 6 60) "wg0" v' w' ∧
    ¬ Disjoint (Set.Ioc (v ⟨.tx, .a, .s⟩).1 (w ⟨.tx, .a, .s⟩).1)
      (Set.Ioc (v' ⟨.tx, .a, .s⟩).1 (w' ⟨.tx, .a, .s⟩).1) := by
  refine ⟨_, _, _, _, counts_readAt [] 0 (Nat.zero_le 100),
    counts_readAt [readAt 0 0, readAt 2 100] 4 (by decide : 10 ≤ 60), ?_⟩
  rw [Set.Ioc_disjoint_Ioc]
  decide

end Mielofon
