import Mielofon.Classifier.Mark
import Mielofon.Classifier.Quality
import Mielofon.Kv

namespace Mielofon

open Lib

/-!
# A classification pass

A pass re-derives class and cost of every link of the node's own agents from the windows of its
samples (`classifier.rs`).  It joins the marking blocks of paired links first, then classifies
link by link, holding the last decision where a link is in use or unmeasured and changing a
class only once enough fresh samples agree.

* `LastPolicy`, `Pending`, `MarkTotals`, `ClassifierState` — what a pass keeps for the next;
* `pairLinks`, `mergePair` — the two halves of a tunnel;
* `foldMarking` — the passive tier of one link;
* `candidateOf`, `confirm` — the class a window stands for, and the class that takes effect;
* `classifyLink`, `classifyOnce` — one link, and the pass.
-/

/-- The configuration the classifier reads. -/
structure Config (F : Type*) where
  hubs : List String
  members : List String
  quality : QualityCfg F
  classifier : ClassifierCfg

/-- Whether `name` is a hub: listed as one, or a member when the list is empty. -/
def Config.isHub {F : Type*} (cfg : Config F) (name : String) : Bool :=
  if cfg.hubs.isEmpty then cfg.members.contains name else cfg.hubs.contains name

/-- The last derived policy of a link. -/
structure LastPolicy where
  quality : Quality
  ospf_cost : ℕ
deriving DecidableEq, Repr

/-- A candidate class being confirmed: how many fresh samples agreed so far, and the second of
    the one counted last. -/
structure Pending where
  quality : Quality
  passes : ℕ
  last_ts : ℕ
deriving DecidableEq, Repr

/-- Running passive-tier totals of a link.  `last_n` is the highest block number folded in. -/
structure MarkTotals where
  last_n : ℕ
  sent_s : ℕ
  sent_l : ℕ
  lost_s : ℕ
  lost_l : ℕ
  regime_changes : ℕ
  regime : Option Regime
deriving DecidableEq, Repr

/-- The totals before any block. -/
def MarkTotals.default : MarkTotals := ⟨0, 0, 0, 0, 0, 0, none⟩

/-- What the classifier keeps from pass to pass. -/
structure ClassifierState where
  last : Map LinkKey LastPolicy
  pending : Map LinkKey Pending
  totals : Map LinkKey MarkTotals

/-- Nothing classified yet. -/
def ClassifierState.new : ClassifierState := ⟨∅, ∅, ∅⟩

/-- The part of a node's state that classification reads and writes. -/
structure PolicyState (F : Type*) where
  tsdb : Tsdb F
  classifier : ClassifierState
  kv : LwwStore F

/-! ### Pairs -/

/-- The links from one node to another. -/
def byDir (links : List LinkKey) (a b : String) : List LinkKey :=
  links.filter (fun l => l.from == a && l.to == b)

/-- The reverse half of a link, when exactly one link exists in each direction. -/
def pairOf (links : List LinkKey) (l : LinkKey) : Option LinkKey :=
  match byDir links l.from l.to, byDir links l.to l.from with
  | [_], [rev] => if l.from ≠ l.to then some rev else none
  | _, _ => none

/-- Every paired link with its reverse half. -/
def pairLinks (links : List LinkKey) : List (LinkKey × LinkKey) :=
  links.filterMap (fun l => (pairOf links l).map (fun rev => (l, rev)))

variable {F : Type*}

/-- Worse of two metrics; either may be unset. -/
def worseBy (worse : F → F → F) : Option F → Option F → Option F
  | some x, some y => some (worse x y)
  | some x, none => some x
  | none, y => y

section Views

variable [LinearOrder F]

/-- Worse of two metrics bounded from above. -/
def worseUpper (a b : Option F) : Option F := worseBy max a b

/-- Worse of two metrics bounded from below. -/
def worseLower (a b : Option F) : Option F := worseBy min a b

/-- The view a paired link is classified from: the worse of both halves for the round trip, and
    for throughput and passive loss too where the tunnel is costed as one. -/
def mergePair (own rev : WindowView F) (mode : PairCost) : WindowView F :=
  if mode = .off then own
  else
    let v := { own with
      rtt_ms := worseUpper own.rtt_ms rev.rtt_ms
      loss_pct := worseUpper own.loss_pct rev.loss_pct
      jitter_ms := worseUpper own.jitter_ms rev.jitter_ms }
    if mode = .symmetric then
      { v with
        tcp_mbps := worseLower own.tcp_mbps rev.tcp_mbps
        udp_mbps := worseLower own.udp_mbps rev.udp_mbps
        udp_loss_pct := worseUpper own.udp_loss_pct rev.udp_loss_pct
        udp_jitter_ms := worseUpper own.udp_jitter_ms rev.udp_jitter_ms
        mark_loss_pct := worseUpper own.mark_loss_pct rev.mark_loss_pct
        implied_tcp_mbps := worseLower own.implied_tcp_mbps rev.implied_tcp_mbps }
    else v

end Views

/-! ### The passive tier of one link -/

/-- The greatest `u64`. -/
def u64Max : ℕ := 2 ^ 64 - 1

/-- The samples of a link from `since` on (the raw part of `Tsdb::query`). -/
def Tsdb.query (t : Tsdb F) (link : LinkKey) (since «until» : ℕ) : List (RawSample F) :=
  (t.ringOf link).samples.filter (fun s => decide (since ≤ s.ts) && decide (s.ts < «until»))

/-- All links with at least one sample in memory. -/
def Tsdb.links (t : Tsdb F) : List LinkKey :=
  t.byLink.keys.filter (fun l => !(t.ringOf l).samples.isEmpty)

/-- Count one block. -/
def MarkTotals.count (t : MarkTotals) (b : Block) : MarkTotals :=
  { t with
    sent_s := t.sent_s + b.sent_s
    sent_l := t.sent_l + b.sent_l
    lost_s := t.lost_s + b.lost_s
    lost_l := t.lost_l + b.lost_l }

/-- Note the loss shape: a change from a known one is counted. -/
def MarkTotals.noteRegime (t : MarkTotals) (regime : Option Regime) : MarkTotals :=
  if regime.isSome && t.regime != regime then
    { t with
      regime_changes := if t.regime.isSome then t.regime_changes + 1 else t.regime_changes
      regime := regime }
  else t

/-- Count the joined blocks above the highest number folded in so far, but for those a throughput
    test overlapped. -/
def MarkTotals.fold (t : MarkTotals) (blocks : List Block) : MarkTotals :=
  let counted := (blocks.filter (fun b => decide (t.last_n < b.n) && !b.under_test)).foldl
    MarkTotals.count t
  { counted with last_n := max t.last_n ((blocks.getLast?.map Block.n).getD 0) }

section Pass

variable [LinearOrder F] [Arith F] (cfg : Config F) (now : ℕ)

/-- Write the joined numbers of a block back onto its sample. -/
def writeResult (link : LinkKey) (t : Tsdb F) (b : Block) : Tsdb F :=
  match (b.loss_pct : Option F) with
  | some loss => t.append link (RawSample.blockResult b.ts loss b.rate_mbps)
  | none => t

/-- How far back blocks are joined: one of slack past the longest horizon. -/
def markSince (c : ClassifierCfg) (now : ℕ) : ℕ := now - (max c.mark_recover_secs c.tcp_fresh_secs + 600)

/-- Fold the summary of a link's joined blocks into its view.  For a link of this node's agents,
    also write each newly joined block's result back and advance the totals. -/
def foldMarking (link rev : LinkKey) (owned : Bool) (tsdb : Tsdb F)
    (totals : Map LinkKey MarkTotals) (view : WindowView F) :
    Tsdb F × Map LinkKey MarkTotals × WindowView F :=
  let c := cfg.classifier
  let own := tsdb.query link (markSince c now) u64Max
  let other := tsdb.query rev (markSince c now) u64Max
  let blocks := join own other
  if blocks.isEmpty then (tsdb, totals, view)
  else
    let s : Summary F := summarize blocks c now
    let view := { view with
      mark_loss_pct := s.loss_pct
      mark_loss_s_pct := s.loss_s_pct
      mark_loss_l_pct := s.loss_l_pct
      mark_rate_mbps := s.rate_mbps
      regime := s.regime
      implied_tcp_mbps := match s.loss_pct, view.rtt_ms with
        | some loss, some rtt => impliedTcpMbps loss rtt c.loss_model c.mss_bytes
        | _, _ => none }
    if !owned then (tsdb, totals, view)
    else
      let joined := (own.filter (fun s => s.mark_loss_pct.isSome)).map RawSample.ts
      let tsdb := (blocks.filter (fun b => !joined.contains b.ts)).foldl (writeResult link) tsdb
      let t := (totals.get link).getD .default
      (tsdb, totals.set link ((t.fold blocks).noteRegime s.regime), view)

/-- The stores and views during the first half of a pass. -/
structure Folding (F : Type*) where
  tsdb : Tsdb F
  totals : Map LinkKey MarkTotals
  views : Map LinkKey (WindowView F)

/-- The passive tier of one pair: of no concern unless an agent of this node has either half. -/
def foldPair (owned : List LinkKey) (s : Folding F) (pair : LinkKey × LinkKey) : Folding F :=
  let own := owned.contains pair.1
  if !own && !owned.contains pair.2 then s
  else match s.views.get pair.1 with
    | some view =>
      let res := foldMarking cfg now pair.1 pair.2 own s.tsdb s.totals view
      ⟨res.1, res.2.1, s.views.set pair.1 res.2.2⟩
    | none => s

/-! ### The class of one link -/

/-- The cost a link advertises for a class: a hub adds an offset towards what is not one. -/
def policyCost (link : LinkKey) (q : Quality) : ℕ :=
  let base := costForQuality cfg.quality q
  if cfg.isHub link.from && !cfg.isHub link.to then
    min (base + cfg.classifier.hub_spoke_cost_offset) RawSample.u32Max
  else base

/-- Write the window with the derived class and cost into the record store. -/
def writeDerived (kv : LwwStore F) (link : LinkKey) (view : WindowView F) (quality : Option Quality)
    (ospf_cost : Option ℕ) : LwwStore F :=
  (kv.put link
    { ts := view.ts, rtt_ms := view.rtt_ms, loss_pct := view.loss_pct, jitter_ms := view.jitter_ms,
      tcp_mbps := view.tcp_mbps, udp_mbps := view.udp_mbps, udp_jitter_ms := view.udp_jitter_ms,
      udp_loss_pct := view.udp_loss_pct, util_mbps := view.util_mbps, state := view.state,
      quality := quality, ospf_cost := ospf_cost, mark_loss_pct := view.mark_loss_pct,
      mark_rate_mbps := view.mark_rate_mbps, implied_tcp_mbps := view.implied_tcp_mbps,
      regime := view.regime }).1

/-- Keep the last derived class and cost. -/
def holdLast (c : ClassifierState) (kv : LwwStore F) (link : LinkKey) (view : WindowView F) :
    LwwStore F :=
  writeDerived kv link view ((c.last.get link).map LastPolicy.quality)
    ((c.last.get link).map LastPolicy.ospf_cost)

/-- The class the window of a link stands for; `none` where the last decision is held. -/
def candidateOf (view class_view : WindowView F) : Option Quality :=
  if view.busyHeld now cfg.classifier.busy_hold_secs then none
  else if !class_view.measured then none
  else some (classifyWindow cfg.quality class_view)

/-- Count a sample towards a candidate.  A different candidate interrupts the confirmation, and a
    pass that reads the same newest sample again does not count. -/
def nextPending (held : Option Pending) (ts : ℕ) (candidate : Quality) : Pending :=
  let entry := held.getD ⟨candidate, 0, 0⟩
  let entry := if entry.quality ≠ candidate then ⟨candidate, 0, 0⟩ else entry
  if entry.last_ts ≠ ts then { entry with passes := entry.passes + 1, last_ts := ts } else entry

/-- The class that takes effect, and the confirmations afterwards.  The first class of a link
    applies at once; a change takes as many fresh samples in a row as configured. -/
def confirm (passes : ℕ) (last : Option LastPolicy) (pending : Map LinkKey Pending) (link : LinkKey)
    (ts : ℕ) (candidate : Quality) : Quality × Map LinkKey Pending :=
  match last with
  | none => (candidate, pending)
  | some last =>
    if last.quality = candidate then (candidate, pending.erase link)
    else
      let entry := nextPending (pending.get link) ts candidate
      if max passes 1 ≤ entry.passes then (candidate, pending.erase link)
      else (last.quality, pending.set link entry)

/-- The view a link is classified from. -/
def classView (pairs : LinkKey → Option LinkKey) (views : Map LinkKey (WindowView F))
    (link : LinkKey) (view : WindowView F) : WindowView F :=
  match (pairs link).bind views.get with
  | some rev => mergePair view rev cfg.classifier.pair_cost
  | none => view

/-- Classify one link. -/
def classifyLink (pairs : LinkKey → Option LinkKey) (views : Map LinkKey (WindowView F))
    (s : ClassifierState × LwwStore F) (link : LinkKey) : ClassifierState × LwwStore F :=
  match views.get link with
  | none => s
  | some view =>
    match candidateOf cfg now view (classView cfg pairs views link view) with
    | none => (s.1, holdLast s.1 s.2 link view)
    | some candidate =>
      let res := confirm cfg.classifier.hysteresis_passes (s.1.last.get link) s.1.pending link
        view.ts candidate
      let cost := policyCost cfg link res.1
      ({ s.1 with last := s.1.last.set link ⟨res.1, cost⟩, pending := res.2 },
        writeDerived s.2 link view (some res.1) (some cost))

/-! ### The pass -/

/-- The horizons the classifier is configured with. -/
def windowSpec : WindowSpec :=
  ⟨cfg.classifier.always_fresh_secs, cfg.classifier.tcp_fresh_secs, cfg.classifier.tcp_carry_secs⟩

/-- Add the window of a link, if it has one. -/
def addView (tsdb : Tsdb F) (views : Map LinkKey (WindowView F)) (l : LinkKey) :
    Map LinkKey (WindowView F) :=
  match tsdb.window l (windowSpec cfg) now with
  | some view => views.set l view
  | none => views

/-- The windows of some links. -/
def viewsOf (tsdb : Tsdb F) (links : List LinkKey) : Map LinkKey (WindowView F) :=
  links.foldl (addView cfg now tsdb) ∅

/-- The first half of a pass: the windows with the passive tier folded in. -/
def foldPairs (owned : List LinkKey) (s : PolicyState F) : Folding F :=
  (pairLinks s.tsdb.links).foldl (foldPair cfg now owned)
    ⟨s.tsdb, s.classifier.totals, viewsOf cfg now s.tsdb s.tsdb.links⟩

/-- Which half each link is classified together with. -/
def pairsOf (links : List LinkKey) (l : LinkKey) : Option LinkKey :=
  if cfg.classifier.pair_cost = .off then none else pairOf links l

/-- One classification pass over the links of this node's agents. -/
def classifyOnce (owned : List LinkKey) (s : PolicyState F) : PolicyState F :=
  let links := s.tsdb.links
  let folded := foldPairs cfg now owned s
  let res := (links.filter owned.contains).foldl
    (classifyLink cfg now (pairsOf cfg links) folded.views)
    ({ s.classifier with totals := folded.totals }, s.kv)
  ⟨folded.tsdb, res.1, res.2⟩

end Pass

end Mielofon
