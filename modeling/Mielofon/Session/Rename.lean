import Mielofon.Worker

namespace Mielofon

open Lib

/-!
# Renamed links

What the registry remembers of a link is kept under the link's id, which has the name of the far
end in it.  Three calls rename far ends (`worker.rs`): naming by router id, the registration of
another agent, and a registration of the agent itself.  The first two touch the links alone, the
third drops what no link it reports has the id of.

* `Books`, `Tests` — what is remembered under an id;
* `KeepsBooks`, `KeepsTests` — a renaming carries it over, and nothing is left under another id;
* `Unbooked` — nothing is remembered of the links that are renamed;
* `keepsBooks_iff`, `keepsTests_iff` — one agent;
* `rename_keeps_books_iff` — the three calls, in every state of the registry.
-/

/-- The tests issued under an id and the commands in flight under it. -/
structure Tests where
  issued : Tier → Option ℕ
  marked : Kind → Bool

/-- All that is remembered under an id. -/
structure Books extends Tests where
  sent : Option ℕ
  retry : Option ℕ

/-- Nothing is remembered. -/
def Books.none : Books := ⟨⟨fun _ => .none, fun _ => false⟩, .none, .none⟩

namespace Worker

def tests (w : Worker) (id : String) : Tests :=
  ⟨fun tier => w.last_issue.get (id, tier), fun kind => decide ((id, kind) ∈ w.in_flight)⟩

def books (w : Worker) (id : String) : Books :=
  ⟨w.tests id, w.applied_sent.get id, w.apply_retry_at.get id⟩

/-- Every entry is that of a link the agent has. -/
def Current (w : Worker) : Prop := ∀ id, w.books id ≠ .none → ∃ l ∈ w.links, l.id = id

end Worker

variable {w w' : Worker} {f g : LinkKey → LinkKey}

/-- What is remembered of each link is remembered of it under its new name, and every entry is
    that of a link. -/
structure KeepsBooks (f : LinkKey → LinkKey) (w w' : Worker) : Prop where
  carried : ∀ l ∈ w.links, w'.books (f l).id = w.books l.id
  current : w'.Current

/-- The same of the tests alone. -/
structure KeepsTests (f : LinkKey → LinkKey) (w w' : Worker) : Prop where
  carried : ∀ l ∈ w.links, w'.tests (f l).id = w.tests l.id
  current : w'.Current

/-- Nothing is remembered of a link that is renamed, under its old name or under its new one; where
    another link comes to have the id of the old name, the same may stand under both.  And every
    entry is that of a link as it is renamed. -/
structure Unbooked (f : LinkKey → LinkKey) (w : Worker) : Prop where
  clear : ∀ l ∈ w.links, f l ≠ l →
    w.books l.id = .none ∧ w.books (f l).id = .none ∨
      (∃ n ∈ w.links, f n ≠ l ∧ (f n).id = l.id) ∧ w.books (f l).id = w.books l.id
  current : ∀ id, w.books id ≠ .none → ∃ l ∈ w.links, (f l).id = id

/-- A call that renames the links and does nothing else. -/
theorem keepsBooks_iff (hf : ∀ l, f (f l) = f l) :
    KeepsBooks f w { w with links := w.links.map f } ↔ Unbooked f w := by
  constructor
  · rintro ⟨hcarried, hcurrent⟩
    have hids : ∀ id, w.books id ≠ .none → ∃ l ∈ w.links, (f l).id = id := by
      intro id hid
      obtain ⟨m, hm, rfl⟩ := hcurrent id hid
      obtain ⟨l, hl, rfl⟩ := List.mem_map.mp hm
      exact ⟨l, hl, rfl⟩
    refine ⟨fun l hl hren => ?_, hids⟩
    have hsame : w.books (f l).id = w.books l.id := hcarried l hl
    by_cases hnone : w.books l.id = .none
    · exact Or.inl ⟨hnone, hsame.trans hnone⟩
    · obtain ⟨n, hn, hid⟩ := hids l.id hnone
      -- a link renamed to `l` would leave `l` as it is
      refine Or.inr ⟨⟨n, hn, fun heq => hren ?_, hid⟩, hsame⟩
      rw [← heq, hf]
  · rintro ⟨hclear, hids⟩
    refine ⟨fun l hl => ?_, fun id hid => ?_⟩
    · show w.books (f l).id = w.books l.id
      by_cases hren : f l = l
      · rw [hren]
      · rcases hclear l hl hren with ⟨hold, hnew⟩ | ⟨-, hsame⟩
        · rw [hold, hnew]
        · exact hsame
    · obtain ⟨l, hl, rfl⟩ := hids id hid
      exact ⟨f l, List.mem_map_of_mem hl, rfl⟩

/-! ### A registration of the agent itself -/

section Refreshed

variable {links : List LinkKey} {router_id loopback : Option String}
  {peer_rids : Map String String}

/-- What is left of the tests is that of the links reported. -/
theorem tests_refreshed (w : Worker) (id : String) :
    (WorkerRegistry.refreshed w links router_id peer_rids loopback).tests id =
      if id ∈ links.map LinkKey.id then w.tests id else Books.none.toTests := by
  have hissued : ∀ tier, (WorkerRegistry.refreshed w links router_id peer_rids loopback).last_issue.get
      (id, tier) = if id ∈ links.map LinkKey.id then w.last_issue.get (id, tier) else none := by
    intro tier
    show Map.get (Map.retain _ _) _ = _
    rw [Map.get_retain_key (fun k : String × Tier => decide (k.1 ∈ links.map LinkKey.id))]
    simp only [decide_eq_true_eq]
  have hmarked : ∀ kind, (id, kind) ∈
      (WorkerRegistry.refreshed w links router_id peer_rids loopback).in_flight ↔
        (id, kind) ∈ w.in_flight ∧ id ∈ links.map LinkKey.id := fun kind => Finset.mem_filter
  unfold Worker.tests
  simp only [hissued, hmarked]
  split
  · rename_i hid
    simp only [hid, and_true]
  · rename_i hid
    simp only [hid, and_false, decide_false]
    rfl

/-- Every entry an agent is left with after its registration is that of a link it reported. -/
theorem current_refreshed (w : Worker) :
    (WorkerRegistry.refreshed w links router_id peer_rids loopback).Current := by
  intro id hid
  by_contra hnot
  have hlinks : id ∉ links.map LinkKey.id := fun h => hnot (List.mem_map.mp h)
  refine hid ?_
  -- the costs are forgotten, and the tests of this id are dropped
  show Books.mk _ _ _ = Books.none
  rw [tests_refreshed, if_neg hlinks]
  rfl

theorem keepsTests_iff (hlinks : ∀ l, l ∈ links ↔ l ∈ w.links.map g) :
    KeepsTests g w (WorkerRegistry.refreshed w links router_id peer_rids loopback) ↔
      ∀ l ∈ w.links, w.tests (g l).id = w.tests l.id := by
  have hkept : ∀ l ∈ w.links,
      (WorkerRegistry.refreshed w links router_id peer_rids loopback).tests (g l).id =
        w.tests (g l).id := fun l hl => by
    rw [tests_refreshed, if_pos]
    exact List.mem_map_of_mem ((hlinks (g l)).mpr (List.mem_map_of_mem hl))
  constructor
  · rintro ⟨hcarried, -⟩ l hl
    rw [← hkept l hl, hcarried l hl]
  · intro h
    refine ⟨fun l hl => ?_, current_refreshed w⟩
    rw [hkept l hl, h l hl]

end Refreshed

/-! ### The calls -/

namespace WorkerRegistry

theorem named_named (w : Worker) (lookup : String → Option String) (l : LinkKey) :
    named w lookup (named w lookup l) = named w lookup l := by
  unfold named
  cases h : (w.peer_rids.get l.interface).bind lookup with
  | none => simp only [h]
  | some name => simp only [h]

theorem settleOther_settleOther (agent : String) (l : LinkKey) :
    settleOther agent (settleOther agent l) = settleOther agent l := by
  by_cases h : l.to ≠ agent ∧ nameKey l.to = nameKey agent
  · have hto : (settleOther agent l).to = agent := by
      unfold settleOther
      rw [if_pos h]
    exact if_neg (fun hagain => hagain.1 hto)
  · have hsame : settleOther agent l = l := if_neg h
    rw [hsame, hsame]

/-- **A rename keeps what is remembered** only of links of which nothing is.  Naming by router id
    and the registration of another agent leave every entry where it is; a registration of the agent
    itself that changes far ends alone, by `g`, keeps what stands under the new ids and drops the
    rest. -/
theorem rename_keeps_books_iff (r : WorkerRegistry) :
    (∀ (lookup : String → Option String) (a : String) (w : Worker), r.worker a = some w →
      ∃ w', (r.resolvePeers lookup).1.worker a = some w' ∧
        w'.links = w.links.map (named w lookup) ∧
        (KeepsBooks (named w lookup) w w' ↔ Unbooked (named w lookup) w)) ∧
    (∀ (agent : String) (links : List LinkKey) (router_id : Option String)
      (peer_rids : Map String String) (loopback : Option String) (a : String) (w : Worker),
      a ≠ agent → r.worker a = some w →
      ∃ w', (r.register agent links router_id peer_rids loopback).1.worker a = some w' ∧
        w'.links = w.links.map (settleOther agent) ∧
        (KeepsBooks (settleOther agent) w w' ↔ Unbooked (settleOther agent) w)) ∧
    ∀ (agent : String) (links : List LinkKey) (router_id : Option String)
      (peer_rids : Map String String) (loopback : Option String) (w : Worker)
      (g : LinkKey → LinkKey),
      r.worker agent = some w → (∀ l, g l = { l with «to» := (g l).to }) →
      (∀ l, l ∈ links.map (settle agent r.inner.keys) ↔ l ∈ w.links.map g) →
      ∃ w', (r.register agent links router_id peer_rids loopback).1.worker agent = some w' ∧
        (∀ l, l ∈ w'.links ↔ l ∈ w.links.map g) ∧
        (KeepsTests g w w' ↔ ∀ l ∈ w.links, w.tests (g l).id = w.tests l.id) := by
  refine ⟨fun lookup a w hw => ?_, fun agent links router_id peer_rids loopback a w ha hw => ?_,
    fun agent links router_id peer_rids loopback w g hw _ hlinks => ?_⟩
  · refine ⟨_, by rw [worker_resolvePeers, hw]; rfl, rfl, ?_⟩
    exact keepsBooks_iff (named_named w lookup)
  · refine ⟨_, by rw [worker_register, if_neg ha, hw]; rfl, rfl, ?_⟩
    exact keepsBooks_iff (settleOther_settleOther agent)
  · have hentry : r.entry agent = w := by
      unfold entry
      rw [hw]
      rfl
    refine ⟨_, by rw [worker_register, if_pos rfl], hlinks, ?_⟩
    rw [hentry]
    exact keepsTests_iff hlinks

/-- A link as its agent decodes it from a protocol. -/
private def decodedLink : LinkKey := ⟨"hub-a", "node.0.example", "awg_sp_node0"⟩

/-- A hub that was sent a cost for it. -/
private def hubSentCost : WorkerRegistry :=
  ((new.register "hub-a" [decodedLink] none ∅ none).1).setAppliedSent "hub-a" decodedLink 20

/-- The far end registers under the name it has: the cost sent is then that of no link. -/
theorem renamed_link_loses_cost : ¬ ∀ (r : WorkerRegistry) (agent a : String) (w w' : Worker),
    a ≠ agent → r.worker a = some w → (r.register agent [] none ∅ none).1.worker a = some w' →
      KeepsBooks (settleOther agent) w w' := fun h => by
  have hkeeps := h hubSentCost "node-0.example" "hub-a" _ _ (by decide) rfl rfl
  have hsent := congrArg Books.sent (hkeeps.carried decodedLink (by decide))
  exact absurd hsent (by decide)

end WorkerRegistry

end Mielofon
