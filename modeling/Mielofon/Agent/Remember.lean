import Mielofon.Agent.Discover
import Mielofon.Lib.Folds

namespace Mielofon

open Lib

/-!
# What an agent remembers of a peer

While an adjacency is down, discovery keeps the peer the interface was resolved to last.  It is
remembered only through the links of the refresh before.

* `NodeView.refreshes` — a run of refreshes;
* `Listed`, `ridOf`, `tokenOf`, `Answers` — what the bus has of an interface in a refresh;
* `known_refreshes` — what is remembered is learnt by token, and erased by every failed call;
* `peer_kept_iff` — when the last peer is kept while the adjacency is down;
* `failed_status_forgets` — a failed status call in between.
-/

variable (parse : String → Option Ipv6Addr) (cfg : AgentConfig)

namespace NodeView

/-- Refreshes one after another. -/
def refreshes (st : NodeView) (run : List Bus) : NodeView :=
  run.foldl (fun st bus => st.refresh parse cfg bus) st

/-- The interface has links, and all of them are to `host`. -/
def ResolvesTo (st : NodeView) (iface host : String) : Prop :=
  (∃ l ∈ st.links, l.interface = iface) ∧ ∀ l ∈ st.links, l.interface = iface → l.to = host

end NodeView

/-! ### What a refresh reads of an interface -/

/-- If there is a snapshot, it has the interface as a managed point-to-point one. -/
def Listed (iface : String) (bus : Bus) : Prop :=
  ∀ status, bus "bird" "status" = .ok status → iface ∈ managedIfaces status cfg

/-- The peer by router id. -/
def ridOf (iface : String) (bus : Bus) : Option String :=
  match bus "bird" "status" with
  | .ok status => ridPeer status cfg iface
  | .error _ => none

/-- The peer by name token. -/
def tokenOf (iface : String) (bus : Bus) : Option String :=
  match bus "bird" "status" with
  | .ok status => tokenPeer status cfg iface
  | .error _ => none

/-- BIRD's status call answers, and that of the interface with a global address. -/
def Answers (iface : String) (bus : Bus) : Bool :=
  match bus "bird" "status" with
  | .ok _ => (tunnelAddress parse bus iface).isSome
  | .error _ => false

/-- There is a snapshot, in which no neighbour is on the interface. -/
def AdjacencyDown (iface : String) (bus : Bus) : Prop :=
  ∃ status, bus "bird" "status" = .ok status ∧ (neighborRids status cfg).get iface = none

variable {parse cfg} {iface host : String} {bus : Bus} {st : NodeView}

theorem AdjacencyDown.ridOf (h : AdjacencyDown cfg iface bus) : ridOf cfg iface bus = none := by
  obtain ⟨status, hbird, hdown⟩ := h
  unfold Mielofon.ridOf
  rw [hbird]
  simp only [ridPeer, hdown, Option.bind_none]

/-- What is remembered of a listed interface after a refresh. -/
theorem known_step (hlisted : Listed cfg iface bus) :
    (st.refresh parse cfg bus).known.get iface =
      if Answers parse iface bus then
        ((ridOf cfg iface bus).or (st.known.get iface)).or (tokenOf cfg iface bus)
      else none := by
  unfold Answers ridOf tokenOf
  cases hbird : bus "bird" "status" with
  | ok status => exact known_refresh hbird (hlisted status hbird)
  | error e => exact known_refresh_of_error hbird

/-- Without a resolution by router id, refreshes remember, learn by token and forget. -/
theorem known_refreshes (run : List Bus) (st : NodeView) (hlisted : ∀ bus ∈ run, Listed cfg iface bus)
    (hrid : ∀ bus ∈ run, ridOf cfg iface bus = none) :
    (st.refreshes parse cfg run).known.get iface =
      run.foldl (remember (Answers parse iface) (tokenOf cfg iface)) (st.known.get iface) := by
  induction run generalizing st with
  | nil => rfl
  | cons bus run ih =>
    have hstep : (st.refresh parse cfg bus).known.get iface =
        remember (Answers parse iface) (tokenOf cfg iface) (st.known.get iface) bus := by
      rw [known_step (hlisted bus List.mem_cons_self), hrid bus List.mem_cons_self, Option.none_or]
      rfl
    rw [List.foldl_cons, ← hstep]
    exact ih (st.refresh parse cfg bus) (fun b hb => hlisted b (List.mem_cons_of_mem _ hb))
      (fun b hb => hrid b (List.mem_cons_of_mem _ hb))

/-- After a refresh an interface resolves to what is remembered of it. -/
theorem resolvesTo_refresh_iff : (st.refresh parse cfg bus).ResolvesTo iface host ↔
    (st.refresh parse cfg bus).known.get iface = some host := by
  constructor
  · rintro ⟨⟨l, hl, hi⟩, hall⟩
    refine get_collect_of_agree (fun e he heq => ?_) ⟨_, List.mem_map_of_mem hl, hi⟩
    obtain ⟨l', hl', rfl⟩ := List.mem_map.mp he
    exact hall l' hl' heq
  · intro hknown
    cases hbird : bus "bird" "status" with
    | error e => exact absurd (hknown.symm.trans (known_refresh_of_error hbird)) (by simp)
    | ok status =>
      -- one link is to `host`, and all links of an interface are to one peer
      have hsome : ∃ l ∈ (st.refresh parse cfg bus).links, l.interface = iface ∧ l.to = host := by
        rw [NodeView.known, get_collect] at hknown
        obtain ⟨e, hlast, rfl⟩ := Option.map_eq_some_iff.mp hknown
        obtain ⟨he, hk⟩ := mem_of_lastSuch hlast
        obtain ⟨l, hl, rfl⟩ := List.mem_map.mp he
        exact ⟨l, hl, of_decide_eq_true hk, rfl⟩
      obtain ⟨-, hpeer, -⟩ := (mem_links_refresh hbird).mp hsome
      obtain ⟨l, hl, hi, -⟩ := hsome
      refine ⟨⟨l, hl, hi⟩, fun l' hl' hi' => ?_⟩
      obtain ⟨-, hpeer', -⟩ := (mem_links_refresh hbird).mp ⟨l', hl', hi', rfl⟩
      exact Option.some.inj (hpeer'.symm.trans hpeer)

/-- **The last peer is kept while the adjacency is down**, exactly if no call failed since it was
    resolved, or the name token finds it again before any other peer.

    In `first` the interface was resolved by router id, for the last time before `now`: there the
    adjacency is down.  It is listed all along. -/
theorem peer_kept_iff (before between : List Bus) (first now : Bus)
    (hfirst : ridOf cfg iface first = some host)
    (hlast : ∀ bus ∈ between, ridOf cfg iface bus = none)
    (hlisted : ∀ bus ∈ first :: between ++ [now], Listed cfg iface bus)
    (hdown : AdjacencyDown cfg iface now) (hnow : Answers parse iface now) :
    (NodeView.init.refreshes parse cfg (before ++ first :: between ++ [now])).ResolvesTo iface host ↔
      (∀ bus ∈ first :: between, Answers parse iface bus) ∨
        (between.rtakeWhile (Answers parse iface) ++ [now]).findSome? (tokenOf cfg iface) =
          some host := by
  let st₀ := NodeView.init.refreshes parse cfg before
  let st₁ := st₀.refresh parse cfg first
  let st₂ := st₁.refreshes parse cfg between
  have hrun : NodeView.init.refreshes parse cfg (before ++ first :: between ++ [now]) =
      st₂.refresh parse cfg now := by
    simp only [NodeView.refreshes, List.foldl_append, List.foldl_cons, List.foldl_nil, st₂, st₁, st₀]
  -- resolved, and remembered if the calls answer
  have hst₁ : st₁.known.get iface = if Answers parse iface first then some host else none := by
    rw [known_step (hlisted first (by simp)), hfirst, Option.some_or, Option.some_or]
  have hst₂ : st₂.known.get iface =
      (if between.all (Answers parse iface) then st₁.known.get iface else none).or
        ((between.rtakeWhile (Answers parse iface)).findSome? (tokenOf cfg iface)) := by
    rw [known_refreshes between st₁ (fun bus hb => hlisted bus (by simp [hb])) hlast, foldl_remember]
  rw [hrun, resolvesTo_refresh_iff, known_step (hlisted now (by simp)), if_pos hnow, hdown.ridOf,
    Option.none_or, hst₂, hst₁, Option.or_assoc]
  rw [List.findSome?_append]
  have htoken : [now].findSome? (tokenOf cfg iface) = tokenOf cfg iface now := by
    simp
  rw [htoken]
  by_cases hall : ∀ bus ∈ first :: between, Answers parse iface bus
  · have hfirst' := hall first List.mem_cons_self
    have hbetween : between.all (Answers parse iface) = true :=
      List.all_eq_true.mpr fun bus hb => hall bus (List.mem_cons_of_mem _ hb)
    rw [if_pos hbetween, if_pos hfirst', Option.some_or]
    exact iff_of_true rfl (Or.inl hall)
  · have hforgot : (if between.all (Answers parse iface) = true then
        (if Answers parse iface first = true then some host else none) else none) = none := by
      split
      · rename_i hbetween
        refine if_neg fun hfirst' => hall fun bus hb => ?_
        rcases List.mem_cons.mp hb with rfl | hb
        · exact hfirst'
        · exact List.all_eq_true.mp hbetween bus hb
      · rfl
    rw [hforgot, Option.none_or, or_iff_right hall]

/-! ### A tunnel named by its role -/

/-- The tunnel of a hub towards a spoke; its name token is no label of a peer. -/
private def hubConfig : AgentConfig := ⟨"hub-a", "mesh_v3", ["awg_*"], "dummy_awg", []⟩

private def snapshot (neighbors : List Json) : Json :=
  .obj [("ospf", .arr [.obj [("protocol", .str "mesh_v3"),
      ("interfaces", .arr [.obj [("interface", .str "awg_sp_x1"), ("type", .str "ptp")]]),
      ("neighbors", .arr neighbors)]]),
    ("bgp", .arr [.obj [("name", .str "peer_x1spoke_example_com"), ("neighbor_id", .str "192.0.2.9")]])]

/-- The neighbour's row while the adjacency is up. -/
private def adjacent : Json := .obj [("rid", .str "192.0.2.9"), ("interface", .str "awg_sp_x1")]

private def tunnel : Json :=
  .obj [("ipv6-address", .arr [.obj [("address", .str "fd00::2"), ("mask", .nat 127)]])]

private def parseTunnel (s : String) : Option Ipv6Addr :=
  if s = "fd00::2" then some (0xfd00000000000000#128 <<< 64 ||| 2) else none

private def busOf (bird iface : Except String Json) : Bus := fun object _ =>
  if object = "bird" then bird else iface

private def up : Bus := busOf (.ok (snapshot [adjacent])) (.ok tunnel)

private def down : Bus := busOf (.ok (snapshot [])) (.ok tunnel)

private theorem listed_busOf (neighbors : List Json) (iface : Except String Json)
    (h : "awg_sp_x1" ∈ managedIfaces (snapshot neighbors) hubConfig) :
    Listed hubConfig "awg_sp_x1" (busOf (.ok (snapshot neighbors)) iface) := by
  intro status hbird
  obtain rfl := Except.ok.inj hbird
  exact h

private theorem listed_up : Listed hubConfig "awg_sp_x1" up := listed_busOf _ _ (by decide)

private theorem listed_down : Listed hubConfig "awg_sp_x1" down := listed_busOf _ _ (by decide)

private theorem down_adjacency : AdjacencyDown hubConfig "awg_sp_x1" down :=
  ⟨snapshot [], rfl, by decide⟩

/-- The spoke is kept through two refreshes with the adjacency down. -/
theorem peer_kept_answering : (NodeView.init.refreshes parseTunnel hubConfig
    ([] ++ up :: [down] ++ [down])).ResolvesTo "awg_sp_x1" "x1spoke.example.com" := by
  refine (peer_kept_iff [] [down] up down (by decide) ?_ ?_ down_adjacency (by decide)).mpr
    (Or.inl ?_)
  · intro bus hb
    obtain rfl := List.mem_singleton.mp hb
    exact down_adjacency.ridOf
  · intro bus hb
    simp only [List.cons_append, List.nil_append, List.mem_cons, List.not_mem_nil, or_false] at hb
    rcases hb with rfl | rfl | rfl
    · exact listed_up
    · exact listed_down
    · exact listed_down
  · intro bus hb
    rcases List.mem_pair.mp hb with rfl | rfl
    · decide
    · decide

/-- **A failed status call forgets the peer.**  The snapshot failed once, or the interface's status
    did: with the adjacency down the interface is no link any more. -/
theorem failed_status_forgets :
    ridOf hubConfig "awg_sp_x1" up = some "x1spoke.example.com" ∧
      (NodeView.init.refreshes parseTunnel hubConfig [up]).ResolvesTo "awg_sp_x1"
        "x1spoke.example.com" ∧
      Listed hubConfig "awg_sp_x1" down ∧ AdjacencyDown hubConfig "awg_sp_x1" down ∧
      Answers parseTunnel "awg_sp_x1" down ∧
      ¬ (NodeView.init.refreshes parseTunnel hubConfig
        [up, busOf (.error "timeout") (.ok tunnel), down]).ResolvesTo "awg_sp_x1"
          "x1spoke.example.com" ∧
      ¬ (NodeView.init.refreshes parseTunnel hubConfig
        [up, busOf (.ok (snapshot [])) (.error "timeout"), down]).ResolvesTo "awg_sp_x1"
          "x1spoke.example.com" := by
  have hno : ∀ st : NodeView, st.links = [] → ¬ st.ResolvesTo "awg_sp_x1" "x1spoke.example.com" := by
    rintro st hlinks ⟨⟨l, hl, -⟩, -⟩
    exact absurd (hlinks ▸ hl) List.not_mem_nil
  refine ⟨by decide, ⟨by decide, by decide⟩, listed_down, down_adjacency, by decide,
    hno _ (by decide), hno _ (by decide)⟩

end Mielofon
