import Mathlib.Data.String.Basic
import Mathlib.Data.List.Sort
import Mielofon.Agent.Node
import Mielofon.Json
import Mielofon.Text

namespace Mielofon

open Lib

/-!
# Link discovery

An agent derives its links from a snapshot of BIRD and from the addresses of their interfaces
(`discover.rs`), and finds them anew with every refresh (`agent.rs`).

* `globMatch`, `ifaceToken`, `peerName` — patterns of interfaces, and names of peers;
* `peerOf`, `selectLinks` — the managed interfaces of a snapshot, each with its peer;
* `discover` — the links, with their addresses;
* `NodeView`, `NodeView.refresh` — what a refresh keeps of them;
* `mem_selectLinks`, `known_refresh` — which links there are, and what is remembered of them.

Addresses are numbers of 128 bits; how they are written is a parameter.
-/

/-! ### Names -/

/-- The peer's full hostname from its BGP protocol name. -/
def peerHostname (name : String) : Option String :=
  (stripPrefix "peer_".toList name.toList).bind fun host =>
    if host = [] then none
    else some (String.ofList (host.map (fun c => if c = '_' then '.' else c)))

/-- The node name of a BGP peer protocol: its description, else the name decoded. -/
def peerName (bgp : Json) : Option String :=
  match (bgp.index "description").as_str.map trim with
  | some d => if d ≠ "" then some d else (bgp.index "name").as_str.bind peerHostname
  | none => (bgp.index "name").as_str.bind peerHostname

/-- First dot-label of a hostname. -/
def peerShortLabel (host : String) : String :=
  String.ofList (host.toList.takeWhile (fun c => c ≠ '.'))

/-- Shell-style match, byte by byte. -/
def globGo : List UInt8 → List UInt8 → Bool
  | [], n => n.isEmpty
  | c :: p, n =>
    if c = 42 then (List.range (n.length + 1)).any (fun k => globGo p (n.drop k))
    else if c = 63 then !n.isEmpty && globGo p n.tail
    else n.head? == some c && globGo p n.tail

/-- Whether the pattern matches: `*` any run, `?` one byte. -/
def globMatch (pattern name : String) : Bool :=
  globGo pattern.toUTF8.data.toList name.toUTF8.data.toList

/-- What the single `*` of the pattern matched. -/
def globToken (pattern name : String) : Option String :=
  match pattern.toList.span (fun c => c ≠ '*') with
  | (_, []) => none
  | (pre, _ :: suf) =>
    if '*' ∈ suf ∨ '?' ∈ pre ∨ '?' ∈ suf then none
    else ((stripPrefix pre name.toList).bind (stripSuffix suf)).bind fun mid =>
      if mid = [] then none else some (String.ofList mid)

/-- The interface's peer token under the first glob that matches it. -/
def ifaceToken (iface : String) (globs : List String) : Option String :=
  (globs.find? (fun g => globMatch g iface)).bind (fun g => globToken g iface)

/-! ### The snapshot of BIRD -/

/-- The configuration of an agent, as far as discovery reads it. -/
structure AgentConfig where
  agent : String
  ospf_protocol : String
  ifaces : List String
  loopback_iface : String
  excludes : List String
deriving DecidableEq, Repr

/-- Collect pairs into a map: a later one replaces an earlier one. -/
def collect {ν : Type*} (l : List (String × ν)) : Map String ν :=
  l.foldl (fun m e => m.set e.1 e.2) ∅

/-- The mesh protocol's part of the snapshot. -/
def meshOspf (status : Json) (cfg : AgentConfig) : Option Json :=
  (status.index "ospf").as_array.bind fun a =>
    a.find? (fun o => (o.index "protocol").as_str = some cfg.ospf_protocol)

/-- The BGP peers: node name and router id. -/
def bgpPeers (status : Json) : List (String × Option String) :=
  (status.index "bgp").items.filterMap fun b =>
    (peerName b).map (fun host => (host, (b.index "neighbor_id").as_str))

def byLabel (status : Json) : Map String String :=
  collect ((bgpPeers status).map (fun p => (peerShortLabel p.1, p.1)))

def byRid (status : Json) : Map String String :=
  collect ((bgpPeers status).filterMap (fun p => p.2.map (fun rid => (rid, p.1))))

/-- The router ids of the neighbours in a protocol's part, per interface. -/
def ridRows (ospf : Json) : Map String String :=
  collect ((ospf.index "neighbors").items.filterMap fun n =>
    (n.index "interface").as_str.bind fun iface =>
      (n.index "rid").as_str.map (fun rid => (iface, rid)))

/-- Router id of the OSPF neighbour per interface of the mesh protocol. -/
def neighborRids (status : Json) (cfg : AgentConfig) : Map String String :=
  match meshOspf status cfg with
  | some ospf => ridRows ospf
  | none => ∅

/-- The peer by the router id of the neighbour on the interface. -/
def ridPeer (status : Json) (cfg : AgentConfig) (iface : String) : Option String :=
  ((neighborRids status cfg).get iface).bind (byRid status).get

/-- The peer by the name token of the interface. -/
def tokenPeer (status : Json) (cfg : AgentConfig) (iface : String) : Option String :=
  (ifaceToken iface cfg.ifaces).bind (byLabel status).get

/-- The peer of an interface: by router id, then as it was known, then by the name token. -/
def peerOf (status : Json) (cfg : AgentConfig) (known : Map String String) (iface : String) :
    Option String :=
  ((ridPeer status cfg iface).or (known.get iface)).or (tokenPeer status cfg iface)

/-- Whether a row names a managed point-to-point interface.  Without a type any is taken for one. -/
def managed (cfg : AgentConfig) (row : Json) : Option String :=
  (row.index "interface").as_str.bind fun iface =>
    if (row.index "type").as_str.any (fun t => t ≠ "ptp") then none
    else if !cfg.ifaces.any (fun g => globMatch g iface) then none
    else if iface ∈ cfg.excludes then none
    else some iface

/-- The managed interfaces, in the order of the snapshot. -/
def managedIfaces (status : Json) (cfg : AgentConfig) : List String :=
  match meshOspf status cfg with
  | some ospf => (ospf.index "interfaces").items.filterMap (managed cfg)
  | none => []

/-- Interfaces and the peers behind them; an interface without one is skipped. -/
def selectLinks (status : Json) (cfg : AgentConfig) (known : Map String String) :
    List (String × String) :=
  (managedIfaces status cfg).filterMap fun iface =>
    (peerOf status cfg known iface).map (fun host => (iface, host))

/-! ### Addresses -/

abbrev Ipv6Addr := BitVec 128

def isLinkLocal (a : Ipv6Addr) : Bool := (a >>> 112) &&& 0xffc0 == 0xfe80

def isGlobal (a : Ipv6Addr) : Bool := !isLinkLocal a

section Addresses

variable (parse : String → Option Ipv6Addr)

def ipv6Addresses (iface_status : Json) : List (Ipv6Addr × Option ℕ) :=
  (iface_status.index "ipv6-address").items.filterMap fun a =>
    ((a.index "address").as_str.bind parse).map (fun addr => (addr, (a.index "mask").as_u64))

/-- Source and target of a tunnel: our global /127 address, else any global one, and the other
    address of that /127. -/
def deriveAddress (iface_status : Json) : Option (Ipv6Addr × Ipv6Addr) :=
  (((ipv6Addresses parse iface_status).find? (fun e => e.2 = some 127 && isGlobal e.1)).or
    ((ipv6Addresses parse iface_status).find? (fun e => isGlobal e.1))).map
      (fun e => (e.1, e.1 ^^^ 1))

/-- The node's mesh loopback: the first global address on the loopback interface. -/
def loopbackAddress (iface_status : Json) : Option Ipv6Addr :=
  ((ipv6Addresses parse iface_status).map Prod.fst).find? isGlobal

/-- Link-local address of the OSPF neighbour per interface of the mesh protocol. -/
def neighborAddrs (status : Json) (cfg : AgentConfig) : Map String Ipv6Addr :=
  match meshOspf status cfg with
  | some ospf => collect ((ospf.index "neighbors").items.filterMap fun n =>
      (n.index "interface").as_str.bind fun iface =>
        ((n.index "ip").as_str.bind parse).bind fun ip =>
          if isLinkLocal ip then some (iface, ip) else none)
  | none => ∅

end Addresses

/-- Current OSPF cost per interface of the mesh protocol. -/
def interfaceCosts (status : Json) (cfg : AgentConfig) : Map String ℕ :=
  match meshOspf status cfg with
  | some ospf => collect ((ospf.index "interfaces").items.filterMap fun i =>
      (i.index "interface").as_str.bind fun iface =>
        (i.index "cost").as_u64.bind fun cost =>
          if cost < 2 ^ 32 then some (iface, cost) else none)
  | none => ∅

/-! ### Discovery -/

/-- A discovered link with its addresses. -/
structure DiscoveredLink extends Link where
  source : Ipv6Addr
  target : Ipv6Addr
  peer_ll : Option Ipv6Addr
  peer_rid : Option String
deriving DecidableEq, Repr

/-- What one snapshot yields. -/
structure Discovered where
  links : List DiscoveredLink
  router_id : Option String

/-- The node's bus: the answer of an object to a method. -/
abbrev Bus := String → String → Except String Json

/-- What a refresh keeps: the links, the mesh loopback and the node's own router id. -/
structure NodeView where
  links : List DiscoveredLink
  loopback : Option Ipv6Addr
  router_id : Option String
deriving DecidableEq, Repr

section Refresh

variable (parse : String → Option Ipv6Addr) (cfg : AgentConfig)

/-- The addresses of an interface, when its status call answers with a global one. -/
def tunnelAddress (bus : Bus) (iface : String) : Option (Ipv6Addr × Ipv6Addr) :=
  match bus ("network.interface." ++ iface) "status" with
  | .ok st => deriveAddress parse st
  | .error _ => none

/-- The link of a selected interface, when it has an address. -/
def linkOf (bus : Bus) (status : Json) (e : String × String) : Option DiscoveredLink :=
  (tunnelAddress parse bus e.1).map fun a =>
    { interface := e.1, «to» := e.2, source := a.1, target := a.2
      peer_ll := (neighborAddrs parse status cfg).get e.1
      cost := (interfaceCosts status cfg).get e.1
      peer_rid := (neighborRids status cfg).get e.1 }

/-- Discover the managed links.  Without a snapshot there are none. -/
def discover (bus : Bus) (known : Map String String) : Discovered :=
  match bus "bird" "status" with
  | .error _ => ⟨[], none⟩
  | .ok status =>
    { links := ((selectLinks status cfg known).filterMap (linkOf parse cfg bus status)).insertionSort
        (fun a b => a.interface ≤ b.interface)
      router_id := ((status.index "status").index "router_id").as_str.filter (fun s => s ≠ "") }

/-- The mesh loopback of this node, if its interface is up. -/
def meshLoopback (bus : Bus) : Option Ipv6Addr :=
  match bus ("network.interface." ++ cfg.loopback_iface) "status" with
  | .ok st => loopbackAddress parse st
  | .error _ => none

namespace NodeView

/-- Before the first refresh. -/
def init : NodeView := ⟨[], none, none⟩

/-- The peers the interfaces were resolved to. -/
def known (st : NodeView) : Map String String :=
  collect (st.links.map (fun l => (l.interface, l.to)))

/-- Re-discover the links and the mesh loopback. -/
def refresh (bus : Bus) (st : NodeView) : NodeView :=
  let found := discover parse cfg bus st.known
  ⟨found.links, meshLoopback parse cfg bus, found.router_id⟩

end NodeView

end Refresh

/-! ### Which links there are -/

section Collect

variable {ν : Type*} {l : List (String × ν)} {k : String} {v : ν}

theorem get_collect (l : List (String × ν)) (k : String) :
    (collect l).get k = (lastSuch (fun e => e.1 = k) l).map Prod.snd := by
  rw [collect, Map.get_foldl_set, Map.get_empty, Option.or_none]

theorem get_collect_eq_none_iff : (collect l).get k = none ↔ ∀ e ∈ l, e.1 ≠ k := by
  rw [get_collect, Option.map_eq_none_iff, lastSuch_eq_none_iff]
  simp

/-- Where all pairs of a key agree, their value is collected. -/
theorem get_collect_of_agree (hagree : ∀ e ∈ l, e.1 = k → e.2 = v) (h : ∃ e ∈ l, e.1 = k) :
    (collect l).get k = some v := by
  rw [get_collect]
  cases hlast : lastSuch (fun e => e.1 = k) l with
  | none =>
    obtain ⟨e, he, hk⟩ := h
    exact absurd (decide_eq_true hk) (lastSuch_eq_none_iff.mp hlast e he)
  | some e =>
    obtain ⟨he, hk⟩ := mem_of_lastSuch hlast
    rw [Option.map_some, hagree e he (of_decide_eq_true hk)]

end Collect

section Links

variable {parse : String → Option Ipv6Addr} {cfg : AgentConfig} {bus : Bus} {st : NodeView}
variable {status : Json} {iface host : String} {known : Map String String}

/-- An interface is selected with a peer when it is managed and that is its peer. -/
theorem mem_selectLinks : (iface, host) ∈ selectLinks status cfg known ↔
    iface ∈ managedIfaces status cfg ∧ peerOf status cfg known iface = some host := by
  unfold selectLinks
  rw [List.mem_filterMap]
  constructor
  · rintro ⟨i, hi, heq⟩
    obtain ⟨h, hpeer, hpair⟩ := Option.map_eq_some_iff.mp heq
    obtain ⟨rfl, rfl⟩ := Prod.mk.inj hpair
    exact ⟨hi, hpeer⟩
  · rintro ⟨hi, hpeer⟩
    exact ⟨iface, hi, by rw [hpeer, Option.map_some]⟩

/-- What a link is to, where there is one, after a refresh on a snapshot. -/
theorem mem_links_refresh (hbird : bus "bird" "status" = .ok status) :
    (∃ l ∈ (st.refresh parse cfg bus).links, l.interface = iface ∧ l.to = host) ↔
      iface ∈ managedIfaces status cfg ∧ peerOf status cfg st.known iface = some host ∧
        (tunnelAddress parse bus iface).isSome := by
  have hmem : ∀ l, l ∈ (st.refresh parse cfg bus).links ↔
      ∃ e ∈ selectLinks status cfg st.known, linkOf parse cfg bus status e = some l := by
    intro l
    simp only [NodeView.refresh, discover, hbird]
    rw [List.mem_insertionSort, List.mem_filterMap]
  constructor
  · rintro ⟨l, hl, rfl, rfl⟩
    obtain ⟨⟨i, h⟩, he, hlink⟩ := (hmem l).mp hl
    obtain ⟨a, ha, rfl⟩ := Option.map_eq_some_iff.mp hlink
    obtain ⟨hmanaged, hpeer⟩ := mem_selectLinks.mp he
    exact ⟨hmanaged, hpeer, by rw [ha]; rfl⟩
  · rintro ⟨hmanaged, hpeer, haddr⟩
    obtain ⟨a, ha⟩ := Option.isSome_iff_exists.mp haddr
    have hlink : ∃ l, linkOf parse cfg bus status (iface, host) = some l ∧
        l.interface = iface ∧ l.to = host := by
      unfold linkOf
      rw [ha]
      exact ⟨_, rfl, rfl, rfl⟩
    obtain ⟨l, hl, hi, ht⟩ := hlink
    exact ⟨l, (hmem l).mpr ⟨_, mem_selectLinks.mpr ⟨hmanaged, hpeer⟩, hl⟩, hi, ht⟩

/-- Without a snapshot there is no link. -/
theorem links_refresh_of_error {e : String} (hbird : bus "bird" "status" = .error e) :
    (st.refresh parse cfg bus).links = [] := by
  simp only [NodeView.refresh, discover, hbird]

/-- What is remembered of an interface after a refresh on a snapshot: what it was resolved to, if
    it is a link. -/
theorem known_refresh (hbird : bus "bird" "status" = .ok status)
    (hmanaged : iface ∈ managedIfaces status cfg) :
    (st.refresh parse cfg bus).known.get iface =
      if (tunnelAddress parse bus iface).isSome then peerOf status cfg st.known iface else none := by
  have hlinks : ∀ e ∈ (st.refresh parse cfg bus).links.map (fun l => (l.interface, l.to)),
      e.1 = iface → peerOf status cfg st.known iface = some e.2 ∧
        (tunnelAddress parse bus iface).isSome := by
    rintro e he rfl
    obtain ⟨l, hl, rfl⟩ := List.mem_map.mp he
    exact ((mem_links_refresh hbird).mp ⟨l, hl, rfl, rfl⟩).2
  have hnone : (∀ e ∈ (st.refresh parse cfg bus).links.map (fun l => (l.interface, l.to)),
      e.1 ≠ iface) → (st.refresh parse cfg bus).known.get iface = none :=
    get_collect_eq_none_iff.mpr
  split
  · rename_i haddr
    cases hpeer : peerOf status cfg st.known iface with
    | none =>
      refine hnone fun e he heq => ?_
      exact absurd ((hlinks e he heq).1.symm.trans hpeer) (by simp)
    | some host =>
      obtain ⟨l, hl, hi, -⟩ := (mem_links_refresh hbird).mpr ⟨hmanaged, hpeer, haddr⟩
      refine get_collect_of_agree (fun e he heq => ?_) ⟨_, List.mem_map_of_mem hl, hi⟩
      exact Option.some.inj ((hlinks e he heq).1.symm.trans hpeer)
  · rename_i haddr
    exact hnone fun e he heq => haddr (hlinks e he heq).2

theorem known_refresh_of_error {e : String} (hbird : bus "bird" "status" = .error e) :
    (st.refresh parse cfg bus).known.get iface = none := by
  rw [NodeView.known, links_refresh_of_error hbird]
  exact Map.get_empty iface

end Links

end Mielofon
