import Mathlib.Data.String.Basic

namespace Mielofon

/-!
# Wire types

What crosses the boundary between agent and controller (`mielofon-proto`).  Measured values
are of an arbitrary type `F`: the code's `f64` without its NaN, which no message can carry.

* `LinkKey` — a directed link, and `LinkKey.id`, the string every per-link table is keyed by;
* `WorkCmd` — a command the controller opens a stream for;
* `RegisterReq` — the hello of an agent's session, repeated when its links change;
* `AgentReply` — the answer to a command, with the finished `MarkBlock`s.
-/

/-- Identifies a directed link: `from`'s tunnel `interface` towards `to`. -/
structure LinkKey where
  «from» : String
  «to» : String
  interface : String
deriving DecidableEq, Repr

/-- Compact stable identifier used as map keys and command ids. -/
def LinkKey.id (l : LinkKey) : String := l.from ++ "/" ++ l.to ++ "/" ++ l.interface

/-- Probe state reported by the agent alongside measurements. -/
inductive ProbeState where
  | quiet
  | busy
  | conflict
deriving DecidableEq, Repr

/-- Probe tier. -/
inductive Tier where
  | always
  | throughput
deriving DecidableEq, Repr

/-- A command the controller dispatches to an agent. -/
inductive WorkCmd where
  | probe (id : String) (tier : Tier) (token : Option String) (link : LinkKey)
      (traceparent : Option String)
  | applyCost (id : String) (link : LinkKey) (cost : ℕ) (traceparent : Option String)
  | trace (id : String) (target : String) (traceparent : Option String)
deriving DecidableEq, Repr

/-- The agent's identity and managed links.  `peer_rids` names, per interface, the router id
    of the neighbour the link's peer was resolved from. -/
structure RegisterReq where
  agent : String
  router_id : Option String
  links : List LinkKey
  peer_rids : List (String × String)
  loopback : Option String
deriving DecidableEq, Repr

/-- Answer to `register`. -/
structure RegisterResp where
  ok : Bool
  error : Option String
deriving DecidableEq, Repr

/-- One finished alternate-marking block of a link, as counted on the reporting node. -/
structure MarkBlock where
  n : ℕ
  secs : ℕ
  tx_pkts_s : ℕ
  tx_pkts_l : ℕ
  tx_bytes : ℕ
  rx_pkts_s : ℕ
  rx_pkts_l : ℕ
  rx_bytes : ℕ
  reset : Bool
  under_test : Bool
deriving DecidableEq, Repr

/-- The fields of a probe reply: the measured dimensions, the probe state, the lease token
    echoed from a throughput command, and the blocks finished since the previous reply. -/
structure ProbeReply (F : Type*) where
  agent : String
  id : String
  link : LinkKey
  ts : Option ℕ
  rtt_ms : Option F
  loss_pct : Option F
  jitter_ms : Option F
  tcp_mbps : Option F
  udp_mbps : Option F
  udp_jitter_ms : Option F
  udp_loss_pct : Option F
  util_mbps : F
  state : ProbeState
  token : Option String
  note : Option String
  traceparent : Option String
  blocks : List MarkBlock
deriving DecidableEq, Repr

/-- The answer to a dispatched command, written on the command's own stream.  The routes of a
    trace reply are read by the trace walker alone and are left out. -/
inductive AgentReply (F : Type*) where
  | probe (r : ProbeReply F)
  | applied (agent : String) (id : String) (link : LinkKey) (cost : ℕ) (note : Option String)
      (traceparent : Option String)
  | trace (agent : String) (id : String)
deriving DecidableEq, Repr

/-! ### Ids of the links of one agent -/

/-- Two links that differ in their far end alone share an id only if they are equal. -/
theorem LinkKey.to_eq_of_id_eq {l : LinkKey} {a b : String}
    (h : ({ l with «to» := a } : LinkKey).id = ({ l with «to» := b } : LinkKey).id) : a = b := by
  simpa [LinkKey.id] using h

end Mielofon
