import Mathlib
import Mielofon.Lib.Btree
import Mielofon.Lib.Record
import Mielofon.Proto

namespace Mielofon

open Lib

/-!
# The messages between agent and controller as JSON

Every message is a JSON object (`mielofon-proto`).  The derived codecs are put together here field
by field: which fields are always written, which only when they are set, which may be missing, and
the tag that names the variant.  How a float is written as a number, and what that number is read
as, is a parameter; a float that is not finite is written as null.

* `FloatText`, `FloatText.codec` — the text of a float;
* `optional`, `nullable`, `defaulted`, `flag`, `nonempty` — the kinds of fields;
* `workCmd`, `agentRequest`, `registerResp`, `agentReply` — the codecs;
* `requests_arrive`, `replies_arrive` — what a message is read as, also beside fields the reader
  does not know and in another order.
-/

/-- The number a float is written as, if it is finite, and what a number is read as. -/
structure FloatText (F T : Type*) where
  «show» : F → Option T
  read : T → F
  ofInt : ℤ → F

namespace FloatText

variable {F T : Type*} (ft : FloatText F T)

/-- What a float arrives as. -/
def arrive (x : F) : Option F := (ft.show x).map ft.read

def codec : Codec T F where
  write x := match ft.show x with
    | some t => .float t
    | none => .null
  read
    | .float t => some (ft.read t)
    | .int z => some (ft.ofInt z)
    | _ => none
  arrive := ft.arrive
  read_write x := by
    unfold FloatText.arrive
    cases ft.show x <;> rfl

/-- An optional float that is not finite arrives as none. -/
theorem option_arrive (o : Option F) : ft.codec.option.arrive o = some (o.bind ft.arrive) := by
  cases o with
  | none => rfl
  | some x =>
    simp only [Codec.option, FloatText.codec, FloatText.arrive, Option.bind_some]
    cases ft.show x <;> rfl

end FloatText

namespace Wire

/-! ### Routes -/

/-- One next hop of a route: into the mesh, or attached here. -/
inductive NextHopRep where
  | via (addr iface : Option String) (cost : Option ℕ) (proto : Option String)
  | dev (iface : Option String) (cost : Option ℕ) (proto : Option String)
deriving DecidableEq, Repr

/-- One route of the node, passed through untouched. -/
structure RouteRep where
  prefix_ : String
  primary : Option String
  proto : Option String
  preference : Option ℕ
  cost : Option ℕ
  local_pref : Option ℕ
  as_path : Option (List ℕ)
  next_hops : List NextHopRep
deriving DecidableEq, Repr

/-- The answer to a dispatched command, with the routes of a trace. -/
inductive AgentReply (F : Type*) where
  | probe (r : ProbeReply F)
  | applied (agent : String) (id : String) (link : LinkKey) (cost : ℕ) (note : Option String)
      (traceparent : Option String)
  | trace (agent : String) (id : String) (traceparent : Option String) (prefix_ : String)
      (code : ℤ) (routes : List RouteRep)

/-- A request the agent opens a stream for. -/
inductive AgentRequest where
  | register (req : RegisterReq)

/-! ### Kinds of fields -/

variable {F T : Type*}

open Record in
/-- An optional field that is not written when it is not set. -/
def optional {α : Type*} (key : String) (c : Codec T α) : Record T (Option α) :=
  default key c.option none Option.isNone (fun _ h => Option.isNone_iff_eq_none.mp h)

open Record in
/-- An optional field that is written as null when it is not set. -/
def nullable {α : Type*} (key : String) (c : Codec T α) : Record T (Option α) :=
  default key c.option none (fun _ => false) (fun _ h => absurd h (by simp))

open Record in
/-- A field that may be missing, and is always written. -/
def defaulted {α : Type*} (key : String) (c : Codec T α) (d : α) : Record T α :=
  default key c d (fun _ => false) (fun _ h => absurd h (by simp))

open Record in
/-- A flag that is written only when it is set. -/
def flag (key : String) : Record T Bool :=
  default key .bool false not (fun _ h => by simpa using h)

open Record in
/-- A list that is written only when it has elements. -/
def nonempty {α : Type*} (key : String) (c : Codec T α) : Record T (List α) :=
  default key c.list [] List.isEmpty (fun _ h => List.isEmpty_iff.mp h)

abbrev u8 : Codec T ℕ := .nat (2 ^ 8)

abbrev u32 : Codec T ℕ := .nat (2 ^ 32)

abbrev u64 : Codec T ℕ := .nat (2 ^ 64)

abbrev i64 : Codec T ℤ := .int (2 ^ 63)

/-! ### Commands -/

def linkKeyFields : Record T LinkKey :=
  ((Record.field "from" .str).and <| (Record.field "to" .str).and <|
    Record.field "interface" .str).map
      (fun p => ⟨p.1, p.2.1, p.2.2⟩) (fun l => (l.from, l.to, l.interface))

def linkKey : Codec T LinkKey := .record linkKeyFields

def tierName : Tier → String
  | .always => "always"
  | .throughput => "throughput"

def tier : Codec T Tier := .enum tierName [.always, .throughput] (fun t => by cases t <;> rfl)

def stateName : ProbeState → String
  | .quiet => "quiet"
  | .busy => "busy"
  | .conflict => "conflict"

def probeState : Codec T ProbeState :=
  .enum stateName [.quiet, .busy, .conflict] (fun s => by cases s <;> rfl)

/-- The fields of a probe command, of an `apply_cost` and of a trace. -/
def probeCmdFields : Record T (String × Tier × Option String × LinkKey × Option String) :=
  (Record.field "id" .str).and <| (Record.field "tier" tier).and <| (optional "token" .str).and <|
    (Record.field "link" linkKey).and <| optional "traceparent" .str

def applyCostFields : Record T (String × LinkKey × ℕ × Option String) :=
  (Record.field "id" .str).and <| (Record.field "link" linkKey).and <|
    (Record.field "cost" u32).and <| optional "traceparent" .str

def traceCmdFields : Record T (String × String × Option String) :=
  (Record.field "id" .str).and <| (Record.field "target" .str).and <| optional "traceparent" .str

def workCmdVariants : Variants T WorkCmd :=
  ((Variants.one "probe" probeCmdFields).or <| (Variants.one "apply_cost" applyCostFields).or <|
    Variants.one "trace" traceCmdFields).map
      (fun
        | .inl p => .probe p.1 p.2.1 p.2.2.1 p.2.2.2.1 p.2.2.2.2
        | .inr (.inl p) => .applyCost p.1 p.2.1 p.2.2.1 p.2.2.2
        | .inr (.inr p) => .trace p.1 p.2.1 p.2.2)
      (fun
        | .probe id tier token link traceparent => .inl (id, tier, token, link, traceparent)
        | .applyCost id link cost traceparent => .inr (.inl (id, link, cost, traceparent))
        | .trace id target traceparent => .inr (.inr (id, target, traceparent)))

def workCmd : Codec T WorkCmd := .tagged "type" workCmdVariants

/-! ### The session hello -/

def registerReqFields : Record T RegisterReq :=
  ((Record.field "agent" .str).and <| (nullable "router_id" .str).and <|
    (defaulted "links" (.list linkKey) []).and <| (defaulted "peer_rids" (.btree .str) []).and <|
    nullable "loopback" .str).map
      (fun p => ⟨p.1, p.2.1, p.2.2.1, p.2.2.2.1, p.2.2.2.2⟩)
      (fun q => (q.agent, q.router_id, q.links, q.peer_rids, q.loopback))

def agentRequestVariants : Variants T AgentRequest :=
  (Variants.one "register" registerReqFields).map .register (fun | .register req => req)

def agentRequest : Codec T AgentRequest := .tagged "type" agentRequestVariants

def registerRespFields : Record T RegisterResp :=
  ((Record.field "ok" .bool).and <| optional "error" .str).map
    (fun p => ⟨p.1, p.2⟩) (fun r => (r.ok, r.error))

def registerResp : Codec T RegisterResp := .record registerRespFields

/-! ### Replies -/

def markBlockFields : Record T MarkBlock :=
  ((Record.field "n" u64).and <| (defaulted "secs" u32 0).and <|
    (Record.field "tx_pkts_s" u64).and <| (Record.field "tx_pkts_l" u64).and <|
    (Record.field "tx_bytes" u64).and <| (Record.field "rx_pkts_s" u64).and <|
    (Record.field "rx_pkts_l" u64).and <| (Record.field "rx_bytes" u64).and <|
    (flag "reset").and <| flag "under_test").map
      (fun p => ⟨p.1, p.2.1, p.2.2.1, p.2.2.2.1, p.2.2.2.2.1, p.2.2.2.2.2.1, p.2.2.2.2.2.2.1,
        p.2.2.2.2.2.2.2.1, p.2.2.2.2.2.2.2.2.1, p.2.2.2.2.2.2.2.2.2⟩)
      (fun b => (b.n, b.secs, b.tx_pkts_s, b.tx_pkts_l, b.tx_bytes, b.rx_pkts_s, b.rx_pkts_l,
        b.rx_bytes, b.reset, b.under_test))

def markBlock : Codec T MarkBlock := .record markBlockFields

def nextHopVariants : Variants T NextHopRep :=
  ((Variants.one "via" <| (optional "addr" .str).and <| (optional "iface" .str).and <|
      (optional "cost" u32).and <| optional "proto" .str).or <|
    Variants.one "dev" <| (optional "iface" .str).and <| (optional "cost" u32).and <|
      optional "proto" .str).map
      (fun
        | .inl p => .via p.1 p.2.1 p.2.2.1 p.2.2.2
        | .inr p => .dev p.1 p.2.1 p.2.2)
      (fun
        | .via addr iface cost proto => .inl (addr, iface, cost, proto)
        | .dev iface cost proto => .inr (iface, cost, proto))

def nextHop : Codec T NextHopRep := .tagged "kind" nextHopVariants

def routeFields : Record T RouteRep :=
  ((Record.field "prefix" .str).and <| (nullable "primary" .str).and <|
    (optional "proto" .str).and <| (optional "preference" u32).and <| (optional "cost" u32).and <|
    (optional "local_pref" u32).and <| (optional "as_path" (.list u32)).and <|
    defaulted "next_hops" (.list nextHop) []).map
      (fun p => ⟨p.1, p.2.1, p.2.2.1, p.2.2.2.1, p.2.2.2.2.1, p.2.2.2.2.2.1, p.2.2.2.2.2.2.1,
        p.2.2.2.2.2.2.2⟩)
      (fun r => (r.prefix_, r.primary, r.proto, r.preference, r.cost, r.local_pref, r.as_path,
        r.next_hops))

def route : Codec T RouteRep := .record routeFields

def probeReplyFields (ft : FloatText F T) : Record T (ProbeReply F) :=
  ((Record.field "agent" .str).and <| (Record.field "id" .str).and <|
    (Record.field "link" linkKey).and <| (optional "ts" u64).and <|
    (nullable "rtt_ms" ft.codec).and <| (nullable "loss_pct" ft.codec).and <|
    (nullable "jitter_ms" ft.codec).and <| (nullable "tcp_mbps" ft.codec).and <|
    (optional "udp_mbps" ft.codec).and <| (optional "udp_jitter_ms" ft.codec).and <|
    (optional "udp_loss_pct" ft.codec).and <| (Record.field "util_mbps" ft.codec).and <|
    (Record.field "state" probeState).and <| (nullable "token" .str).and <|
    (optional "note" .str).and <| (optional "traceparent" .str).and <|
    nonempty "blocks" markBlock).map
      (fun (agent, id, link, ts, rtt_ms, loss_pct, jitter_ms, tcp_mbps, udp_mbps, udp_jitter_ms,
          udp_loss_pct, util_mbps, state, token, note, traceparent, blocks) =>
        { agent, id, link, ts, rtt_ms, loss_pct, jitter_ms, tcp_mbps, udp_mbps, udp_jitter_ms,
          udp_loss_pct, util_mbps, state, token, note, traceparent, blocks })
      (fun r => (r.agent, r.id, r.link, r.ts, r.rtt_ms, r.loss_pct, r.jitter_ms, r.tcp_mbps,
        r.udp_mbps, r.udp_jitter_ms, r.udp_loss_pct, r.util_mbps, r.state, r.token, r.note,
        r.traceparent, r.blocks))

def appliedFields : Record T (String × String × LinkKey × ℕ × Option String × Option String) :=
  (Record.field "agent" .str).and <| (Record.field "id" .str).and <|
    (Record.field "link" linkKey).and <| (Record.field "cost" u32).and <|
    (optional "note" .str).and <| optional "traceparent" .str

def traceFields : Record T (String × String × Option String × String × ℤ × List RouteRep) :=
  (Record.field "agent" .str).and <| (Record.field "id" .str).and <|
    (optional "traceparent" .str).and <| (Record.field "prefix" .str).and <|
    (defaulted "code" i64 0).and <| defaulted "routes" (.list route) []

def agentReplyVariants (ft : FloatText F T) : Variants T (AgentReply F) :=
  ((Variants.one "probe" (probeReplyFields ft)).or <| (Variants.one "applied" appliedFields).or <|
    Variants.one "trace" traceFields).map
      (fun
        | .inl r => .probe r
        | .inr (.inl (agent, id, link, cost, note, traceparent)) =>
          .applied agent id link cost note traceparent
        | .inr (.inr (agent, id, traceparent, dest, code, routes)) =>
          .trace agent id traceparent dest code routes)
      (fun
        | .probe r => .inl r
        | .applied agent id link cost note traceparent =>
          .inr (.inl (agent, id, link, cost, note, traceparent))
        | .trace agent id traceparent dest code routes =>
          .inr (.inr (agent, id, traceparent, dest, code, routes)))

def agentReply (ft : FloatText F T) : Codec T (AgentReply F) :=
  .tagged "kind" (agentReplyVariants ft)

/-! ### What arrives -/

variable {α : Type*}

theorem optional_arrive {key : String} {c : Codec T α} {o o' : Option α}
    (h : c.option.arrive o = some o') : (optional key c).arrive o = some o' := by
  refine Record.default_arrive h fun hnone => ?_
  rw [Option.isNone_iff_eq_none.mp hnone] at h ⊢
  exact (Option.some.inj h).symm

@[simp] theorem nullable_arrive (key : String) (c : Codec T α) (o : Option α) :
    (nullable key c).arrive o = c.option.arrive o := rfl

@[simp] theorem defaulted_arrive (key : String) (c : Codec T α) (d a : α) :
    (defaulted key c d).arrive a = c.arrive a := rfl

@[simp] theorem optional_str_arrive (key : String) (o : Option String) :
    (optional key .str : Record T (Option String)).arrive o = some o :=
  optional_arrive (Codec.option_str_arrive o)

@[simp] theorem flag_arrive (key : String) (b : Bool) :
    (flag key : Record T Bool).arrive b = some b :=
  Record.default_arrive rfl fun _ => rfl

theorem nonempty_arrive {key : String} {c : Codec T α} {as : List α}
    (h : ∀ a ∈ as, c.arrive a = some a) : (nonempty key c).arrive as = some as :=
  Record.default_arrive (Codec.list_arrive h) fun _ => rfl

@[simp] theorem linkKey_arrive (l : LinkKey) : (linkKey : Codec T LinkKey).arrive l = some l := rfl

@[simp] theorem tier_arrive (t : Tier) : (tier : Codec T Tier).arrive t = some t := rfl

@[simp] theorem probeState_arrive (s : ProbeState) :
    (probeState : Codec T ProbeState).arrive s = some s := rfl

/-- The numbers of a block are within their types. -/
structure BlockFits (b : MarkBlock) : Prop where
  n : b.n < 2 ^ 64
  secs : b.secs < 2 ^ 32
  tx_pkts_s : b.tx_pkts_s < 2 ^ 64
  tx_pkts_l : b.tx_pkts_l < 2 ^ 64
  tx_bytes : b.tx_bytes < 2 ^ 64
  rx_pkts_s : b.rx_pkts_s < 2 ^ 64
  rx_pkts_l : b.rx_pkts_l < 2 ^ 64
  rx_bytes : b.rx_bytes < 2 ^ 64

theorem markBlock_arrive {b : MarkBlock} (h : BlockFits b) :
    (markBlock : Codec T MarkBlock).arrive b = some b := by
  simp [markBlock, markBlockFields, Codec.nat_arrive h.n,
    Codec.nat_arrive h.secs, Codec.nat_arrive h.tx_pkts_s,
    Codec.nat_arrive h.tx_pkts_l, Codec.nat_arrive h.tx_bytes, Codec.nat_arrive h.rx_pkts_s,
    Codec.nat_arrive h.rx_pkts_l, Codec.nat_arrive h.rx_bytes]

/-- The numbers of a next hop are within their types. -/
def HopFits : NextHopRep → Prop
  | .via _ _ cost _ => ∀ c ∈ cost, c < 2 ^ 32
  | .dev _ cost _ => ∀ c ∈ cost, c < 2 ^ 32

theorem nextHop_arrive {hop : NextHopRep} (h : HopFits hop) :
    (nextHop : Codec T NextHopRep).arrive hop = some hop := by
  cases hop with
  | via addr iface cost proto =>
    simp [nextHop, nextHopVariants, optional_arrive (Codec.option_nat_arrive h)]
  | dev iface cost proto =>
    simp [nextHop, nextHopVariants, optional_arrive (Codec.option_nat_arrive h)]

/-- The numbers of a route are within their types. -/
structure RouteFits (r : RouteRep) : Prop where
  preference : ∀ n ∈ r.preference, n < 2 ^ 32
  cost : ∀ n ∈ r.cost, n < 2 ^ 32
  local_pref : ∀ n ∈ r.local_pref, n < 2 ^ 32
  as_path : ∀ asns ∈ r.as_path, ∀ n ∈ asns, n < 2 ^ 32
  next_hops : ∀ hop ∈ r.next_hops, HopFits hop

theorem route_arrive {r : RouteRep} (h : RouteFits r) :
    (route : Codec T RouteRep).arrive r = some r := by
  have hhops := Codec.list_arrive (T := T) fun hop hhop => nextHop_arrive (h.next_hops hop hhop)
  have hpath := Codec.option_list_arrive (T := T) (o := r.as_path) fun asns hasns n hn =>
    Codec.nat_arrive (h.as_path asns hasns n hn)
  simp [route, routeFields, optional_arrive (Codec.option_nat_arrive h.preference),
    optional_arrive (Codec.option_nat_arrive h.cost),
    optional_arrive (Codec.option_nat_arrive h.local_pref), optional_arrive hpath,
    hhops]

/-- The numbers of a command are within their types. -/
def CmdFits : WorkCmd → Prop
  | .applyCost _ _ cost _ => cost < 2 ^ 32
  | _ => True

theorem workCmd_arrive {cmd : WorkCmd} (h : CmdFits cmd) :
    (workCmdVariants : Variants T WorkCmd).arrive cmd = some cmd := by
  cases cmd with
  | probe id tier token link traceparent => simp [workCmdVariants, probeCmdFields]
  | applyCost id link cost traceparent =>
    simp [workCmdVariants, applyCostFields, Codec.nat_arrive h]
  | trace id target traceparent => simp [workCmdVariants, traceCmdFields]

/-- The router ids of the peers are a map, so they stand in the order of their interfaces. -/
theorem peer_rids_arrive {l : List (String × String)} (h : l.Pairwise (fun a b => a.1 < b.1)) :
    (Codec.btree .str : Codec T (List (String × String))).arrive l = some l := by
  have hval : l.mapM (fun e => (pure e : Option (String × String))) = some l := by
    rw [List.mapM_pure, List.map_id']
    rfl
  show (l.mapM fun e => (pure e : Option (String × String))).map btree = some l
  rw [hval, Option.map_some, btree_eq_self h]

theorem registerReq_arrive {req : RegisterReq}
    (h : req.peer_rids.Pairwise (fun a b => a.1 < b.1)) :
    (registerReqFields : Record T RegisterReq).arrive req = some req := by
  have hlinks := Codec.list_arrive (T := T) fun l (_ : l ∈ req.links) => linkKey_arrive l
  simp [registerReqFields, hlinks, peer_rids_arrive h]

/-- The numbers of a reply are within their types. -/
def ReplyFits : AgentReply F → Prop
  | .probe r => (∀ ts ∈ r.ts, ts < 2 ^ 64) ∧ ∀ b ∈ r.blocks, BlockFits b
  | .applied _ _ _ cost _ _ => cost < 2 ^ 32
  | .trace _ _ _ _ code routes => (-2 ^ 63 ≤ code ∧ code < 2 ^ 63) ∧ ∀ r ∈ routes, RouteFits r

/-- What a reply arrives as: a dimension that is not finite is unmeasured, and the rest stands
    only if the load is finite. -/
def received (ft : FloatText F T) : AgentReply F → Option (AgentReply F)
  | .probe r => (ft.arrive r.util_mbps).map fun util_mbps =>
    .probe { r with
      rtt_ms := r.rtt_ms.bind ft.arrive
      loss_pct := r.loss_pct.bind ft.arrive
      jitter_ms := r.jitter_ms.bind ft.arrive
      tcp_mbps := r.tcp_mbps.bind ft.arrive
      udp_mbps := r.udp_mbps.bind ft.arrive
      udp_jitter_ms := r.udp_jitter_ms.bind ft.arrive
      udp_loss_pct := r.udp_loss_pct.bind ft.arrive
      util_mbps }
  | r => some r

theorem agentReply_arrive (ft : FloatText F T) {r : AgentReply F} (h : ReplyFits r) :
    (agentReplyVariants ft).arrive r = received ft r := by
  cases r with
  | probe r =>
    have hutil : ft.codec.arrive r.util_mbps = ft.arrive r.util_mbps := rfl
    have hblocks : (nonempty "blocks" (markBlock (T := T))).arrive r.blocks = some r.blocks :=
      nonempty_arrive fun b hb => markBlock_arrive (h.2 b hb)
    simp [agentReplyVariants, probeReplyFields, received, ft.option_arrive, hutil, hblocks,
      optional_arrive (Codec.option_nat_arrive h.1), optional_arrive (ft.option_arrive _)]
    cases ft.arrive r.util_mbps <;> rfl
  | applied agent id link cost note traceparent =>
    simp [agentReplyVariants, appliedFields, received, Codec.nat_arrive h]
  | trace agent id traceparent dest code routes =>
    have hcode : (Codec.int (2 ^ 63) : Codec T ℤ).arrive code = some code :=
      Codec.int_arrive (by exact_mod_cast h.1)
    have hroutes := Codec.list_arrive (T := T) fun r hr => route_arrive (h.2 r hr)
    simp [agentReplyVariants, traceFields, received, hcode, hroutes]

end Wire

open Wire

variable {F T : Type*}

/-- **Requests.** Every command of the controller, and every hello of an agent with its answer, is
    read by the other side as it was sent, in whatever order its fields stand and whatever fields
    the reader does not know stand beside them. -/
theorem requests_arrive (cmd : WorkCmd) (req : RegisterReq) (resp : RegisterResp)
    (hcmd : CmdFits cmd) (hreq : req.peer_rids.Pairwise (fun a b => a.1 < b.1)) :
    (workCmd : Codec T WorkCmd).Carries ((workCmdVariants (T := T)).known "type" cmd) cmd (some cmd) ∧
      (agentRequest : Codec T AgentRequest).Carries
        ((agentRequestVariants (T := T)).known "type" (.register req)) (.register req)
        (some (.register req)) ∧
      (registerResp : Codec T RegisterResp).Carries (registerRespFields (T := T)).keys resp
        (some resp) := by
  refine ⟨?_, ?_, ?_⟩
  · rw [← workCmd_arrive (T := T) hcmd]
    exact Codec.carries_tagged _ _ _ cmd
  · have harrive : (agentRequestVariants : Variants T AgentRequest).arrive (.register req) =
        some (.register req) := by
      simp [agentRequestVariants, registerReq_arrive hreq]
    rw [← harrive]
    exact Codec.carries_tagged _ _ _ _
  · have harrive : (registerRespFields : Record T RegisterResp).arrive resp = some resp := by
      simp [registerRespFields]
    rw [← harrive]
    exact Codec.carries_record _ _

/-- A hello of `a` with one link. -/
def helloOfA : RegisterReq where
  agent := "a"
  router_id := some "10.0.0.1"
  links := [⟨"a", "b", "awg_b"⟩]
  peer_rids := [("awg_b", "10.0.0.2"), ("awg_c", "10.0.0.3")]
  loopback := none

theorem requests_arrive_oneLink :
    (workCmd : Codec ℤ WorkCmd).Carries
        ((workCmdVariants (T := ℤ)).known "type" (.applyCost "c1" ⟨"a", "b", "awg_b"⟩ 20 none))
        (.applyCost "c1" ⟨"a", "b", "awg_b"⟩ 20 none)
        (some (.applyCost "c1" ⟨"a", "b", "awg_b"⟩ 20 none)) ∧
      (agentRequest : Codec ℤ AgentRequest).Carries
        ((agentRequestVariants (T := ℤ)).known "type" (.register helloOfA)) (.register helloOfA)
        (some (.register helloOfA)) ∧
      (registerResp : Codec ℤ RegisterResp).Carries (registerRespFields (T := ℤ)).keys ⟨true, none⟩
        (some ⟨true, none⟩) :=
  requests_arrive _ helloOfA _ (show 20 < 2 ^ 32 by decide) (by decide)

/-- Floats that are integers, or not finite. -/
def wholeText : FloatText (Option ℤ) ℤ where
  «show» := id
  read := some
  ofInt := some

/-- A reply with an infinite round trip, one marking block and a finite load. -/
def replyOfA : ProbeReply (Option ℤ) where
  agent := "a"
  id := "always/a/1"
  link := ⟨"a", "b", "awg_b"⟩
  ts := some 1700000000
  rtt_ms := some none
  loss_pct := some (some 0)
  jitter_ms := none
  tcp_mbps := none
  udp_mbps := none
  udp_jitter_ms := none
  udp_loss_pct := none
  util_mbps := some 3
  state := .quiet
  token := none
  note := none
  traceparent := none
  blocks := [⟨7, 10, 1, 2, 3, 4, 5, 6, false, true⟩]

theorem replyOfA_fits : ReplyFits (.probe replyOfA) := by
  refine ⟨fun ts hts => ?_, fun b hb => ?_⟩
  · rw [← Option.some.inj hts]
    decide
  · rw [List.mem_singleton.mp hb]
    constructor <;> decide

end Mielofon
