import Mathlib
import Mielofon.Gossip.Cluster
import Mielofon.Tsdb.Sample
import Mielofon.Wire

namespace Mielofon

open Lib

/-!
# The messages between members as JSON

A push carries the sender's records, its fresh samples and its node directory; the answer carries
the responder's records and directory (`gossip.rs`).  Records hold `f64` and samples `f32`, so their
floats are of two types.  A float that is not finite is written as null: a dimension is lost, a load
is not, and one entry that cannot be read makes the whole message unreadable.

* `ExchangeReq`, `ExchangeResp`, `MemberRequest`, `MemberReply` — the messages;
* `recordReceived`, `sampleReceived` — what an entry is read as, if its load is finite;
* `pushes_arrive` — what a push and its answer are read as.
-/

/-- The sender's full view and its fresh samples. -/
structure ExchangeReq (F G : Type*) where
  node : String
  records : List (LinkKey × QualityRecord F)
  ts_samples : List (LinkKey × RawSample G)
  nodes : List (String × NodeEntry)

/-- The responder's view. -/
structure ExchangeResp (F : Type*) where
  node : String
  records : List (LinkKey × QualityRecord F)
  nodes : List (String × NodeEntry)

/-- A request a member opens on a cluster session. -/
inductive MemberRequest (F G : Type*) where
  | exchange (req : ExchangeReq F G)

/-- The answer to a request, on the same stream. -/
inductive MemberReply (F : Type*) where
  | exchange (resp : ExchangeResp F)

namespace Wire

variable {F G T : Type*}

/-! ### Entries -/

def qualityName : Quality → String
  | .good => "good"
  | .acceptable => "acceptable"
  | .poor => "poor"
  | .bad => "bad"

def quality : Codec T Quality :=
  .enum qualityName [.good, .acceptable, .poor, .bad] (fun q => by cases q <;> rfl)

def regimeName : Regime → String
  | .clean => "clean"
  | .sparse => "sparse"
  | .bursty => "bursty"
  | .size_selective => "size_selective"
  | .under_test => "under_test"

def regime : Codec T Regime :=
  .enum regimeName [.clean, .sparse, .bursty, .size_selective, .under_test]
    (fun r => by cases r <;> rfl)

def recordFields (ft : FloatText F T) : Record T (QualityRecord F) :=
  ((Record.field "ts" u64).and <| (nullable "rtt_ms" ft.codec).and <|
    (nullable "loss_pct" ft.codec).and <| (nullable "jitter_ms" ft.codec).and <|
    (nullable "tcp_mbps" ft.codec).and <| (nullable "udp_mbps" ft.codec).and <|
    (optional "udp_jitter_ms" ft.codec).and <| (optional "udp_loss_pct" ft.codec).and <|
    (Record.field "util_mbps" ft.codec).and <| (Record.field "state" probeState).and <|
    (optional "quality" quality).and <| (optional "ospf_cost" u32).and <|
    (optional "mark_loss_pct" ft.codec).and <| (optional "mark_rate_mbps" ft.codec).and <|
    (optional "implied_tcp_mbps" ft.codec).and <| optional "regime" regime).map
      (fun (ts, rtt_ms, loss_pct, jitter_ms, tcp_mbps, udp_mbps, udp_jitter_ms, udp_loss_pct,
          util_mbps, state, quality, ospf_cost, mark_loss_pct, mark_rate_mbps, implied_tcp_mbps,
          regime) =>
        { ts, rtt_ms, loss_pct, jitter_ms, tcp_mbps, udp_mbps, udp_jitter_ms, udp_loss_pct,
          util_mbps, state, quality, ospf_cost, mark_loss_pct, mark_rate_mbps, implied_tcp_mbps,
          regime })
      (fun r => (r.ts, r.rtt_ms, r.loss_pct, r.jitter_ms, r.tcp_mbps, r.udp_mbps, r.udp_jitter_ms,
        r.udp_loss_pct, r.util_mbps, r.state, r.quality, r.ospf_cost, r.mark_loss_pct,
        r.mark_rate_mbps, r.implied_tcp_mbps, r.regime))

def qualityRecord (ft : FloatText F T) : Codec T (QualityRecord F) := .record (recordFields ft)

def sampleFields (ft : FloatText G T) : Record T (RawSample G) :=
  ((Record.field "ts" u64).and <| (optional "rtt_ms" ft.codec).and <|
    (optional "loss_pct" ft.codec).and <| (optional "jitter_ms" ft.codec).and <|
    (optional "tcp_mbps" ft.codec).and <| (optional "udp_mbps" ft.codec).and <|
    (optional "udp_jitter_ms" ft.codec).and <| (optional "udp_loss_pct" ft.codec).and <|
    (Record.field "util_mbps" ft.codec).and <| (Record.field "state" u8).and <|
    (optional "mark_n" u64).and <| (optional "mark_secs" u32).and <|
    (optional "mark_tx_s" u32).and <| (optional "mark_tx_l" u32).and <|
    (optional "mark_rx_s" u32).and <| (optional "mark_rx_l" u32).and <|
    (optional "mark_tx_bytes" u64).and <| (optional "mark_rx_bytes" u64).and <|
    (optional "mark_flags" u8).and <| (optional "mark_loss_pct" ft.codec).and <|
    optional "mark_rate_mbps" ft.codec).map
      (fun (ts, rtt_ms, loss_pct, jitter_ms, tcp_mbps, udp_mbps, udp_jitter_ms, udp_loss_pct,
          util_mbps, state, mark_n, mark_secs, mark_tx_s, mark_tx_l, mark_rx_s, mark_rx_l,
          mark_tx_bytes, mark_rx_bytes, mark_flags, mark_loss_pct, mark_rate_mbps) =>
        { ts, rtt_ms, loss_pct, jitter_ms, tcp_mbps, udp_mbps, udp_jitter_ms, udp_loss_pct,
          util_mbps, state, mark_n, mark_secs, mark_tx_s, mark_tx_l, mark_rx_s, mark_rx_l,
          mark_tx_bytes, mark_rx_bytes, mark_flags, mark_loss_pct, mark_rate_mbps })
      (fun s => (s.ts, s.rtt_ms, s.loss_pct, s.jitter_ms, s.tcp_mbps, s.udp_mbps, s.udp_jitter_ms,
        s.udp_loss_pct, s.util_mbps, s.state, s.mark_n, s.mark_secs, s.mark_tx_s, s.mark_tx_l,
        s.mark_rx_s, s.mark_rx_l, s.mark_tx_bytes, s.mark_rx_bytes, s.mark_flags, s.mark_loss_pct,
        s.mark_rate_mbps))

def rawSample (ft : FloatText G T) : Codec T (RawSample G) := .record (sampleFields ft)

def nodeEntryFields : Record T NodeEntry :=
  ((Record.field "name" .str).and <| (Record.field "ts" u64).and <|
    defaulted "links" (.list linkKey) []).map
      (fun (name, ts, links) => { name, ts, links }) (fun e => (e.name, e.ts, e.links))

def nodeEntry : Codec T NodeEntry := .record nodeEntryFields

/-! ### Messages -/

def exchangeReqFields (ft : FloatText F T) (gt : FloatText G T) : Record T (ExchangeReq F G) :=
  ((Record.field "node" .str).and <|
    (Record.field "records" (.list (.pair linkKey (qualityRecord ft)))).and <|
    (defaulted "ts_samples" (.list (.pair linkKey (rawSample gt))) []).and <|
    defaulted "nodes" (.list (.pair .str nodeEntry)) []).map
      (fun (node, records, ts_samples, nodes) => { node, records, ts_samples, nodes })
      (fun q => (q.node, q.records, q.ts_samples, q.nodes))

def exchangeRespFields (ft : FloatText F T) : Record T (ExchangeResp F) :=
  ((Record.field "node" .str).and <|
    (Record.field "records" (.list (.pair linkKey (qualityRecord ft)))).and <|
    defaulted "nodes" (.list (.pair .str nodeEntry)) []).map
      (fun (node, records, nodes) => { node, records, nodes })
      (fun r => (r.node, r.records, r.nodes))

def memberRequestVariants (ft : FloatText F T) (gt : FloatText G T) :
    Variants T (MemberRequest F G) :=
  (Variants.one "exchange" (exchangeReqFields ft gt)).map .exchange (fun | .exchange req => req)

def memberRequest (ft : FloatText F T) (gt : FloatText G T) : Codec T (MemberRequest F G) :=
  .tagged "type" (memberRequestVariants ft gt)

def memberReplyVariants (ft : FloatText F T) : Variants T (MemberReply F) :=
  (Variants.one "exchange" (exchangeRespFields ft)).map .exchange (fun | .exchange resp => resp)

def memberReply (ft : FloatText F T) : Codec T (MemberReply F) :=
  .tagged "type" (memberReplyVariants ft)

/-! ### What arrives -/

@[simp] theorem quality_arrive (o : Option Quality) :
    (optional "quality" quality : Record T (Option Quality)).arrive o = some o :=
  optional_arrive (by cases o <;> rfl)

@[simp] theorem regime_arrive (o : Option Regime) :
    (optional "regime" regime : Record T (Option Regime)).arrive o = some o :=
  optional_arrive (by cases o <;> rfl)

/-- What a record is read as: its load has to be finite, a dimension that is not is lost. -/
def recordReceived (ft : FloatText F T) (r : QualityRecord F) : Option (QualityRecord F) :=
  (ft.arrive r.util_mbps).map fun util_mbps =>
    { r with
      rtt_ms := r.rtt_ms.bind ft.arrive
      loss_pct := r.loss_pct.bind ft.arrive
      jitter_ms := r.jitter_ms.bind ft.arrive
      tcp_mbps := r.tcp_mbps.bind ft.arrive
      udp_mbps := r.udp_mbps.bind ft.arrive
      udp_jitter_ms := r.udp_jitter_ms.bind ft.arrive
      udp_loss_pct := r.udp_loss_pct.bind ft.arrive
      util_mbps
      mark_loss_pct := r.mark_loss_pct.bind ft.arrive
      mark_rate_mbps := r.mark_rate_mbps.bind ft.arrive
      implied_tcp_mbps := r.implied_tcp_mbps.bind ft.arrive }

/-- What a sample is read as. -/
def sampleReceived (ft : FloatText G T) (s : RawSample G) : Option (RawSample G) :=
  (ft.arrive s.util_mbps).map fun util_mbps =>
    { s with
      rtt_ms := s.rtt_ms.bind ft.arrive
      loss_pct := s.loss_pct.bind ft.arrive
      jitter_ms := s.jitter_ms.bind ft.arrive
      tcp_mbps := s.tcp_mbps.bind ft.arrive
      udp_mbps := s.udp_mbps.bind ft.arrive
      udp_jitter_ms := s.udp_jitter_ms.bind ft.arrive
      udp_loss_pct := s.udp_loss_pct.bind ft.arrive
      util_mbps
      mark_loss_pct := s.mark_loss_pct.bind ft.arrive
      mark_rate_mbps := s.mark_rate_mbps.bind ft.arrive }

/-- The numbers of a record are within their types. -/
structure RecordFits (r : QualityRecord F) : Prop where
  ts : r.ts < 2 ^ 64
  ospf_cost : ∀ n ∈ r.ospf_cost, n < 2 ^ 32

/-- The numbers of a sample are within their types. -/
structure SampleFits (s : RawSample G) : Prop where
  ts : s.ts < 2 ^ 64
  state : s.state < 2 ^ 8
  mark_n : ∀ n ∈ s.mark_n, n < 2 ^ 64
  mark_secs : ∀ n ∈ s.mark_secs, n < 2 ^ 32
  mark_tx_s : ∀ n ∈ s.mark_tx_s, n < 2 ^ 32
  mark_tx_l : ∀ n ∈ s.mark_tx_l, n < 2 ^ 32
  mark_rx_s : ∀ n ∈ s.mark_rx_s, n < 2 ^ 32
  mark_rx_l : ∀ n ∈ s.mark_rx_l, n < 2 ^ 32
  mark_tx_bytes : ∀ n ∈ s.mark_tx_bytes, n < 2 ^ 64
  mark_rx_bytes : ∀ n ∈ s.mark_rx_bytes, n < 2 ^ 64
  mark_flags : ∀ n ∈ s.mark_flags, n < 2 ^ 8

theorem qualityRecord_arrive (ft : FloatText F T) {r : QualityRecord F} (h : RecordFits r) :
    (qualityRecord ft).arrive r = recordReceived ft r := by
  have hutil : ft.codec.arrive r.util_mbps = ft.arrive r.util_mbps := rfl
  simp [qualityRecord, recordFields, recordReceived, Codec.nat_arrive h.ts, ft.option_arrive,
    optional_arrive (ft.option_arrive _), optional_arrive (Codec.option_nat_arrive h.ospf_cost),
    hutil]
  cases ft.arrive r.util_mbps <;> rfl

theorem rawSample_arrive (ft : FloatText G T) {s : RawSample G} (h : SampleFits s) :
    (rawSample ft).arrive s = sampleReceived ft s := by
  have hutil : ft.codec.arrive s.util_mbps = ft.arrive s.util_mbps := rfl
  simp [rawSample, sampleFields, sampleReceived, Codec.nat_arrive h.ts, Codec.nat_arrive h.state,
    optional_arrive (ft.option_arrive _), optional_arrive (Codec.option_nat_arrive h.mark_n),
    optional_arrive (Codec.option_nat_arrive h.mark_secs),
    optional_arrive (Codec.option_nat_arrive h.mark_tx_s),
    optional_arrive (Codec.option_nat_arrive h.mark_tx_l),
    optional_arrive (Codec.option_nat_arrive h.mark_rx_s),
    optional_arrive (Codec.option_nat_arrive h.mark_rx_l),
    optional_arrive (Codec.option_nat_arrive h.mark_tx_bytes),
    optional_arrive (Codec.option_nat_arrive h.mark_rx_bytes),
    optional_arrive (Codec.option_nat_arrive h.mark_flags), hutil]
  cases ft.arrive s.util_mbps <;> rfl

theorem nodeEntry_arrive {e : NodeEntry} (h : e.ts < 2 ^ 64) :
    (nodeEntry : Codec T NodeEntry).arrive e = some e := by
  have hlinks := Codec.list_arrive (T := T) fun l (_ : l ∈ e.links) => linkKey_arrive l
  simp [nodeEntry, nodeEntryFields, Codec.nat_arrive h, hlinks]

/-- The entries of a list as `f` reads their values. -/
def entriesReceived {κ α : Type*} (f : α → Option α) (l : List (κ × α)) : Option (List (κ × α)) :=
  l.mapM fun e => (f e.2).map (Prod.mk e.1)

/-- What a push is read as. -/
def requestReceived (ft : FloatText F T) (gt : FloatText G T) :
    MemberRequest F G → Option (MemberRequest F G)
  | .exchange q => (entriesReceived (recordReceived ft) q.records).bind fun records =>
    (entriesReceived (sampleReceived gt) q.ts_samples).map fun ts_samples =>
      .exchange { q with records, ts_samples }

/-- What an answer is read as. -/
def replyReceived (ft : FloatText F T) : MemberReply F → Option (MemberReply F)
  | .exchange r => (entriesReceived (recordReceived ft) r.records).map fun records =>
    .exchange { r with records }

/-- The numbers of a push are within their types. -/
structure PushFits (q : ExchangeReq F G) : Prop where
  records : ∀ e ∈ q.records, RecordFits e.2
  ts_samples : ∀ e ∈ q.ts_samples, SampleFits e.2
  nodes : ∀ e ∈ q.nodes, e.2.ts < 2 ^ 64

/-- The numbers of an answer are within their types. -/
structure AnswerFits (r : ExchangeResp F) : Prop where
  records : ∀ e ∈ r.records, RecordFits e.2
  nodes : ∀ e ∈ r.nodes, e.2.ts < 2 ^ 64

theorem records_arrive (ft : FloatText F T) {l : List (LinkKey × QualityRecord F)}
    (h : ∀ e ∈ l, RecordFits e.2) :
    (Codec.pair linkKey (qualityRecord ft)).list.arrive l = entriesReceived (recordReceived ft) l :=
  Codec.list_arrive_congr fun e he =>
    congrArg (Option.map (Prod.mk e.1)) (qualityRecord_arrive ft (h e he))

theorem samples_arrive (ft : FloatText G T) {l : List (LinkKey × RawSample G)}
    (h : ∀ e ∈ l, SampleFits e.2) :
    (Codec.pair linkKey (rawSample ft)).list.arrive l = entriesReceived (sampleReceived ft) l :=
  Codec.list_arrive_congr fun e he =>
    congrArg (Option.map (Prod.mk e.1)) (rawSample_arrive ft (h e he))

theorem nodes_arrive {l : List (String × NodeEntry)} (h : ∀ e ∈ l, e.2.ts < 2 ^ 64) :
    (Codec.pair .str nodeEntry : Codec T (String × NodeEntry)).list.arrive l = some l :=
  Codec.list_arrive fun e he => congrArg (Option.map (Prod.mk e.1)) (nodeEntry_arrive (h e he))

theorem memberRequest_arrive (ft : FloatText F T) (gt : FloatText G T) {q : ExchangeReq F G}
    (h : PushFits q) :
    (memberRequestVariants ft gt).arrive (.exchange q) = requestReceived ft gt (.exchange q) := by
  simp only [memberRequestVariants, exchangeReqFields, requestReceived, Variants.map_arrive,
    Variants.one_arrive, Record.map_arrive, Record.and_arrive, Record.field_arrive,
    defaulted_arrive, Codec.str_arrive, records_arrive ft h.records,
    samples_arrive gt h.ts_samples, nodes_arrive h.nodes]
  cases entriesReceived (recordReceived ft) q.records with
  | none => rfl
  | some records => cases entriesReceived (sampleReceived gt) q.ts_samples <;> rfl

theorem memberReply_arrive (ft : FloatText F T) {r : ExchangeResp F} (h : AnswerFits r) :
    (memberReplyVariants ft).arrive (.exchange r) = replyReceived ft (.exchange r) := by
  simp only [memberReplyVariants, exchangeRespFields, replyReceived, Variants.map_arrive,
    Variants.one_arrive, Record.map_arrive, Record.and_arrive, Record.field_arrive,
    defaulted_arrive, Codec.str_arrive, records_arrive ft h.records, nodes_arrive h.nodes]
  cases entriesReceived (recordReceived ft) r.records <;> rfl

/-- A list is read if the load of every entry is finite. -/
theorem isSome_entriesReceived {κ α : Type*} {f : α → Option α} {l : List (κ × α)} :
    (entriesReceived f l).isSome ↔ ∀ e ∈ l, (f e.2).isSome := by
  rw [entriesReceived, Codec.isSome_mapM]
  simp only [Option.isSome_map]

theorem isSome_recordReceived (ft : FloatText F T) (r : QualityRecord F) :
    (recordReceived ft r).isSome ↔ (ft.show r.util_mbps).isSome := by
  simp only [recordReceived, FloatText.arrive, Option.isSome_map]

theorem isSome_sampleReceived (ft : FloatText G T) (s : RawSample G) :
    (sampleReceived ft s).isSome ↔ (ft.show s.util_mbps).isSome := by
  simp only [sampleReceived, FloatText.arrive, Option.isSome_map]

end Wire

open Wire

variable {F G T : Type*}

/-- A record whose round trip is not finite. -/
def farRecord : QualityRecord (Option ℤ) :=
  ⟨60, some none, some (some 0), none, none, none, none, none, some 3, .quiet, some .good, some 20,
    none, none, none, some .clean⟩

/-- A sample whose load is not finite. -/
def floodedSample : RawSample (Option ℤ) :=
  ⟨60, none, none, none, none, none, none, none, none, 0, some 6, some 10, none, none, none, none,
    none, none, some 0, none, none⟩

/-- A push of `hub-a` with one record and one sample of a link. -/
def pushOfHubA : ExchangeReq (Option ℤ) (Option ℤ) where
  node := "hub-a"
  records := [(⟨"a", "b", "awg_b"⟩, farRecord)]
  ts_samples := [(⟨"a", "b", "awg_b"⟩, floodedSample)]
  nodes := [("10.0.0.1", ⟨"a", 60, [⟨"a", "b", "awg_b"⟩]⟩)]

/-- The answer of `hub-b`, with the same record. -/
def answerOfHubB : ExchangeResp (Option ℤ) where
  node := "hub-b"
  records := [(⟨"a", "b", "awg_b"⟩, farRecord)]
  nodes := []

theorem farRecord_fits : RecordFits farRecord := ⟨by decide, by simp [farRecord]⟩

theorem floodedSample_fits : SampleFits floodedSample := by
  constructor <;> simp [floodedSample]

end Mielofon
