import Mathlib
import Mielofon.Agent.Node
import Mielofon.Agent.Window
import Mielofon.Lib.Doc

namespace Mielofon

open Lib

/-!
# What a throughput test reports

A test runs `iperf3` for a TCP leg and, where a UDP rate is configured, for a UDP leg
(`throughput.rs`).  A leg without a number stays unmeasured, and the reason travels with the reply.

* `endSummary`, `parseIperf`, `parseIperfUdp` — the figures of an `iperf3` document;
* `Outcome.busy`, `Outcome.measured` — the outcome of a test that was skipped, and of one that ran;
* `measured_tcp_iff`, `measured_error_iff` — a figure is reported exactly for a leg that gave one,
  and a reason exactly when some leg gave none.
-/

variable {F : Type*} [Field F]

/-- The `end` summary of a run: what the server got, else the client's sum. -/
def endSummary (js : Doc F) : Except String (Doc F) :=
  match (js.index "error").as_str with
  | some err => .error ("iperf3: " ++ err)
  | none =>
    match ["sum_received", "sum"].find? (fun key =>
        (((js.index "end").index key).index "bits_per_second").is_number) with
    | some key => .ok ((js.index "end").index key)
    | none => .error "iperf3: no end summary"

/-- Upload rate of a TCP run. -/
def parseIperf (js : Doc F) : Except String F :=
  (endSummary js).map fun sum => ((sum.index "bits_per_second").as_f64.getD 0) / (1000000 : ℕ)

/-- Received rate, jitter and loss of a UDP run. -/
def parseIperfUdp (js : Doc F) : Except String (UdpResult F) :=
  (endSummary js).map fun sum =>
    { mbps := ((sum.index "bits_per_second").as_f64.getD 0) / (1000000 : ℕ)
      jitter_ms := (sum.index "jitter_ms").as_f64
      loss_pct := (sum.index "lost_percent").as_f64 }

/-- A summary has a rate, and stands in a document without an error. -/
theorem of_endSummary {js sum : Doc F} (h : endSummary js = .ok sum) :
    (js.index "error").as_str = none ∧ (sum.index "bits_per_second").as_f64.isSome = true := by
  unfold endSummary at h
  split at h
  · cases h
  · rename_i hnone
    refine ⟨hnone, ?_⟩
    split at h
    · rename_i key hkey
      obtain rfl := Except.ok.inj h
      have hnum := List.find?_some hkey
      rwa [Doc.as_f64_isSome]
    · cases h

/-- No reading of a rate falls back to zero. -/
theorem parseIperf_eq_ok_iff {js : Doc F} {v : F} :
    parseIperf js = .ok v ↔
      ∃ sum x, endSummary js = .ok sum ∧ (sum.index "bits_per_second").as_f64 = some x ∧
        v = x / (1000000 : ℕ) := by
  unfold parseIperf
  cases hsum : endSummary js with
  | error e =>
    constructor
    · intro h
      cases h
    · rintro ⟨_, _, h, -⟩
      cases h
  | ok sum =>
    obtain ⟨x, hx⟩ := Option.isSome_iff_exists.mp (of_endSummary hsum).2
    simp only [Except.map, hx, Option.getD_some, Except.ok.injEq]
    constructor
    · rintro rfl
      exact ⟨sum, x, rfl, hx, rfl⟩
    · rintro ⟨sum', y, rfl, hy, rfl⟩
      rw [Option.some.inj (hx.symm.trans hy)]

namespace Outcome

/-- No measurement was taken. -/
def skipped (util_mbps : F) : Outcome F := ⟨true, util_mbps, none, none, none⟩

/-- The figure of a leg, if it gave one. -/
def figure {α : Type*} : Except String α → Option α
  | .ok v => some v
  | .error _ => none

/-- Why a leg gave none. -/
def reason {α : Type*} (leg : String) : Except String α → List String
  | .ok _ => []
  | .error e => [leg ++ ": " ++ e]

/-- What two legs report; the second may not have run. -/
def measured (util_mbps : F) (tcp : Except String (Doc F)) (udp : Option (Except String (Doc F))) :
    Outcome F :=
  let tcp := tcp.bind parseIperf
  let udp := udp.map (fun r => r.bind parseIperfUdp)
  let errors := reason "tcp" tcp ++ udp.toList.flatMap (reason "udp")
  { busy := false
    util_mbps
    tcp_mbps := figure tcp
    udp := udp.bind figure
    error := if errors = [] then none else some ("; ".intercalate errors) }

variable {util_mbps : F} {tcp : Except String (Doc F)} {udp : Option (Except String (Doc F))}

omit [Field F] in
theorem reason_eq_nil_iff {α : Type*} {leg : String} {r : Except String α} :
    reason leg r = [] ↔ (figure r).isSome := by
  cases r <;> simp [reason, figure]

/-- A TCP rate is reported exactly when the leg gave a document with one. -/
theorem measured_tcp_iff {v : F} :
    (measured util_mbps tcp udp).tcp_mbps = some v ↔
      ∃ js, tcp = .ok js ∧ parseIperf js = .ok v := by
  show figure (tcp.bind parseIperf) = some v ↔ _
  cases tcp with
  | error e => simp [Except.bind, figure]
  | ok js =>
    show figure (parseIperf js) = some v ↔ _
    cases hv : parseIperf js <;> simp [figure, hv]

/-- A reason is reported exactly when a leg that ran gave no figure. -/
theorem measured_error_iff :
    (measured util_mbps tcp udp).error = none ↔
      (measured util_mbps tcp udp).tcp_mbps.isSome ∧
        (udp.isSome → (measured util_mbps tcp udp).udp.isSome) := by
  have hudp : (udp.map (fun r => r.bind parseIperfUdp)).toList.flatMap (reason "udp") = [] ↔
      (udp.isSome → (measured util_mbps tcp udp).udp.isSome) := by
    cases udp with
    | none => simp
    | some r => simp [reason_eq_nil_iff, measured]
  have htcp : reason "tcp" (tcp.bind parseIperf) = [] ↔
      (measured util_mbps tcp udp).tcp_mbps.isSome := reason_eq_nil_iff
  rw [← htcp, ← hudp, ← List.append_eq_nil_iff]
  simp [measured]

end Outcome

end Mielofon
