import Mielofon.Tsdb.Window

namespace Mielofon

/-!
# Quality classes

A window is scored dimension by dimension against the thresholds of the four classes, and the
worst score is the class of the link (`quality.rs`).

* `QualityClass`, `QualityCfg` — the thresholds and the cost of each class;
* `scoreUpper`, `scoreLower` — how far a metric escalates;
* `classifyWindow` — the class of a window;
* `classifyWindow_default` — an empty window is good.
-/

/-- The thresholds of one class and its cost.  An unset threshold pins nothing. -/
structure QualityClass (F : Type*) where
  rtt_ms : Option F
  loss_pct : Option F
  jitter_ms : Option F
  tcp_mbps : Option F
  udp_mbps : Option F
  udp_loss_pct : Option F
  udp_jitter_ms : Option F
  ospf_cost : ℕ
deriving DecidableEq, Repr

/-- The four classes. -/
structure QualityCfg (F : Type*) where
  good : QualityClass F
  acceptable : QualityClass F
  poor : QualityClass F
  bad : QualityClass F
deriving DecidableEq, Repr

variable {F : Type*}

/-- The cost of a class. -/
def costForQuality (cfg : QualityCfg F) : Quality → ℕ
  | .good => cfg.good.ospf_cost
  | .acceptable => cfg.acceptable.ospf_cost
  | .poor => cfg.poor.ospf_cost
  | .bad => cfg.bad.ospf_cost

/-- Escalate for every threshold that `crosses`, in class order, up to bad. -/
def score (crosses : F → Bool) (thresholds : List (Option F)) : ℕ :=
  min (thresholds.zipIdx.foldl (fun score ti => if ti.1.any crosses then max score (ti.2 + 1) else score) 0) 3

/-- The worst of the scores; good when nothing was scored. -/
def worst (scores : List (Option ℕ)) : Quality :=
  match (scores.filterMap id).foldl max 0 with
  | 0 => .good
  | 1 => .acceptable
  | 2 => .poor
  | _ => .bad

variable [LinearOrder F]

/-- The score of a metric bounded from above. -/
def scoreUpper (metric : F) (thresholds : List (Option F)) : ℕ := score (fun t => t < metric) thresholds

/-- The score of a metric bounded from below. -/
def scoreLower (metric : F) (thresholds : List (Option F)) : ℕ := score (fun t => metric < t) thresholds

/-- The class of a window.  A dimension it does not have does not constrain, and the rate the
    passive loss allows is scored like a measured rate. -/
def classifyWindow (cfg : QualityCfg F) (view : WindowView F) : Quality :=
  let classes := [cfg.good, cfg.acceptable, cfg.poor, cfg.bad]
  let rtt := view.rtt_ms.map (scoreUpper · (classes.map QualityClass.rtt_ms))
  let loss := view.loss_pct.map (scoreUpper · (classes.map QualityClass.loss_pct))
  let jitter := view.jitter_ms.map (scoreUpper · (classes.map QualityClass.jitter_ms))
  let tcp := view.tcp_mbps.map (scoreLower · (classes.map QualityClass.tcp_mbps))
  let udp := view.udp_mbps.map (scoreLower · (classes.map QualityClass.udp_mbps))
  let udp_loss := view.udp_loss_pct.map (scoreUpper · (classes.map QualityClass.udp_loss_pct))
  let udp_jitter := view.udp_jitter_ms.map (scoreUpper · (classes.map QualityClass.udp_jitter_ms))
  let implied := view.implied_tcp_mbps.map (scoreLower · (classes.map QualityClass.tcp_mbps))
  worst [rtt, loss, jitter, tcp, udp, udp_loss, udp_jitter, implied]

/-- What the classifier keeps the last decision for: an empty window would come out as good. -/
theorem classifyWindow_default [Zero F] (cfg : QualityCfg F) :
    classifyWindow cfg (WindowView.default : WindowView F) = .good := rfl

end Mielofon
