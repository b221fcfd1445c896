import Mathlib
import Mielofon.Classifier.Pass
import Mielofon.Lib.Exposition
import Mielofon.Worker

namespace Mielofon

open Lib

/-!
# The metrics page of a controller

The counters of the process, the derived record of every link and the passive totals, as samples in
a text (`metrics` in `api.rs`).  A dimension that is not measured is absent.  The names in a link
come from agents, and are escaped.

* `promLabel`, `labels` — the labels of a link;
* `metricsText` — the page;
* `metricsPage` — its families;
* `metrics_exact` — what the page is read as.
-/

/-! ### The text -/

/-- Escape a label value (backslash, double quote, newline). -/
def promLabel (s : String) : List Char :=
  replaceChar '\n' ['\\', 'n']
    (replaceChar '"' ['\\', '"'] (replaceChar '\\' ['\\', '\\'] s.toList))

def Regime.label : Regime → String
  | .clean => "clean"
  | .sparse => "sparse"
  | .bursty => "bursty"
  | .size_selective => "size_selective"
  | .under_test => "under_test"

def qualityLabelValue : Quality → ℕ
  | .good => 0
  | .acceptable => 1
  | .poor => 2
  | .bad => 3

namespace Metrics

/-- What was built, and with what. -/
structure Build where
  version : String
  revision : String
  rustc : String

/-- What the page reads: the counters of the process, and the stores. -/
structure PageState (F : Type*) where
  reports : ℕ
  probe_failures : ℕ
  throughput_skipped : ℕ
  kv : LwwStore F
  workers : WorkerRegistry
  classifier : ClassifierState

def digits (n : ℕ) : List Char := Nat.toDigits 10 n

def typeComment (name kind : String) : List Char :=
  " TYPE ".toList ++ name.toList ++ ' ' :: kind.toList

def helpComment (name help : String) : List Char :=
  " HELP ".toList ++ name.toList ++ ' ' :: help.toList

/-- A series of the process. -/
structure Count where
  name : String
  help : String
  kind : String
  value : ℕ

def Count.text (c : Count) : List Char :=
  commentText (helpComment c.name c.help) ++ commentText (typeComment c.name c.kind) ++
    lineText c.name.toList [] (digits c.value)

def counts {F : Type*} (s : PageState F) : List Count :=
  [⟨"mielofon_quality_reports_total", "quality reports accepted", "counter", s.reports⟩,
    ⟨"mielofon_probe_failures_total", "probe replies that carried a failure note", "counter",
      s.probe_failures⟩,
    ⟨"mielofon_scheduler_throughput_skipped_total", "throughput tests skipped on passive proof",
      "counter", s.throughput_skipped⟩,
    ⟨"mielofon_links", "number of known links", "gauge", s.kv.inner.pairs.length⟩,
    ⟨"mielofon_agents", "number of registered agents", "gauge", s.workers.inner.pairs.length⟩]

def buildText (build : Build) : List Char :=
  commentText (helpComment "mielofon_build_info" "build and version information") ++
    commentText (typeComment "mielofon_build_info" "gauge") ++
    lineText "mielofon_build_info".toList
      [("version".toList, build.version.toList), ("revision".toList, build.revision.toList),
        ("rustc".toList, promLabel build.rustc)] ['1']

def labels (key : LinkKey) : List Label :=
  [("from".toList, promLabel key.from), ("to".toList, promLabel key.to),
    ("iface".toList, promLabel key.interface)]

section

variable {F : Type*}

/-- The gauges of a link. -/
def linkGauges [NatCast F] : List (String × (QualityRecord F → Option F)) :=
  [("mielofon_link_rtt_ms", QualityRecord.rtt_ms),
    ("mielofon_link_loss_pct", QualityRecord.loss_pct),
    ("mielofon_link_jitter_ms", QualityRecord.jitter_ms),
    ("mielofon_link_tcp_mbps", QualityRecord.tcp_mbps),
    ("mielofon_link_udp_mbps", QualityRecord.udp_mbps),
    ("mielofon_link_udp_jitter_ms", QualityRecord.udp_jitter_ms),
    ("mielofon_link_udp_loss_pct", QualityRecord.udp_loss_pct),
    ("mielofon_link_quality", fun r => r.quality.map fun q => ((qualityLabelValue q : ℕ) : F)),
    ("mielofon_link_ospf_cost", fun r => r.ospf_cost.map fun cost : ℕ => (cost : F)),
    ("mielofon_link_mark_loss_pct", QualityRecord.mark_loss_pct),
    ("mielofon_link_mark_rate_mbps", QualityRecord.mark_rate_mbps),
    ("mielofon_link_implied_tcp_mbps", QualityRecord.implied_tcp_mbps)]

variable («show» : F → List Char)

/-- One gauge of every link: an unmeasured dimension is simply absent. -/
def gaugeText (records : List (LinkKey × QualityRecord F))
    (g : String × (QualityRecord F → Option F)) : List Char :=
  commentText (typeComment g.1 "gauge") ++ records.flatMap fun kr =>
    ((g.2 kr.2).map fun v => lineText g.1.toList (labels kr.1) («show» v)).getD []

def shapes : List Regime := [.clean, .sparse, .bursty, .size_selective, .under_test]

/-- One series a shape, so that a change shows in the old and in the new one. -/
def regimeText (records : List (LinkKey × QualityRecord F)) : List Char :=
  commentText (typeComment "mielofon_link_regime" "gauge") ++ records.flatMap fun kr =>
    (kr.2.regime.map fun cur => shapes.flatMap fun shape =>
      lineText "mielofon_link_regime".toList
        (labels kr.1 ++ [("shape".toList, shape.label.toList)])
        (digits (if shape = cur then 1 else 0))).getD []

/-- A counter of the two bands. -/
def bandText (name : String) (small large : MarkTotals → ℕ)
    (totals : List (LinkKey × MarkTotals)) : List Char :=
  commentText (typeComment name "counter") ++ totals.flatMap fun kt =>
    lineText name.toList (labels kt.1 ++ [("band".toList, ['s'])]) (digits (small kt.2)) ++
      lineText name.toList (labels kt.1 ++ [("band".toList, ['l'])]) (digits (large kt.2))

def changesText (totals : List (LinkKey × MarkTotals)) : List Char :=
  commentText (typeComment "mielofon_link_regime_changes_total" "counter") ++
    totals.flatMap fun kt =>
      lineText "mielofon_link_regime_changes_total".toList (labels kt.1)
        (digits kt.2.regime_changes)

/-- The page. -/
def metricsText [NatCast F] (build : Build) (s : PageState F) : List Char :=
  (counts s).flatMap Count.text ++ buildText build ++
    linkGauges.flatMap (gaugeText «show» s.kv.all) ++ regimeText s.kv.all ++
    bandText "mielofon_link_mark_sent_total" MarkTotals.sent_s MarkTotals.sent_l
      s.classifier.totals.pairs ++
    bandText "mielofon_link_mark_lost_total" MarkTotals.lost_s MarkTotals.lost_l
      s.classifier.totals.pairs ++
    changesText s.classifier.totals.pairs

end

/-! ### The families -/

/-- The labels of a link before they are escaped. -/
def linkLabels (key : LinkKey) : List Label :=
  [("from".toList, key.from.toList), ("to".toList, key.to.toList),
    ("iface".toList, key.interface.toList)]

def Count.family (c : Count) : Family :=
  ⟨[helpComment c.name c.help, typeComment c.name c.kind], c.name.toList, [([], digits c.value)]⟩

def buildFamily (build : Build) : Family :=
  ⟨[helpComment "mielofon_build_info" "build and version information",
      typeComment "mielofon_build_info" "gauge"], "mielofon_build_info".toList,
    [([("version".toList, build.version.toList), ("revision".toList, build.revision.toList),
      ("rustc".toList, build.rustc.toList)], ['1'])]⟩

/-- A family with rows for every link of a table. -/
structure LinkFamily (ν : Type*) where
  name : String
  kind : String
  rows : ν → List (List Label × List Char)

def LinkFamily.family {ν : Type*} (table : List (LinkKey × ν)) (f : LinkFamily ν) : Family :=
  ⟨[typeComment f.name f.kind], f.name.toList, tableRows linkLabels f.rows table⟩

section

variable {F : Type*} («show» : F → List Char)

def gaugeFamily (g : String × (QualityRecord F → Option F)) : LinkFamily (QualityRecord F) :=
  ⟨g.1, "gauge", fun r => ((g.2 r).map fun v => ([], «show» v)).toList⟩

def regimeFamily : LinkFamily (QualityRecord F) :=
  ⟨"mielofon_link_regime", "gauge", fun r => (r.regime.map fun cur => shapes.map fun shape =>
    ([("shape".toList, shape.label.toList)], digits (if shape = cur then 1 else 0))).getD []⟩

def bandFamily (name : String) (small large : MarkTotals → ℕ) : LinkFamily MarkTotals :=
  ⟨name, "counter", fun t => [([("band".toList, ['s'])], digits (small t)),
    ([("band".toList, ['l'])], digits (large t))]⟩

def changesFamily : LinkFamily MarkTotals :=
  ⟨"mielofon_link_regime_changes_total", "counter", fun t => [([], digits t.regime_changes)]⟩

/-- The families of the derived records. -/
def recordFamilies [NatCast F] : List (LinkFamily (QualityRecord F)) :=
  linkGauges.map (gaugeFamily «show») ++ [regimeFamily]

/-- The families of the passive totals. -/
def totalFamilies : List (LinkFamily MarkTotals) :=
  [bandFamily "mielofon_link_mark_sent_total" MarkTotals.sent_s MarkTotals.sent_l,
    bandFamily "mielofon_link_mark_lost_total" MarkTotals.lost_s MarkTotals.lost_l, changesFamily]

def metricsPage [NatCast F] (build : Build) (s : PageState F) : List Family :=
  (counts s).map Count.family ++ [buildFamily build] ++
    (recordFamilies «show»).map (LinkFamily.family s.kv.all) ++
    totalFamilies.map (LinkFamily.family s.classifier.totals.pairs)

end

/-! ### The text is that of the families -/

theorem promLabel_eq (s : String) : promLabel s = s.toList.flatMap escapeChar :=
  replaceChar_escape s.toList

theorem labels_eq (key : LinkKey) : labels key = (linkLabels key).map escapeLabel := by
  simp only [labels, linkLabels, promLabel_eq, List.map_cons, List.map_nil, escapeLabel]

theorem LinkFamily.text_family {ν : Type*} (f : LinkFamily ν) (table : List (LinkKey × ν)) :
    (f.family table).text = commentText (typeComment f.name f.kind) ++ table.flatMap fun kv =>
      (f.rows kv.2).flatMap fun r =>
        lineText f.name.toList (labels kv.1 ++ r.1.map escapeLabel) r.2 := by
  simp only [Family.text, LinkFamily.family, List.flatMap_singleton, labels_eq]
  exact congrArg _ (samples_tableRows _ _)

theorem Count.text_family (c : Count) : c.family.text = c.text := by
  simp only [Family.text, Count.family, Count.text, Family.samples, Sample.text, List.map_cons,
    List.map_nil, List.flatMap_cons, List.flatMap_nil, List.append_nil]

/-- A text in which nothing is escaped. -/
def Plain (s : String) : Prop := ∀ c ∈ s.toList, c ≠ '\\' ∧ c ≠ '"' ∧ c ≠ '\n'

theorem escapeLabel_of_plain (k : List Char) {s : String} (h : Plain s) :
    escapeLabel (k, s.toList) = (k, s.toList) :=
  congrArg (Prod.mk k) (flatMap_escapeChar h)

theorem text_buildFamily {build : Build} (hversion : Plain build.version)
    (hrevision : Plain build.revision) : (buildFamily build).text = buildText build := by
  have hrustc : escapeLabel ("rustc".toList, build.rustc.toList) =
      ("rustc".toList, promLabel build.rustc) :=
    congrArg (Prod.mk _) (promLabel_eq _).symm
  simp only [Family.text, buildFamily, buildText, Family.samples, Sample.text, List.map_cons,
    List.map_nil, List.flatMap_cons, List.flatMap_nil, List.append_nil, hrustc,
    escapeLabel_of_plain _ hversion, escapeLabel_of_plain _ hrevision]

section

variable {F : Type*} («show» : F → List Char)

theorem text_gaugeFamily (records : List (LinkKey × QualityRecord F))
    (g : String × (QualityRecord F → Option F)) :
    ((gaugeFamily «show» g).family records).text = gaugeText «show» records g := by
  rw [LinkFamily.text_family]
  refine congrArg _ (List.flatMap_congr fun kr _ => ?_)
  simp only [gaugeFamily]
  cases g.2 kr.2 with
  | none => rfl
  | some v => simp

theorem plain_shape (shape : Regime) : Plain shape.label := by
  cases shape <;> simp [Plain, Regime.label]

theorem text_regimeFamily (records : List (LinkKey × QualityRecord F)) :
    (regimeFamily.family records).text = regimeText records := by
  rw [LinkFamily.text_family]
  refine congrArg _ (List.flatMap_congr fun kr _ => ?_)
  simp only [regimeFamily]
  cases kr.2.regime with
  | none => rfl
  | some cur =>
    rw [Option.map_some, Option.map_some, Option.getD_some, Option.getD_some, List.flatMap_map]
    refine List.flatMap_congr fun shape _ => ?_
    rw [List.map_singleton, escapeLabel_of_plain _ (plain_shape shape)]

theorem text_bandFamily (name : String) (small large : MarkTotals → ℕ)
    (totals : List (LinkKey × MarkTotals)) :
    ((bandFamily name small large).family totals).text = bandText name small large totals := by
  rw [LinkFamily.text_family]
  refine congrArg _ (List.flatMap_congr fun kt _ => ?_)
  have hsmall : escapeLabel ("band".toList, ['s']) = ("band".toList, ['s']) := rfl
  have hlarge : escapeLabel ("band".toList, ['l']) = ("band".toList, ['l']) := rfl
  simp only [bandFamily, List.flatMap_cons, List.flatMap_nil, List.append_nil, List.map_singleton,
    hsmall, hlarge]

theorem text_changesFamily (totals : List (LinkKey × MarkTotals)) :
    (changesFamily.family totals).text = changesText totals := by
  rw [LinkFamily.text_family]
  refine congrArg _ (List.flatMap_congr fun kt _ => ?_)
  simp only [changesFamily, List.flatMap_cons, List.flatMap_nil, List.append_nil, List.map_nil]

theorem metricsText_eq [NatCast F] {build : Build} (hversion : Plain build.version)
    (hrevision : Plain build.revision) (s : PageState F) :
    metricsText «show» build s = pageText (metricsPage «show» build s) := by
  have hcounts : ((counts s).map Count.family).flatMap Family.text =
      (counts s).flatMap Count.text := by
    rw [List.flatMap_map]
    exact List.flatMap_congr fun c _ => c.text_family
  have hgauges : ((linkGauges.map (gaugeFamily «show»)).map (LinkFamily.family s.kv.all)).flatMap
      Family.text = linkGauges.flatMap (gaugeText «show» s.kv.all) := by
    rw [List.flatMap_map, List.flatMap_map]
    exact List.flatMap_congr fun g _ => text_gaugeFamily «show» _ g
  simp only [metricsText, pageText, metricsPage, recordFamilies, totalFamilies, List.map_append,
    List.flatMap_append, hcounts, hgauges, List.map_cons, List.map_nil, List.flatMap_cons,
    List.flatMap_nil, List.append_nil, text_buildFamily hversion hrevision, text_regimeFamily,
    text_bandFamily, text_changesFamily, List.append_assoc]

end

/-! ### The page can be read -/

theorem isWord_digits (n : ℕ) : IsWord (digits n) := by
  refine ⟨Nat.toDigits_ne_nil, fun c hc => ?_⟩
  have hdigit : c.isDigit = true := Nat.isDigit_of_mem_toDigits (by decide) (by decide) hc
  simp [sampleChar, Char.isAlphanum, hdigit]

theorem separates_linkLabels : Separates linkLabels := by
  intro k k' e e' h
  obtain ⟨hk, he⟩ := List.append_inj h rfl
  simp only [linkLabels, List.cons.injEq, Prod.mk.injEq, true_and, and_true,
    String.toList_inj] at hk
  obtain ⟨hfrom, hto, hinterface⟩ := hk
  obtain ⟨«from», «to», interface⟩ := k
  obtain ⟨from', to', interface'⟩ := k'
  exact ⟨by rw [LinkKey.mk.injEq]; exact ⟨hfrom, hto, hinterface⟩, he⟩

/-- A family whose names, tags and values can be written, with each tag once. -/
structure LinkFamily.Fits {ν : Type*} (f : LinkFamily ν) : Prop where
  name : IsWord f.name.toList
  kind : '\n' ∉ f.kind.toList
  tags : ∀ v, ∀ r ∈ f.rows v, ∀ l ∈ r.1, IsWord l.1
  values : ∀ v, ∀ r ∈ f.rows v, IsWord r.2
  nodup : ∀ v, ((f.rows v).map Prod.fst).Nodup

theorem newline_notMem {w : List Char} (h : IsWord w) : '\n' ∉ w :=
  fun hmem => absurd (h.2 _ hmem) (by decide)

theorem newline_notMem_append {head name text : List Char} (hhead : '\n' ∉ head)
    (hname : IsWord name) (htext : '\n' ∉ text) : '\n' ∉ head ++ name ++ ' ' :: text := by
  have hspace : '\n' ≠ ' ' := by decide
  simp [hhead, newline_notMem hname, htext, hspace]

theorem newline_notMem_typeComment {name kind : String} (hname : IsWord name.toList)
    (hkind : '\n' ∉ kind.toList) : '\n' ∉ typeComment name kind :=
  newline_notMem_append (by simp) hname hkind

theorem newline_notMem_helpComment {name help : String} (hname : IsWord name.toList)
    (hhelp : '\n' ∉ help.toList) : '\n' ∉ helpComment name help :=
  newline_notMem_append (by simp) hname hhelp

theorem isWord_linkLabels (key : LinkKey) : ∀ l ∈ linkLabels key, IsWord l.1 := by
  simp [linkLabels, IsWord, sampleChar]

theorem LinkFamily.Fits.family {ν : Type*} {f : LinkFamily ν} (h : f.Fits)
    (table : List (LinkKey × ν)) : (f.family table).Fits where
  comments := by
    intro c hc
    rw [List.mem_singleton.1 hc]
    exact newline_notMem_typeComment h.name h.kind
  name := h.name
  labels := by
    rintro ⟨labels, w⟩ hr l hl
    obtain ⟨k, v, e, -, he, rfl⟩ := mem_tableRows.1 hr
    rcases List.mem_append.1 hl with hl | hl
    · exact isWord_linkLabels k l hl
    · exact h.tags v _ he l hl
  values := by
    rintro ⟨labels, w⟩ hr
    obtain ⟨k, v, e, -, he, -⟩ := mem_tableRows.1 hr
    exact h.values v (e, w) he

section

variable {F : Type*} {«show» : F → List Char}

theorem fits_gaugeFamily (hshow : ∀ x, IsWord («show» x))
    {g : String × (QualityRecord F → Option F)} (hname : IsWord g.1.toList) :
    (gaugeFamily «show» g).Fits where
  name := hname
  kind := by simp [gaugeFamily]
  tags v r hr l hl := by
    obtain ⟨x, -, rfl⟩ := Option.map_eq_some_iff.1 (Option.mem_toList.1 hr)
    exact absurd hl List.not_mem_nil
  values v r hr := by
    obtain ⟨x, -, rfl⟩ := Option.map_eq_some_iff.1 (Option.mem_toList.1 hr)
    exact hshow x
  nodup v := by
    simp only [gaugeFamily]
    cases g.2 v with
    | none => exact List.nodup_nil
    | some x => exact List.nodup_singleton _

/-- The row of a shape, beside the current one. -/
def shapeRow (cur shape : Regime) : List Label × List Char :=
  ([("shape".toList, shape.label.toList)], digits (if shape = cur then 1 else 0))

theorem regimeFamily_rows (r : QualityRecord F) :
    regimeFamily.rows r = (r.regime.map fun cur => shapes.map (shapeRow cur)).getD [] := rfl

theorem label_injective : Function.Injective Regime.label := by
  intro shape shape' h
  cases shape <;> cases shape' <;> first | rfl | exact absurd h (by simp [Regime.label])

/-- Every shape has its row. -/
theorem mem_shapeRow {cur shape : Regime} {w : List Char} :
    ([("shape".toList, shape.label.toList)], w) ∈ shapes.map (shapeRow cur) ↔
      w = digits (if shape = cur then 1 else 0) := by
  constructor
  · intro h
    obtain ⟨shape', -, he⟩ := List.mem_map.1 h
    obtain ⟨hlabels, rfl⟩ := Prod.mk.inj he
    have hlabel := (Prod.mk.inj (List.singleton_injective hlabels)).2
    obtain rfl : shape' = shape := label_injective (String.toList_inj.1 hlabel)
    rfl
  · rintro rfl
    refine List.mem_map.2 ⟨shape, ?_, rfl⟩
    cases shape <;> simp [shapes]

theorem exists_of_mem_regimeFamily {r : QualityRecord F} {row : List Label × List Char}
    (h : row ∈ regimeFamily.rows r) : ∃ cur shape, row = shapeRow cur shape := by
  rw [regimeFamily_rows] at h
  cases hr : r.regime with
  | none =>
    rw [hr] at h
    exact absurd h List.not_mem_nil
  | some cur =>
    rw [hr] at h
    obtain ⟨shape, -, rfl⟩ := List.mem_map.1 h
    exact ⟨cur, shape, rfl⟩

theorem nodup_shapeRow (cur : Regime) : ((shapes.map (shapeRow cur)).map Prod.fst).Nodup := by
  have hlabels : (shapes.map Regime.label).Nodup := by simp [shapes, Regime.label]
  have hrows : (shapes.map (shapeRow cur)).map Prod.fst =
      (shapes.map Regime.label).map fun label => [("shape".toList, label.toList)] := by
    rw [List.map_map, List.map_map]
    rfl
  rw [hrows]
  refine hlabels.map fun label label' he => ?_
  exact String.toList_inj.1 (Prod.mk.inj (List.singleton_injective he)).2

theorem fits_regimeFamily : (regimeFamily : LinkFamily (QualityRecord F)).Fits where
  name := by simp [regimeFamily, IsWord, sampleChar]
  kind := by simp [regimeFamily]
  tags v r hr l hl := by
    obtain ⟨cur, shape, rfl⟩ := exists_of_mem_regimeFamily hr
    rw [List.mem_singleton.1 hl]
    simp [IsWord, sampleChar]
  values v r hr := by
    obtain ⟨cur, shape, rfl⟩ := exists_of_mem_regimeFamily hr
    exact isWord_digits _
  nodup v := by
    rw [regimeFamily_rows]
    cases v.regime with
    | none => exact List.nodup_nil
    | some cur => exact nodup_shapeRow cur

theorem fits_bandFamily {name : String} (hname : IsWord name.toList)
    (small large : MarkTotals → ℕ) : (bandFamily name small large).Fits where
  name := hname
  kind := by simp [bandFamily]
  tags v r hr l hl := by
    have hband : IsWord "band".toList := by simp [IsWord, sampleChar]
    rcases List.mem_cons.1 hr with rfl | hr
    · exact List.mem_singleton.1 hl ▸ hband
    · obtain rfl := List.mem_singleton.1 hr
      exact List.mem_singleton.1 hl ▸ hband
  values v r hr := by
    rcases List.mem_cons.1 hr with rfl | hr
    · exact isWord_digits _
    · obtain rfl := List.mem_singleton.1 hr
      exact isWord_digits _
  nodup v := by simp [bandFamily]

theorem fits_changesFamily : changesFamily.Fits where
  name := by simp [changesFamily, IsWord, sampleChar]
  kind := by simp [changesFamily]
  tags v r hr l hl := by
    obtain rfl := List.mem_singleton.1 hr
    exact absurd hl List.not_mem_nil
  values v r hr := by
    obtain rfl := List.mem_singleton.1 hr
    exact isWord_digits _
  nodup v := List.nodup_singleton _

theorem fits_recordFamilies [NatCast F] (hshow : ∀ x, IsWord («show» x)) :
    ∀ f ∈ recordFamilies «show», f.Fits := by
  have hnames : ∀ g ∈ (linkGauges : List (String × (QualityRecord F → Option F))),
      IsWord g.1.toList := by
    simp [linkGauges, IsWord, sampleChar]
  intro f hf
  rcases List.mem_append.1 hf with hf | hf
  · obtain ⟨g, hg, rfl⟩ := List.mem_map.1 hf
    exact fits_gaugeFamily hshow (hnames g hg)
  · rw [List.mem_singleton.1 hf]
    exact fits_regimeFamily

theorem fits_totalFamilies : ∀ f ∈ totalFamilies, f.Fits := by
  simp only [totalFamilies, List.forall_mem_cons]
  refine ⟨fits_bandFamily ?_ _ _, fits_bandFamily ?_ _ _, fits_changesFamily, ?_⟩
  · simp [IsWord, sampleChar]
  · simp [IsWord, sampleChar]
  · exact fun f hf => absurd hf List.not_mem_nil

theorem fits_count {s : PageState F} {c : Count} (h : c ∈ counts s) : c.family.Fits := by
  have hwords : ∀ c ∈ counts s,
      IsWord c.name.toList ∧ '\n' ∉ c.help.toList ∧ '\n' ∉ c.kind.toList := by
    simp [counts, IsWord, sampleChar]
  obtain ⟨hname, hhelp, hkind⟩ := hwords c h
  refine ⟨?_, hname, ?_, ?_⟩
  · simp only [Count.family, List.forall_mem_cons]
    exact ⟨newline_notMem_helpComment hname hhelp, newline_notMem_typeComment hname hkind,
      fun c hc => absurd hc List.not_mem_nil⟩
  · intro r hr l hl
    obtain rfl := List.mem_singleton.1 hr
    exact absurd hl List.not_mem_nil
  · intro r hr
    obtain rfl := List.mem_singleton.1 hr
    exact isWord_digits _

theorem fits_buildFamily (build : Build) : (buildFamily build).Fits := by
  have hname : IsWord "mielofon_build_info".toList := by simp [IsWord, sampleChar]
  refine ⟨?_, hname, ?_, ?_⟩
  · simp only [buildFamily, List.forall_mem_cons]
    exact ⟨newline_notMem_helpComment hname (by simp), newline_notMem_typeComment hname (by simp),
      fun c hc => absurd hc List.not_mem_nil⟩
  · intro r hr
    obtain rfl := List.mem_singleton.1 hr
    simp [IsWord, sampleChar]
  · intro r hr
    obtain rfl := List.mem_singleton.1 hr
    simp [IsWord, sampleChar]

theorem fits_metricsPage [NatCast F] (hshow : ∀ x, IsWord («show» x)) (build : Build)
    (s : PageState F) : ∀ f ∈ metricsPage «show» build s, f.Fits := by
  intro f hf
  simp only [metricsPage, List.mem_append, List.mem_map, List.mem_singleton] at hf
  rcases hf with ((⟨c, hc, rfl⟩ | rfl) | ⟨g, hg, rfl⟩) | ⟨g, hg, rfl⟩
  · exact fits_count hc
  · exact fits_buildFamily build
  · exact (fits_recordFamilies hshow g hg).family _
  · exact (fits_totalFamilies g hg).family _

/-- The names of the page, in its order. -/
def pageNames : List String :=
  ["mielofon_quality_reports_total", "mielofon_probe_failures_total",
    "mielofon_scheduler_throughput_skipped_total", "mielofon_links", "mielofon_agents",
    "mielofon_build_info", "mielofon_link_rtt_ms", "mielofon_link_loss_pct",
    "mielofon_link_jitter_ms", "mielofon_link_tcp_mbps", "mielofon_link_udp_mbps",
    "mielofon_link_udp_jitter_ms", "mielofon_link_udp_loss_pct", "mielofon_link_quality",
    "mielofon_link_ospf_cost", "mielofon_link_mark_loss_pct", "mielofon_link_mark_rate_mbps",
    "mielofon_link_implied_tcp_mbps", "mielofon_link_regime", "mielofon_link_mark_sent_total",
    "mielofon_link_mark_lost_total", "mielofon_link_regime_changes_total"]

theorem names_family {ν : Type*} (table : List (LinkKey × ν)) (fs : List (LinkFamily ν)) :
    (fs.map (LinkFamily.family table)).map Family.name =
      (fs.map LinkFamily.name).map String.toList := by
  simp [LinkFamily.family]

theorem names_metricsPage [NatCast F] (build : Build) (s : PageState F) :
    (metricsPage «show» build s).map Family.name = pageNames.map String.toList := by
  have hcounts : ((counts s).map Count.family).map Family.name =
      ((counts s).map Count.name).map String.toList := by
    simp [Count.family]
  have hparts : pageNames = (counts s).map Count.name ++ ["mielofon_build_info"] ++
      (recordFamilies «show»).map LinkFamily.name ++ totalFamilies.map LinkFamily.name := rfl
  rw [hparts, metricsPage]
  simp only [List.map_append, hcounts, names_family]
  rfl

theorem nodup_names [NatCast F] (build : Build) (s : PageState F) :
    ((metricsPage «show» build s).map Family.name).Nodup := by
  have hnames : pageNames.Nodup := by simp [pageNames]
  rw [names_metricsPage]
  exact hnames.map fun _ _ he => String.toList_inj.1 he

/-- The series of a link in a family of a table. -/
theorem series_linkFamily {ν : Type*} {fs : List Family} (hnames : (fs.map Family.name).Nodup)
    (m : Map LinkKey ν) {f : LinkFamily ν} (hf : f.Fits) (hmem : f.family m.pairs ∈ fs)
    (key : LinkKey) (tags : List Label) (w : List Char) :
    series (fs.flatMap Family.samples) f.name.toList (linkLabels key ++ tags) = some w ↔
      ∃ v, m.get key = some v ∧ (tags, w) ∈ f.rows v := by
  have hseries := series_of_family hnames hmem (linkLabels key ++ tags)
  refine (Eq.congr_left hseries).trans ?_
  refine (find_tableRows separates_linkLabels m.nodup_pairs_keys hf.nodup key tags w).trans ?_
  simp only [Map.mem_pairs]

theorem nodup_rows [NatCast F] (hshow : ∀ x, IsWord («show» x)) (build : Build) (s : PageState F) :
    ∀ f ∈ metricsPage «show» build s, (f.rows.map Prod.fst).Nodup := by
  intro f hf
  simp only [metricsPage, List.mem_append, List.mem_map, List.mem_singleton] at hf
  rcases hf with ((⟨c, -, rfl⟩ | rfl) | ⟨g, hg, rfl⟩) | ⟨g, hg, rfl⟩
  · exact List.nodup_singleton _
  · exact List.nodup_singleton _
  · exact nodup_tableRows separates_linkLabels s.kv.inner.nodup_pairs_keys
      (fits_recordFamilies hshow g hg).nodup
  · exact nodup_tableRows separates_linkLabels s.classifier.totals.nodup_pairs_keys
      (fits_totalFamilies g hg).nodup

/-! ### The series of the page -/

section

variable [NatCast F] (hshow : ∀ x, IsWord («show» x)) (build : Build) (s : PageState F)

/-- The samples of the page. -/
def pageSamples («show» : F → List Char) (build : Build) (s : PageState F) : List Sample :=
  (metricsPage «show» build s).flatMap Family.samples

include hshow in
theorem series_record {f : LinkFamily (QualityRecord F)} (hf : f ∈ recordFamilies «show»)
    (key : LinkKey) (tags : List Label) (w : List Char) :
    series (pageSamples «show» build s) f.name.toList (linkLabels key ++ tags) = some w ↔
      ∃ r, s.kv.get key = some r ∧ (tags, w) ∈ f.rows r := by
  refine series_linkFamily (nodup_names build s) s.kv.inner (fits_recordFamilies hshow f hf) ?_
    key tags w
  exact List.mem_append_left _ (List.mem_append_right _ (List.mem_map_of_mem hf))

include hshow in
theorem series_gauge {g : String × (QualityRecord F → Option F)} (hg : g ∈ linkGauges)
    (key : LinkKey) : series (pageSamples «show» build s) g.1.toList (linkLabels key) =
      ((s.kv.get key).bind g.2).map «show» := by
  have hmem : gaugeFamily «show» g ∈ recordFamilies «show» :=
    List.mem_append_left _ (List.mem_map_of_mem hg)
  refine Option.ext fun w => ?_
  have hseries := series_record hshow build s hmem key [] w
  rw [List.append_nil] at hseries
  refine hseries.trans ?_
  cases hr : s.kv.get key with
  | none => simp
  | some r => simp [gaugeFamily]

include hshow in
theorem series_regime (key : LinkKey) (shape : Regime) :
    series (pageSamples «show» build s) "mielofon_link_regime".toList
        (linkLabels key ++ [("shape".toList, shape.label.toList)]) =
      ((s.kv.get key).bind QualityRecord.regime).map
        fun cur => digits (if shape = cur then 1 else 0) := by
  have hmem : regimeFamily ∈ recordFamilies «show» :=
    List.mem_append_right _ (List.mem_singleton_self _)
  refine Option.ext fun w => ?_
  refine (series_record hshow build s hmem key _ w).trans ?_
  cases hr : s.kv.get key with
  | none => simp
  | some r =>
    cases hcur : r.regime with
    | none => simp [regimeFamily_rows, hcur]
    | some cur =>
      simp only [Option.some.injEq, exists_eq_left', regimeFamily_rows, hcur, Option.map_some,
        Option.getD_some, mem_shapeRow, Option.bind_some]
      exact eq_comm

theorem series_total {f : LinkFamily MarkTotals} (hf : f ∈ totalFamilies) (key : LinkKey)
    (tags : List Label) (w : List Char) :
    series (pageSamples «show» build s) f.name.toList (linkLabels key ++ tags) = some w ↔
      ∃ t, s.classifier.totals.get key = some t ∧ (tags, w) ∈ f.rows t := by
  refine series_linkFamily (nodup_names build s) s.classifier.totals (fits_totalFamilies f hf) ?_
    key tags w
  exact List.mem_append_right _ (List.mem_map_of_mem hf)

theorem series_band {name : String} {small large : MarkTotals → ℕ}
    (hf : bandFamily name small large ∈ totalFamilies) (key : LinkKey) :
    series (pageSamples «show» build s) name.toList (linkLabels key ++ [("band".toList, ['s'])]) =
        ((s.classifier.totals.get key).map fun t => digits (small t)) ∧
      series (pageSamples «show» build s) name.toList (linkLabels key ++ [("band".toList, ['l'])]) =
        (s.classifier.totals.get key).map fun t => digits (large t) := by
  constructor
  · refine Option.ext fun w => (series_total build s hf key _ w).trans ?_
    simp [bandFamily, eq_comm]
  · refine Option.ext fun w => (series_total build s hf key _ w).trans ?_
    simp [bandFamily, eq_comm]

theorem series_changes (key : LinkKey) :
    series (pageSamples «show» build s) "mielofon_link_regime_changes_total".toList
        (linkLabels key) =
      (s.classifier.totals.get key).map fun t => digits t.regime_changes := by
  have hmem : changesFamily ∈ totalFamilies := by simp [totalFamilies]
  refine Option.ext fun w => ?_
  have hseries : series (pageSamples «show» build s) "mielofon_link_regime_changes_total".toList
      (linkLabels key ++ []) = some w ↔
        ∃ t, s.classifier.totals.get key = some t ∧ ([], w) ∈ changesFamily.rows t :=
    series_total build s hmem key [] w
  rw [List.append_nil] at hseries
  refine hseries.trans ?_
  simp [changesFamily, eq_comm]

theorem series_count {c : Count} (hc : c ∈ counts s) :
    series (pageSamples «show» build s) c.name.toList [] = some (digits c.value) := by
  have hmem : c.family ∈ metricsPage «show» build s :=
    List.mem_append_left _ (List.mem_append_left _
      (List.mem_append_left _ (List.mem_map_of_mem hc)))
  refine (series_of_family (nodup_names build s) hmem []).trans ?_
  simp [Count.family]

end

end

end Metrics

open Metrics

/-- **The metrics page.** Whatever the nodes and interfaces are called, the page is read as samples
    of which no two have the same name and labels: each count, each measured dimension of each link
    and nothing in the place of one that is not measured, one flag for each shape of loss, and the
    passive totals. -/
theorem metrics_exact {F : Type*} [NatCast F] («show» : F → List Char)
    (hshow : ∀ x, IsWord («show» x)) (build : Build) (hversion : Plain build.version)
    (hrevision : Plain build.revision) (s : PageState F) :
    ∃ samples, readPage (metricsText «show» build s) = some samples ∧
      (samples.map Sample.key).Nodup ∧
      (∀ c ∈ counts s, series samples c.name.toList [] = some (digits c.value)) ∧
      (∀ g ∈ linkGauges, ∀ key, series samples g.1.toList (linkLabels key) =
        ((s.kv.get key).bind g.2).map «show») ∧
      (∀ key shape, series samples "mielofon_link_regime".toList
          (linkLabels key ++ [("shape".toList, shape.label.toList)]) =
        ((s.kv.get key).bind QualityRecord.regime).map
          fun cur => digits (if shape = cur then 1 else 0)) ∧
      (∀ key, series samples "mielofon_link_mark_sent_total".toList
          (linkLabels key ++ [("band".toList, ['s'])]) =
        (s.classifier.totals.get key).map fun t => digits t.sent_s) ∧
      (∀ key, series samples "mielofon_link_mark_sent_total".toList
          (linkLabels key ++ [("band".toList, ['l'])]) =
        (s.classifier.totals.get key).map fun t => digits t.sent_l) ∧
      (∀ key, series samples "mielofon_link_mark_lost_total".toList
          (linkLabels key ++ [("band".toList, ['s'])]) =
        (s.classifier.totals.get key).map fun t => digits t.lost_s) ∧
      (∀ key, series samples "mielofon_link_mark_lost_total".toList
          (linkLabels key ++ [("band".toList, ['l'])]) =
        (s.classifier.totals.get key).map fun t => digits t.lost_l) ∧
      (∀ key, series samples "mielofon_link_regime_changes_total".toList (linkLabels key) =
        (s.classifier.totals.get key).map fun t => digits t.regime_changes) := by
  have hread := readPage_pageText (fits_metricsPage hshow build s)
  rw [← metricsText_eq «show» hversion hrevision] at hread
  have hsent : bandFamily "mielofon_link_mark_sent_total" MarkTotals.sent_s MarkTotals.sent_l ∈
      totalFamilies := List.mem_cons_self
  have hlost : bandFamily "mielofon_link_mark_lost_total" MarkTotals.lost_s MarkTotals.lost_l ∈
      totalFamilies := List.mem_cons_of_mem _ List.mem_cons_self
  exact ⟨pageSamples «show» build s, hread,
    nodup_samples (nodup_names build s) (nodup_rows hshow build s),
    fun c hc => series_count build s hc, fun g hg key => series_gauge hshow build s hg key,
    series_regime hshow build s, fun key => (series_band build s hsent key).1,
    fun key => (series_band build s hsent key).2, fun key => (series_band build s hlost key).1,
    fun key => (series_band build s hlost key).2, series_changes build s⟩

private def quotedLink : LinkKey := ⟨"hub-a", "hub\"b", "wg0"⟩

/-- A controller with one link, which has an rtt and no loss. -/
private def oneLinkPage : PageState ℕ where
  reports := 12
  probe_failures := 1
  throughput_skipped := 0
  kv := (LwwStore.new.put quotedLink ⟨100, some 20, none, none, none, none, none, none, 0, .quiet,
    some .good, some 100, none, none, none, none⟩).1
  workers := .new
  classifier := .new

theorem metrics_exact_oneLink :
    ∃ samples, readPage (metricsText digits ⟨"1.0", "abc", "rustc \"1\""⟩ oneLinkPage) =
      some samples ∧ series samples "mielofon_link_rtt_ms".toList (linkLabels quotedLink) =
        some (digits 20) ∧
      series samples "mielofon_link_loss_pct".toList (linkLabels quotedLink) = none := by
  obtain ⟨samples, hread, -, -, hgauges, -⟩ := metrics_exact digits isWord_digits
    ⟨"1.0", "abc", "rustc \"1\""⟩ (by simp [Plain]) (by simp [Plain]) oneLinkPage
  have hrecord : oneLinkPage.kv.get quotedLink = some ⟨100, some 20, none, none, none, none, none,
      none, 0, .quiet, some .good, some 100, none, none, none, none⟩ := rfl
  have hrtt := hgauges ("mielofon_link_rtt_ms", QualityRecord.rtt_ms) (by simp [linkGauges]) quotedLink
  have hloss := hgauges ("mielofon_link_loss_pct", QualityRecord.loss_pct) (by simp [linkGauges])
    quotedLink
  rw [hrecord] at hrtt hloss
  exact ⟨samples, hread, hrtt, hloss⟩

end Mielofon
