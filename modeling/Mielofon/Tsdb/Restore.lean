import Mathlib
import Mielofon.Lib.Folds
import Mielofon.Tsdb.History

namespace Mielofon

open Lib

/-!
# Flush, restart and what is left

A restart ingests the raw rows within retention and then takes the buckets that these have not
built.  A bucket whose minute has rows on either side of the raw cut is built from the later ones
alone, the floor of a ring is not restored, and a rebuilt bucket counts the final versions.

* `Tsdb.restart` — the store after a restart;
* `Restored` — what a restart restores of the flushed history;
* `Restorable` — nothing before the raw cut counts, and the minutes rebuilt count the same from
  the final versions;
* `foldl_loadRow`, `foldl_loadBucket` — the two loops of the load;
* `restored_iff` — a history is restored exactly if it is restorable;
* `restart_truncates_minute` — a minute that straddles the raw cut.
-/

variable {F : Type*}

section Restore

variable [LinearOrder F] [Zero F] [AddCommSemigroup F]

namespace Tsdb

/-- The store after a restart. -/
def restart (t : Tsdb F) (now : ℕ) : Tsdb F :=
  match t.db with
  | some db => reopen t.cfg db now
  | none => new t.cfg

/-! ### The rows -/

/-- The rows within retention, under the links they are read back for. -/
def reread (db : Db F) (cut : ℕ) : List (LinkKey × RawSample F) :=
  ((rowsOf db.raw).filter (fun row => cut ≤ row.1.2)).map (fun row => (parseLinkId row.1.1, row.2))

/-- The rows are ingested, but not queued. -/
theorem foldl_loadRow (rows : List ((String × ℕ) × RawSample F)) (now : ℕ) (t : Tsdb F) :
    rows.foldl (loadRow now) t = t.ingestAll false
      ((rows.filter (fun row => t.rawCut now ≤ row.1.2)).map
        (fun row => (parseLinkId row.1.1, row.2))) := by
  induction rows generalizing t with
  | nil => rfl
  | cons row rows ih =>
    rw [List.foldl_cons, ih, loadRow]
    by_cases hold : row.1.2 < t.rawCut now
    · rw [if_pos hold, List.filter_cons_of_neg (by simpa using hold)]
    · have hcut : ((t.ingest (parseLinkId row.1.1) row.2 false).1).rawCut now = t.rawCut now := by
        rw [rawCut, cfg_ingest, rawCut]
      rw [if_neg hold, hcut, List.filter_cons_of_pos (by simpa using hold)]
      rfl

/-- A start ingests the rows within retention and takes the buckets that are missing. -/
theorem reopen_eq (cfg : TsConfig) (db : Db F) (now : ℕ) : reopen cfg db now =
    { (rowsOf db.agg).foldl (loadBucket now)
        ((new cfg).ingestAll false (reread db ((new cfg : Tsdb F).rawCut now))) with
      db := some db } := by
  unfold reopen load
  dsimp only
  rw [foldl_loadRow]
  rfl

/-! ### The buckets -/

omit [LinearOrder F] [Zero F] [AddCommSemigroup F] in
theorem bucketAt_insert (m : Minutes F) (b : Bucket F) (start : ℕ) :
    (m.insert b).bucketAt start = if start = b.bucket then some b else m.bucketAt start :=
  slot_put m.ascending b start

omit [LinearOrder F] [Zero F] [AddCommSemigroup F] in
/-- A bucket is taken where there is none. -/
theorem bucketAt_loadBucket (now : ℕ) (t : Tsdb F) {row : (String × ℕ) × Bucket F}
    (hrow : row.2.bucket = row.1.2) (l : LinkKey) (start : ℕ) :
    ((loadBucket now t row).minutesOf l).bucketAt start = ((t.minutesOf l).bucketAt start).or
      (if parseLinkId row.1.1 = l ∧ row.1.2 = start ∧ t.aggCut now ≤ start then some row.2
        else none) := by
  unfold loadBucket
  -- a row that is too old is not loaded
  by_cases hold : row.1.2 < t.aggCut now
  · rw [if_pos hold, if_neg (by rintro ⟨-, rfl, hcut⟩; omega), Option.or_none]
  rw [if_neg hold]
  dsimp only
  generalize parseLinkId row.1.1 = key
  -- the bucket in the store goes before the row
  split
  · rename_i held hheld
    by_cases heq : key = l ∧ row.1.2 = start ∧ t.aggCut now ≤ start
    · obtain ⟨rfl, rfl, -⟩ := heq
      rw [hheld, Option.some_or]
    · rw [if_neg heq, Option.or_none]
  · rename_i hnone
    have hof : minutesOf
        { t with buckets := t.buckets.set key ((t.minutesOf key).insert row.2) } l =
        if l = key then (t.minutesOf key).insert row.2 else t.minutesOf l := by
      unfold minutesOf
      rw [Map.get_set]
      split <;> rfl
    rw [hof]
    by_cases hl : l = key
    · subst hl
      rw [if_pos rfl, bucketAt_insert, hrow]
      by_cases hs : start = row.1.2
      · subst hs
        rw [if_pos rfl, hnone, if_pos ⟨rfl, rfl, not_lt.mp hold⟩, Option.none_or]
      · rw [if_neg hs, if_neg (fun h => hs h.2.1.symm), Option.or_none]
    · rw [if_neg hl, if_neg (fun h => hl h.1.symm), Option.or_none]

omit [LinearOrder F] [Zero F] [AddCommSemigroup F] in
/-- The loop takes, where there is no bucket, the first of the minute within retention. -/
theorem foldl_loadBucket (rows : List ((String × ℕ) × Bucket F)) {now cut : ℕ} {t : Tsdb F}
    (hcut : t.aggCut now = cut) (hrows : ∀ row ∈ rows, row.2.bucket = row.1.2) (l : LinkKey)
    (start : ℕ) : ((rows.foldl (loadBucket now) t).minutesOf l).bucketAt start =
      ((t.minutesOf l).bucketAt start).or ((rows.find? (fun row =>
        parseLinkId row.1.1 = l ∧ row.1.2 = start ∧ cut ≤ start)).map Prod.snd) := by
  induction rows generalizing t with
  | nil => simp
  | cons row rows ih =>
    have hnext : (loadBucket now t row).aggCut now = cut := by
      unfold loadBucket
      split
      · exact hcut
      · dsimp only
        split <;> exact hcut
    rw [List.foldl_cons, ih hnext (fun r hr => hrows r (List.mem_cons_of_mem _ hr)),
      bucketAt_loadBucket now t (hrows row List.mem_cons_self), hcut, Option.or_assoc]
    congr 1
    by_cases heq : parseLinkId row.1.1 = l ∧ row.1.2 = start ∧ cut ≤ start
    · rw [if_pos heq, List.find?_cons_of_pos (by simpa using heq)]
      rfl
    · rw [if_neg heq, List.find?_cons_of_neg (by simpa using heq), Option.none_or]

omit [LinearOrder F] [Zero F] [AddCommSemigroup F] in
theorem ringOf_foldl_loadBucket (rows : List ((String × ℕ) × Bucket F)) (now : ℕ) (t : Tsdb F)
    (l : LinkKey) : (rows.foldl (loadBucket now) t).ringOf l = t.ringOf l := by
  apply foldl_rel (R := fun t t' : Tsdb F => t'.ringOf l = t.ringOf l) (fun _ => rfl)
    (fun _ _ _ h h' => h'.trans h)
  intro t row
  unfold loadBucket
  split
  · rfl
  · dsimp only
    split <;> rfl

end Tsdb

/-! ### What the flush has written -/

omit [Zero F] [AddCommSemigroup F] in
/-- Copies of one sample are merged to it, and it is counted once. -/
private theorem mergeAll_of_same {v : RawSample F} {ss : List (RawSample F)} (hne : ss ≠ [])
    (h : ∀ x ∈ ss, x = v) : RawSample.mergeAll ss = some v ∧
      ∀ f, counted f none ss = (v.figure f).toList := by
  induction ss using List.reverseRecOn with
  | nil => exact absurd rfl hne
  | append_singleton ss s ih =>
    obtain rfl := h s (List.mem_append_right _ (List.mem_singleton_self _))
    rw [RawSample.mergeAll_concat]
    by_cases hss : ss = []
    · subst hss
      refine ⟨rfl, fun f => ?_⟩
      rw [counted_concat]
      rfl
    · obtain ⟨hmerged, hcounted⟩ := ih hss fun x hx => h x (List.mem_append_left _ hx)
      have hself : RawSample.onto (some s) s = s :=
        RawSample.mergedWith_eq_self_iff.mpr (RawSample.Within.refl s)
      rw [hmerged, hself]
      refine ⟨rfl, fun f => ?_⟩
      rw [counted_concat, hmerged, hself, hcounted f, Option.bind_some]
      cases s.figure f <;> simp

omit [Zero F] [AddCommSemigroup F] in
/-- The rows read back: of every second from the cut on, the final version. -/
def Reread (history rows : List (LinkKey × RawSample F)) (cut : ℕ) : Prop :=
  ∀ l ts x, x ∈ samplesOf rows l ts ↔
    cut ≤ ts ∧ RawSample.mergeAll (samplesOf history l ts) = some x

namespace Reread

variable {history rows : List (LinkKey × RawSample F)} {cut : ℕ}

omit [Zero F] [AddCommSemigroup F]

/-- A second has its final version, or none before the cut. -/
private theorem cases (h : Reread history rows cut) (l : LinkKey) (ts : ℕ) :
    (samplesOf rows l ts = [] ∧ ¬ (cut ≤ ts ∧ samplesOf history l ts ≠ [])) ∨
    ∃ v, cut ≤ ts ∧ RawSample.mergeAll (samplesOf history l ts) = some v ∧
      samplesOf rows l ts ≠ [] ∧ ∀ x ∈ samplesOf rows l ts, x = v := by
  by_cases hold : cut ≤ ts ∧ samplesOf history l ts ≠ []
  · obtain ⟨hcut, hne⟩ := hold
    obtain ⟨v, hv⟩ : ∃ v, RawSample.mergeAll (samplesOf history l ts) = some v := by
      rw [← Option.ne_none_iff_exists']
      exact fun hnone => hne (RawSample.mergeAll_eq_none_iff.mp hnone)
    refine Or.inr ⟨v, hcut, hv, List.ne_nil_of_mem ((h l ts v).mpr ⟨hcut, hv⟩), fun x hx => ?_⟩
    exact Option.some.inj (((h l ts x).mp hx).2.symm.trans hv)
  · refine Or.inl ⟨List.eq_nil_iff_forall_not_mem.mpr fun x hx => hold ?_, hold⟩
    obtain ⟨hcut, hv⟩ := (h l ts x).mp hx
    refine ⟨hcut, fun hnil => ?_⟩
    rw [hnil] at hv
    exact absurd hv (by simp)

theorem eq_nil_iff (h : Reread history rows cut) {l : LinkKey} {ts : ℕ} :
    samplesOf rows l ts = [] ↔ ¬ (cut ≤ ts ∧ samplesOf history l ts ≠ []) := by
  rcases h.cases l ts with ⟨hnil, hold⟩ | ⟨v, hcut, hv, hne, -⟩
  · exact ⟨fun _ => hold, fun _ => hnil⟩
  · refine ⟨fun hnil => absurd hnil hne, fun hold => absurd ⟨hcut, fun hnil => ?_⟩ hold⟩
    rw [hnil] at hv
    exact absurd hv (by simp)

theorem mergeAll_eq (h : Reread history rows cut) (l : LinkKey) (ts : ℕ) :
    RawSample.mergeAll (samplesOf rows l ts) =
      if cut ≤ ts then RawSample.mergeAll (samplesOf history l ts) else none := by
  rcases h.cases l ts with ⟨hnil, hold⟩ | ⟨v, hcut, hv, hne, hsame⟩
  · rw [hnil]
    split
    · rename_i hcut
      have hempty : samplesOf history l ts = [] := by
        by_contra hne
        exact hold ⟨hcut, hne⟩
      rw [hempty]
    · rfl
  · rw [(mergeAll_of_same hne hsame).1, if_pos hcut, hv]

/-- A second is counted with its final version. -/
theorem counted_eq (h : Reread history rows cut) (l : LinkKey) (ts : ℕ) (f : Figure) :
    counted f none (samplesOf rows l ts) = if cut ≤ ts then
      ((RawSample.mergeAll (samplesOf history l ts)).bind (·.figure f)).toList else [] := by
  rcases h.cases l ts with ⟨hnil, hold⟩ | ⟨v, hcut, hv, hne, hsame⟩
  · rw [hnil]
    split
    · rename_i hcut
      have hempty : samplesOf history l ts = [] := by
        by_contra hne
        exact hold ⟨hcut, hne⟩
      rw [hempty]
      rfl
    · rfl
  · rw [(mergeAll_of_same hne hsame).2, if_pos hcut, hv]
    rfl

/-- A row has a sample of its second in the history. -/
private theorem exists_sample (h : Reread history rows cut) {l : LinkKey} {x : RawSample F}
    (hx : (l, x) ∈ rows) (hpos : 0 < x.ts) : ∃ y, (l, y) ∈ history ∧ y.ts = x.ts := by
  obtain ⟨-, hv⟩ := (h l x.ts x).mp (mem_samplesOf.mpr ⟨hx, rfl, hpos⟩)
  have hne : samplesOf history l x.ts ≠ [] := fun hnil => by simp [hnil] at hv
  obtain ⟨y, hy⟩ := List.exists_mem_of_ne_nil _ hne
  obtain ⟨hmem, hts, -⟩ := mem_samplesOf.mp hy
  exact ⟨y, hmem, hts⟩

/-- The rows take no more room than the history, nor does a sample delivered again. -/
theorem room (h : Reread history rows cut) (hcap : WithinCapacity history) {l : LinkKey}
    {s : RawSample F} (hs : (l, s) ∈ history) :
    (secondsAbove 0 (batchOf (rows ++ [(l, s)]) l)).card ≤ rawRingCap := by
  apply (Finset.card_le_card _).trans (hcap l)
  intro ts hts
  obtain ⟨hpos, x, hx, rfl⟩ := mem_secondsAbove.mp hts
  rcases List.mem_append.mp (mem_batchOf.mp hx) with hx | hx
  · obtain ⟨y, hmem, hts⟩ := h.exists_sample hx hpos
    exact mem_secondsAbove.mpr ⟨hpos, y, mem_batchOf.mpr hmem, hts⟩
  · rw [List.mem_singleton, Prod.mk.injEq] at hx
    exact mem_secondsAbove.mpr ⟨hpos, s, mem_batchOf.mpr hs, by rw [hx.2]⟩

theorem withinCapacity (h : Reread history rows cut) (hcap : WithinCapacity history) :
    WithinCapacity rows := by
  intro l
  apply (Finset.card_le_card _).trans (hcap l)
  intro ts hts
  obtain ⟨hpos, x, hx, rfl⟩ := mem_secondsAbove.mp hts
  obtain ⟨y, hmem, hts⟩ := h.exists_sample (mem_batchOf.mp hx) hpos
  exact mem_secondsAbove.mpr ⟨hpos, y, mem_batchOf.mpr hmem, hts⟩

end Reread

/-! ### The tables of a first flush -/

section Written

variable {t : Tsdb F} {history : List (LinkKey × RawSample F)} {rawCut aggCut : ℕ}

/-- The final version of a second holds under that second. -/
theorem ts_of_mergeAll (h : t.Holds history) {l : LinkKey} {ts : ℕ} {x : RawSample F}
    (hx : RawSample.mergeAll (samplesOf history l ts) = some x) : x.ts = ts :=
  Ring.ts_of_sampleAt ((h.rings l ts).trans hx)

omit [Zero F] [AddCommSemigroup F] in
theorem pos_of_mergeAll {l : LinkKey} {ts : ℕ} {x : RawSample F}
    (hx : RawSample.mergeAll (samplesOf history l ts) = some x) :
    0 < ts ∧ ∃ s, (l, s) ∈ history := by
  have hne : samplesOf history l ts ≠ [] := fun hnil => by simp [hnil] at hx
  obtain ⟨y, hy⟩ := List.exists_mem_of_ne_nil _ hne
  obtain ⟨hmem, rfl, hpos⟩ := mem_samplesOf.mp hy
  exact ⟨hpos, y, hmem⟩

omit [Zero F] [AddCommSemigroup F] in
/-- The raw table: the final versions from the cut on. -/
theorem raw_written (hq : t.Queued history) (hplain : ∀ p ∈ history, p.1.Plain) {l : LinkKey}
    (hl : l.Plain) (ts : ℕ) :
    ((Db.empty.write t.pending t.dirty.pairs rawCut aggCut).raw.get (l.id, ts)) =
      if ts < rawCut then none else RawSample.mergeAll (samplesOf history l ts) := by
  have hid : ∀ p ∈ t.pending, p.1.id = l.id → p.1 = l := by
    intro p hp heq
    obtain ⟨s, hs⟩ := hq.links p hp
    exact (hplain _ hs).eq_of_id_eq hl heq
  have hrow := (Db.get_insertRaw (∅ : Map (String × ℕ) (RawSample F)) t.pending hid ts).trans
    (Option.or_none)
  show ((Db.insertRaw ∅ t.pending).retain _).get _ = _
  rw [Map.get_retain, hrow, show lastRowOf l ts t.pending = _ from hq.rows l ts]
  cases RawSample.mergeAll (samplesOf history l ts) with
  | none => simp
  | some x => by_cases hcut : ts < rawCut <;> simp [hcut]

omit [Zero F] [AddCommSemigroup F] in
theorem exists_of_raw (hq : t.Queued history) {k : String × ℕ} {x : RawSample F}
    (hx : (Db.empty.write t.pending t.dirty.pairs rawCut aggCut).raw.get k = some x) :
    ∃ l s, (l, s) ∈ history ∧ k.1 = l.id := by
  have hx : ((Db.insertRaw ∅ t.pending).retain (fun k _ => !(k.2 < rawCut))).get k = some x := hx
  rw [Map.get_retain, Option.filter_eq_some_iff, Db.insertRaw,
    Map.get_foldl_set (fun p : LinkKey × RawSample F => (p.1.id, p.2.ts)) Prod.snd,
    Map.get_empty, Option.or_none, Option.map_eq_some_iff] at hx
  obtain ⟨⟨p, hlast, -⟩, -⟩ := hx
  obtain ⟨hp, hkey⟩ := mem_of_lastSuch hlast
  obtain ⟨s, hs⟩ := hq.links p hp
  exact ⟨p.1, s, hs, (congrArg Prod.fst (of_decide_eq_true hkey)).symm⟩

/-- A dirty bucket is one of a link of the history. -/
private theorem exists_of_dirty (hd : t.AllDirty) (h : t.Holds history) {k : LinkKey × ℕ}
    (hk : k ∈ t.dirty) : ∃ s, (k.1, s) ∈ history := by
  obtain ⟨b, hb⟩ := Map.exists_get_of_mem hk
  rw [show k = (k.1, k.2) from rfl, hd] at hb
  obtain ⟨⟨ts, -, hne⟩, -⟩ := h.present _ _ _ hb
  obtain ⟨y, hy⟩ := List.exists_mem_of_ne_nil _ hne
  exact ⟨y, (mem_samplesOf.mp hy).1⟩

/-- The aggregate table: the buckets from the cut on. -/
theorem agg_written (hd : t.AllDirty) (h : t.Holds history) (hplain : ∀ p ∈ history, p.1.Plain)
    {l : LinkKey} (hl : l.Plain) (start : ℕ) :
    ((Db.empty.write t.pending t.dirty.pairs rawCut aggCut).agg.get (l.id, start)) =
      if start < aggCut then none else (t.minutesOf l).bucketAt start := by
  have hid : ∀ k ∈ t.dirty, k.1.id = l.id → k.1 = l := by
    intro k hk heq
    obtain ⟨s, hs⟩ := exists_of_dirty hd h hk
    exact (hplain _ hs).eq_of_id_eq hl heq
  have hrow := (Db.get_insertAgg (∅ : Map (String × ℕ) (Bucket F)) t.dirty hid start).trans
    (Option.or_none)
  show ((Db.insertAgg ∅ t.dirty.pairs).retain _).get _ = _
  rw [Map.get_retain, hrow, hd]
  cases (t.minutesOf l).bucketAt start with
  | none => simp
  | some x => by_cases hcut : start < aggCut <;> simp [hcut]

theorem exists_of_agg (hd : t.AllDirty) (h : t.Holds history) {k : String × ℕ} {x : Bucket F}
    (hx : (Db.empty.write t.pending t.dirty.pairs rawCut aggCut).agg.get k = some x) :
    (∃ l s, (l, s) ∈ history ∧ k.1 = l.id) ∧ x.bucket = k.2 := by
  have hx : ((Db.insertAgg ∅ t.dirty.pairs).retain (fun k _ => !(k.2 < aggCut))).get k = some x := hx
  rw [Map.get_retain, Option.filter_eq_some_iff, Db.insertAgg,
    Map.get_foldl_set (fun e : (LinkKey × ℕ) × Bucket F => (e.1.1.id, e.1.2)) Prod.snd,
    Map.get_empty, Option.or_none, Option.map_eq_some_iff] at hx
  obtain ⟨⟨e, hlast, rfl⟩, -⟩ := hx
  obtain ⟨he, hkey⟩ := mem_of_lastSuch hlast
  have hget := Map.mem_pairs.mp he
  obtain rfl := of_decide_eq_true hkey
  obtain ⟨s, hs⟩ := exists_of_dirty hd h (Map.mem_of_get hget)
  refine ⟨⟨e.1.1, s, hs, rfl⟩, ?_⟩
  rw [show e.1 = (e.1.1, e.1.2) from rfl, hd] at hget
  exact key_of_slot (t.minutesOf e.1.1).ascending hget

/-- **The rows read back.** -/
theorem reread_written (hq : t.Queued history) (h : t.Holds history)
    (hplain : ∀ p ∈ history, p.1.Plain) {cut : ℕ} (hcut : rawCut ≤ cut) :
    Reread history
      (Tsdb.reread (Db.empty.write t.pending t.dirty.pairs rawCut aggCut) cut) cut := by
  intro l ts x
  rw [mem_samplesOf, Tsdb.reread, List.mem_map]
  constructor
  · rintro ⟨⟨row, hrow, heq⟩, rfl, hpos⟩
    obtain ⟨hmem, hage⟩ := List.mem_filter.mp hrow
    have hget := mem_rowsOf.mp hmem
    obtain ⟨l', s, hs, hid⟩ := exists_of_raw hq hget
    rw [Prod.mk.injEq, hid, parseLinkId_id (hplain _ hs)] at heq
    obtain ⟨rfl, rfl⟩ := heq
    have hage : cut ≤ row.1.2 := of_decide_eq_true hage
    rw [show row.1 = (l'.id, row.1.2) from Prod.ext hid rfl,
      raw_written hq hplain (hplain _ hs), if_neg (by omega)] at hget
    rw [ts_of_mergeAll h hget]
    exact ⟨hage, hget⟩
  · rintro ⟨hage, hx⟩
    obtain ⟨hpos, s, hs⟩ := pos_of_mergeAll hx
    have hts := ts_of_mergeAll h hx
    refine ⟨⟨((l.id, ts), x), ?_, ?_⟩, hts, hts.symm ▸ hpos⟩
    · rw [List.mem_filter, mem_rowsOf]
      refine ⟨?_, decide_eq_true hage⟩
      rw [raw_written hq hplain (hplain _ hs), if_neg (by omega), hx]
    · dsimp only
      rw [parseLinkId_id (hplain _ hs)]

/-- **The buckets read back.** -/
theorem find_written (hd : t.AllDirty) (h : t.Holds history) (hplain : ∀ p ∈ history, p.1.Plain)
    {cut : ℕ} (hcut : aggCut ≤ cut) (l : LinkKey) (start : ℕ) :
    ((rowsOf (Db.empty.write t.pending t.dirty.pairs rawCut aggCut).agg).find? (fun row =>
        parseLinkId row.1.1 = l ∧ row.1.2 = start ∧ cut ≤ start)).map Prod.snd =
      if cut ≤ start then (t.minutesOf l).bucketAt start else none := by
  cases hfind : (rowsOf (Db.empty.write t.pending t.dirty.pairs rawCut aggCut).agg).find?
      (fun row => parseLinkId row.1.1 = l ∧ row.1.2 = start ∧ cut ≤ start) with
  | some row =>
    have hkey := List.find?_some hfind
    have hget := mem_rowsOf.mp (List.mem_of_find?_eq_some hfind)
    obtain ⟨⟨l', s, hs, hid⟩, -⟩ := exists_of_agg hd h hget
    rw [decide_eq_true_eq, hid, parseLinkId_id (hplain _ hs)] at hkey
    obtain ⟨rfl, rfl, hage⟩ := hkey
    rw [show row.1 = (l'.id, row.1.2) from Prod.ext hid rfl,
      agg_written hd h hplain (hplain _ hs), if_neg (by omega)] at hget
    rw [if_pos hage, hget]
    rfl
  | none =>
    split
    · rename_i hage
      cases hb : (t.minutesOf l).bucketAt start with
      | none => rfl
      | some x =>
        -- the bucket has a row
        obtain ⟨⟨ts, -, hne⟩, -⟩ := h.present _ _ _ hb
        obtain ⟨y, hy⟩ := List.exists_mem_of_ne_nil _ hne
        have hl := hplain _ (mem_samplesOf.mp hy).1
        have hrow : ((l.id, start), x) ∈
            rowsOf (Db.empty.write t.pending t.dirty.pairs rawCut aggCut).agg := by
          rw [mem_rowsOf, agg_written hd h hplain hl, if_neg (by omega), hb]
        have hnot := List.find?_eq_none.mp hfind _ hrow
        rw [decide_eq_true_eq] at hnot
        exact absurd ⟨parseLinkId_id hl, rfl, hage⟩ hnot
    · rfl

end Written

/-! ### What is restored -/

/-- What a restart restores of the history a store held: the samples from the raw cut on, the
    buckets from the aggregate cut on, and no bucket counts a sample that is delivered again. -/
structure Restored (history : List (LinkKey × RawSample F)) (t restarted : Tsdb F) (later : ℕ) :
    Prop where
  ascending : ∀ l, Ascending RawSample.ts (restarted.ringOf l).samples
  rings : ∀ l, (restarted.ringOf l).samples =
    (t.ringOf l).samples.filter (fun s => t.rawCut later ≤ s.ts)
  buckets : ∀ l start, t.aggCut later ≤ start →
    (restarted.minutesOf l).bucketAt start = (t.minutesOf l).bucketAt start
  replay : ∀ p ∈ history, ∀ l, (restarted.append p.1 p.2).minutesOf l = restarted.minutesOf l

omit [LinearOrder F] [Zero F] [AddCommSemigroup F] in
/-- A row of the minute is read back. -/
def Rebuilds (history : List (LinkKey × RawSample F)) (rawCut : ℕ) (l : LinkKey) (start : ℕ) :
    Prop :=
  ∃ s, (l, s) ∈ history ∧ bucketTs s.ts = start ∧ 0 < s.ts ∧ rawCut ≤ s.ts

/-- The values of the final versions of a minute, from the raw cut on. -/
def finalsIn (history : List (LinkKey × RawSample F)) (rawCut : ℕ) (l : LinkKey) (start : ℕ)
    (f : Figure) : List F :=
  minuteValues start (fun ts => if rawCut ≤ ts then
    ((RawSample.mergeAll (samplesOf history l ts)).bind (·.figure f)).toList else [])

/-- A sample before the raw cut has no value of any figure, and its minute is loaded; in a minute
    that is rebuilt, what its seconds were counted with and the final versions read back have
    the same count, sum, minimum and maximum. -/
structure Restorable (history : List (LinkKey × RawSample F)) (rawCut aggCut : ℕ) : Prop where
  older : ∀ p ∈ history, 0 < p.2.ts → p.2.ts < rawCut → (∀ f, p.2.figure f = none) ∧
    (aggCut ≤ bucketTs p.2.ts ∨ Rebuilds history rawCut p.1 (bucketTs p.2.ts))
  rebuilt : ∀ l start, aggCut ≤ start → Rebuilds history rawCut l start → ∀ f,
    aggregate (countedIn history l start f) = aggregate (finalsIn history rawCut l start f)

/-! ### A sample delivered again -/

/-- A roll-up leaves a bucket as it is if it counts nothing. -/
theorem rolled_eq_self_iff {held : Option (Bucket F)} {acc : Accepted F}
    (hheld : ∀ b ∈ held, b.bucket = bucketTs acc.sample.ts ∧ b.n = (b.figure .util).n) :
    some (Minutes.rolled held acc) = held ↔ held.isSome ∧
      ∀ f, acc.sample.figure f = none ∨ acc.merged_from.bind (·.figure f) ≠ none := by
  cases held with
  | none => simp
  | some b =>
    obtain ⟨hstart, hn⟩ := hheld b rfl
    rw [Option.some.injEq]
    constructor
    · intro heq
      refine ⟨rfl, fun f => ?_⟩
      by_contra hcon
      rw [not_or, not_not] at hcon
      -- the count of the figure would have grown
      have hfigure : ((Minutes.rolled (some b) acc).figure f).n = (b.figure f).n := by rw [heq]
      rw [figure_rolled, DimAgg.count_n, if_pos ⟨Option.isSome_iff_ne_none.mpr hcon.1, hcon.2⟩] at hfigure
      omega
    · rintro ⟨-, hnothing⟩
      have hfigure : ∀ f, (Minutes.rolled (some b) acc).figure f = b.figure f := by
        intro f
        rw [figure_rolled]
        dsimp only
        rcases hnothing f with hnone | hsome
        · rw [hnone]
          rfl
        · obtain ⟨w, hw⟩ := Option.ne_none_iff_exists'.mp hsome
          rw [hw]
          cases acc.sample.figure f <;> rfl
      apply Bucket.ext_figures _ _ hfigure
      · rw [hstart]
        exact Minutes.rolled_bucket fun x hx => (hheld x hx).1
      · rw [n_rolled (fun x hx => (hheld x hx).2), hfigure, hn]

/-- An accepted sample leaves the buckets if it leaves the one of its minute. -/
private theorem minutes_append_iff {t : Tsdb F} {link : LinkKey} {s : RawSample F} {acc : Accepted F}
    (hacc : ((t.ringOf link).offer s).2 = some acc) :
    (∀ l, (t.append link s).minutesOf l = t.minutesOf l) ↔
      some (Minutes.rolled ((t.minutesOf link).bucketAt (bucketTs s.ts)) acc) =
        (t.minutesOf link).bucketAt (bucketTs s.ts) := by
  have hspec := t.ringOf_offer_spec link s
  rw [hacc] at hspec
  have hbucket : ∀ l start, ((t.append link s).minutesOf l).bucketAt start =
      if link = l ∧ bucketTs s.ts = start then
        some (Minutes.rolled ((t.minutesOf l).bucketAt start) acc)
      else (t.minutesOf l).bucketAt start := by
    intro l start
    rw [Tsdb.append, Tsdb.minutesOf_ingest true hacc, Tsdb.bucketAt_bucketSection, hspec.stamped]
  constructor
  · intro hsame
    have hat := hbucket link (bucketTs s.ts)
    rw [if_pos ⟨rfl, rfl⟩, hsame link] at hat
    exact hat.symm
  · intro heq l
    apply Minutes.ext_bucketAt
    intro start
    rw [hbucket]
    split
    · rename_i hat
      obtain ⟨rfl, rfl⟩ := hat
      exact heq
    · rfl

omit [Zero F] [AddCommSemigroup F] in
/-- The final version states whatever one of its samples does. -/
private theorem stated_mergeAll {ss : List (RawSample F)} {s v : RawSample F} (hs : s ∈ ss)
    (hv : RawSample.mergeAll ss = some v) : s.Stated v := by
  induction ss using List.reverseRecOn generalizing v with
  | nil => exact absurd hs List.not_mem_nil
  | append_singleton ss x ih =>
    rw [RawSample.mergeAll_concat, Option.some.injEq] at hv
    subst hv
    rcases List.mem_append.mp hs with hs | hs
    · cases hheld : RawSample.mergeAll ss with
      | none =>
        rw [RawSample.mergeAll_eq_none_iff.mp hheld] at hs
        exact absurd hs List.not_mem_nil
      | some w => exact (ih hs hheld).mergedWith x
    · obtain rfl := List.mem_singleton.mp hs
      cases RawSample.mergeAll ss with
      | none => exact (RawSample.Within.refl s).stated
      | some w => exact (RawSample.within_mergedWith_right w s).stated

omit [Zero F] [AddCommSemigroup F] in
/-- Merged onto its own final version, a sample adds no value. -/
private theorem figure_onto_final {ss : List (RawSample F)} {s v : RawSample F} (hs : s ∈ ss)
    (hv : RawSample.mergeAll ss = some v) (f : Figure) :
    (v.mergedWith s).figure f = none ∨ v.figure f ≠ none := by
  have hstated := stated_mergeAll hs hv
  by_cases hnone : v.figure f = none
  · left
    cases f with
    | dim d =>
      have hd := hstated.isSome_dim_mergedWith d
      rw [show v.dim d = none from hnone] at hd
      exact Option.not_isSome_iff_eq_none.mp (fun hsome => absurd (hd.symm.trans hsome) (by simp))
    | util =>
      unfold RawSample.figure at hnone ⊢
      dsimp only at hnone ⊢
      rw [hstated.isProbe_mergedWith]
      split at hnone
      · exact absurd hnone (by simp)
      · rename_i hno
        rw [if_neg hno]
  · exact Or.inr hnone

/-! ### A restart -/

/-- The store after a restart: the rings of the rows read back, and their buckets where there
    are any, else those of the flushed store. -/
structure Restarted (history rows : List (LinkKey × RawSample F)) (t rebuilt restarted : Tsdb F)
    (later : ℕ) : Prop where
  reread : Reread history rows (t.rawCut later)
  holds : rebuilt.Holds rows
  rings : ∀ l, restarted.ringOf l = rebuilt.ringOf l
  buckets : ∀ l start, (restarted.minutesOf l).bucketAt start =
    ((rebuilt.minutesOf l).bucketAt start).or
      (if t.aggCut later ≤ start then (t.minutesOf l).bucketAt start else none)

/-- **A flush and a restart.** -/
theorem restarted_flush {t : Tsdb F} {history : List (LinkKey × RawSample F)}
    (h : t.Holds history) (hq : t.Queued history) (hd : t.AllDirty) (hdb : t.db = some Db.empty)
    (hplain : ∀ p ∈ history, p.1.Plain) (hcap : WithinCapacity history) {now later : ℕ}
    (hlater : now ≤ later) : ∃ rows rebuilt, Restarted history rows t rebuilt
      ((t.flush now .committed).restart later) later := by
  -- after a committed flush the database is all that counts
  have heq : (t.flush now .committed).restart later = Tsdb.reopen t.cfg
      (Db.empty.write t.pending t.dirty.pairs (t.rawCut now) (t.aggCut now)) later := by
    rw [Tsdb.flush, hdb, if_pos (by rfl)]
    simp only [Tsdb.drain, Tsdb.settle, hdb, Option.map_some, Tsdb.restart]
    rfl
  have hraw : t.rawCut now ≤ t.rawCut later := Nat.sub_le_sub_right hlater _
  have hagg : t.aggCut now ≤ t.aggCut later := Nat.sub_le_sub_right hlater _
  have hrows : Reread history (Tsdb.reread
      (Db.empty.write t.pending t.dirty.pairs (t.rawCut now) (t.aggCut now)) (t.rawCut later))
      (t.rawCut later) := reread_written hq h hplain hraw
  rw [heq, Tsdb.reopen_eq]
  refine ⟨_, _, hrows,
    Tsdb.holds_history (Tsdb.blank_new t.cfg) (hrows.withinCapacity hcap) false, fun l => ?_,
    fun l start => ?_⟩
  · exact Tsdb.ringOf_foldl_loadBucket _ _ _ l
  · have hbuckets : ∀ row ∈
        rowsOf (Db.empty.write t.pending t.dirty.pairs (t.rawCut now) (t.aggCut now)).agg,
        row.2.bucket = row.1.2 := by
      intro row hrow
      exact (exists_of_agg hd h (mem_rowsOf.mp hrow)).2
    have hcut : ((Tsdb.new t.cfg).ingestAll false (Tsdb.reread
        (Db.empty.write t.pending t.dirty.pairs (t.rawCut now) (t.aggCut now))
          (t.rawCut later))).aggCut later = t.aggCut later := by
      rw [Tsdb.aggCut, Tsdb.cfg_ingestAll]
      rfl
    have hload := Tsdb.foldl_loadBucket _ hcut hbuckets l start
    exact hload.trans (congrArg _ (find_written hd h hplain hagg l start))

namespace Restarted

variable {history rows : List (LinkKey × RawSample F)} {t rebuilt restarted : Tsdb F} {later : ℕ}

/-- A minute is rebuilt if one of its rows is read back. -/
theorem rebuilt_isSome_iff (hr : Restarted history rows t rebuilt restarted later) {l : LinkKey}
    {start : ℕ} : ((rebuilt.minutesOf l).bucketAt start).isSome ↔
      Rebuilds history (t.rawCut later) l start := by
  constructor
  · intro hsome
    obtain ⟨x, hx⟩ := Option.isSome_iff_exists.mp hsome
    obtain ⟨⟨ts, rfl, hne⟩, -⟩ := hr.holds.present l start x hx
    rw [ne_eq, hr.reread.eq_nil_iff, not_not] at hne
    obtain ⟨hcut, hne⟩ := hne
    obtain ⟨s, hs⟩ := List.exists_mem_of_ne_nil _ hne
    obtain ⟨hmem, rfl, hpos⟩ := mem_samplesOf.mp hs
    exact ⟨s, hmem, rfl, hpos, hcut⟩
  · rintro ⟨s, hmem, rfl, hpos, hcut⟩
    by_contra hnone
    have hnil := hr.holds.missing l s.ts (Option.not_isSome_iff_eq_none.mp hnone)
    rw [hr.reread.eq_nil_iff] at hnil
    apply hnil
    exact ⟨hcut, List.ne_nil_of_mem (mem_samplesOf.mpr ⟨hmem, rfl, hpos⟩)⟩

/-- A minute that is rebuilt aggregates the final versions read back. -/
theorem figure_rebuilt (hr : Restarted history rows t rebuilt restarted later) {l : LinkKey}
    {start : ℕ} {x : Bucket F} (hx : (rebuilt.minutesOf l).bucketAt start = some x) (f : Figure) :
    x.figure f = aggregate (finalsIn history (t.rawCut later) l start f) := by
  rw [(hr.holds.present l start x hx).2.2 f]
  congr 1
  exact minuteValues_congr fun ts _ _ => hr.reread.counted_eq l ts f

/-- The samples from the raw cut on are restored. -/
theorem samples_eq (hr : Restarted history rows t rebuilt restarted later) (h : t.Holds history)
    (l : LinkKey) : (restarted.ringOf l).samples =
      (t.ringOf l).samples.filter (fun s => t.rawCut later ≤ s.ts) := by
  have hasc := (t.ringOf l).ascending
  have hfilter : Ascending RawSample.ts
      ((t.ringOf l).samples.filter (fun s => t.rawCut later ≤ s.ts)) :=
    hasc.sublist List.filter_sublist
  apply (restarted.ringOf l).ascending.eq_of_slot hfilter
  intro ts
  have hat : slot RawSample.ts ts (restarted.ringOf l).samples = if t.rawCut later ≤ ts then
      RawSample.mergeAll (samplesOf history l ts) else none := by
    rw [hr.rings, ← hr.reread.mergeAll_eq]
    exact hr.holds.rings l ts
  rw [hat]
  ext x
  rw [slot_eq_some_iff hfilter, List.mem_filter, decide_eq_true_eq]
  constructor
  · intro hx
    split at hx
    · rename_i hcut
      obtain ⟨hmem, hts⟩ := Ring.sampleAt_eq_some_iff.mp ((h.rings l ts).trans hx)
      exact ⟨⟨hmem, hts.symm ▸ hcut⟩, hts⟩
    · exact absurd hx (by simp)
  · rintro ⟨⟨hmem, hcut⟩, rfl⟩
    rw [if_pos hcut, ← h.rings]
    exact Ring.sampleAt_of_mem hmem

/-- The buckets from the aggregate cut on are restored if those rebuilt are the same. -/
theorem buckets_iff (hr : Restarted history rows t rebuilt restarted later) (h : t.Holds history) :
    (∀ l start, t.aggCut later ≤ start →
      (restarted.minutesOf l).bucketAt start = (t.minutesOf l).bucketAt start) ↔
    ∀ l start, t.aggCut later ≤ start → Rebuilds history (t.rawCut later) l start → ∀ f,
      aggregate (countedIn history l start f) =
        aggregate (finalsIn history (t.rawCut later) l start f) := by
  constructor
  · intro hsame l start hcut hrebuilds f
    obtain ⟨x, hx⟩ := Option.isSome_iff_exists.mp (hr.rebuilt_isSome_iff.mpr hrebuilds)
    have heq := hsame l start hcut
    rw [hr.buckets, hx, Option.some_or] at heq
    rw [← hr.figure_rebuilt hx f, ← (h.present l start x heq.symm).2.2 f]
  · intro hfigures l start hcut
    rw [hr.buckets, if_pos hcut]
    cases hx : (rebuilt.minutesOf l).bucketAt start with
    | none => rw [Option.none_or]
    | some x =>
      have hrebuilds := hr.rebuilt_isSome_iff.mp (Option.isSome_iff_exists.mpr ⟨x, hx⟩)
      rw [Option.some_or]
      cases hy : (t.minutesOf l).bucketAt start with
      | none =>
        -- the flushed store has a bucket of every minute with a sample
        obtain ⟨s, hmem, rfl, hpos, -⟩ := hrebuilds
        have hnil := h.missing l s.ts hy
        have hs := mem_samplesOf.mpr ⟨hmem, rfl, hpos⟩
        rw [hnil] at hs
        exact absurd hs List.not_mem_nil
      | some y =>
        have hfigure : ∀ f, x.figure f = y.figure f := by
          intro f
          rw [hr.figure_rebuilt hx, (h.present l start y hy).2.2 f]
          exact (hfigures l start hcut hrebuilds f).symm
        have hstart : x.bucket = y.bucket := by
          rw [key_of_slot (rebuilt.minutesOf l).ascending hx,
            key_of_slot (t.minutesOf l).ascending hy]
        have hn : x.n = y.n := by
          rw [(hr.holds.present l start x hx).2.1, (h.present l start y hy).2.1, hfigure]
        rw [Bucket.ext_figures hstart hn hfigure]

/-- A bucket of the restarted store: its start and its count. -/
private theorem bucket_valid (hr : Restarted history rows t rebuilt restarted later)
    (h : t.Holds history) {l : LinkKey} {start : ℕ} {b : Bucket F}
    (hb : (restarted.minutesOf l).bucketAt start = some b) :
    b.bucket = start ∧ b.n = (b.figure .util).n := by
  refine ⟨key_of_slot (restarted.minutesOf l).ascending hb, ?_⟩
  rw [hr.buckets, Option.or_eq_some_iff] at hb
  rcases hb with hx | ⟨-, hy⟩
  · exact (hr.holds.present l start b hx).2.1
  · split at hy
    · exact (h.present l start b hy).2.1
    · exact absurd hy (by simp)

/-- The minute of a sample of the history is loaded if it is rebuilt or within retention. -/
private theorem loaded_iff (hr : Restarted history rows t rebuilt restarted later)
    (h : t.Holds history) {l : LinkKey} {s : RawSample F} (hs : (l, s) ∈ history)
    (hpos : 0 < s.ts) : ((restarted.minutesOf l).bucketAt (bucketTs s.ts)).isSome ↔
      t.aggCut later ≤ bucketTs s.ts ∨ Rebuilds history (t.rawCut later) l (bucketTs s.ts) := by
  have hflushed : ((t.minutesOf l).bucketAt (bucketTs s.ts)).isSome := by
    by_contra hnone
    have hnil := h.missing l s.ts (Option.not_isSome_iff_eq_none.mp hnone)
    have hmem := mem_samplesOf.mpr ⟨hs, rfl, hpos⟩
    rw [hnil] at hmem
    exact absurd hmem List.not_mem_nil
  rw [hr.buckets, Option.isSome_or, Bool.or_eq_true, hr.rebuilt_isSome_iff, or_comm]
  split
  · rename_i hcut
    simp [hflushed, hcut]
  · rename_i hcut
    simp [hcut]

/-- A sample delivered again leaves the buckets if it is read back, or counts nothing and its
    minute is loaded. -/
theorem replay_iff (hr : Restarted history rows t rebuilt restarted later) (h : t.Holds history)
    (hcap : WithinCapacity history) {link : LinkKey} {s : RawSample F} (hs : (link, s) ∈ history) :
    (∀ l, (restarted.append link s).minutesOf l = restarted.minutesOf l) ↔
      (0 < s.ts → s.ts < t.rawCut later → (∀ f, s.figure f = none) ∧
        (t.aggCut later ≤ bucketTs s.ts ∨
          Rebuilds history (t.rawCut later) link (bucketTs s.ts))) := by
  have hcases := hr.holds.offer_cases (hr.reread.room hcap hs)
  rw [← hr.rings, hr.reread.mergeAll_eq] at hcases
  rcases hcases with ⟨hacc, hold⟩ | ⟨hacc, hpos, -⟩
  · -- refused: the second is held
    have hsame : ∀ l, (restarted.append link s).minutesOf l = restarted.minutesOf l := by
      intro l
      rw [Tsdb.append, Tsdb.ingest_of_refused true hacc]
      rfl
    refine ⟨fun _ hpos hlt => ?_, fun _ => hsame⟩
    rcases hold with hzero | ⟨held, hheld, -⟩
    · omega
    · rw [if_neg (by omega)] at hheld
      exact absurd hheld (by simp)
  · -- accepted: the roll-up leaves the bucket if it adds no figure to it
    have hspec := restarted.ringOf_offer_spec link s
    rw [hacc] at hspec
    have hts := hspec.stamped
    rw [minutes_append_iff hacc, rolled_eq_self_iff, hr.loaded_iff h hs hpos]
    swap
    · intro b hb
      rw [hts]
      exact hr.bucket_valid h hb
    dsimp only
    by_cases hcut : t.rawCut later ≤ s.ts
    · -- its second is held with all it states
      rw [if_pos hcut]
      refine ⟨fun _ _ hlt => by omega, fun _ => ⟨Or.inr ⟨s, hs, rfl, hpos, hcut⟩, fun f => ?_⟩⟩
      have hmem := mem_samplesOf.mpr ⟨hs, rfl, hpos⟩
      obtain ⟨v, hv⟩ : ∃ v, RawSample.mergeAll (samplesOf history link s.ts) = some v := by
        rw [← Option.ne_none_iff_exists']
        intro hnone
        rw [RawSample.mergeAll_eq_none_iff.mp hnone] at hmem
        exact absurd hmem List.not_mem_nil
      rw [hv]
      exact figure_onto_final hmem hv f
    · -- its second is older than what is read back, so the sample is taken for the first of it
      rw [if_neg hcut]
      constructor
      · rintro ⟨hloaded, hnothing⟩ - -
        refine ⟨fun f => ?_, hloaded⟩
        rcases hnothing f with hnone | hsome
        · exact hnone
        · exact absurd rfl hsome
      · intro hold
        obtain ⟨hnone, hloaded⟩ := hold hpos (not_le.mp hcut)
        exact ⟨hloaded, fun f => Or.inl (hnone f)⟩

end Restarted

/-- The store of a first start, after a history. -/
def stored (cfg : TsConfig) (start : ℕ) (history : List (LinkKey × RawSample F)) : Tsdb F :=
  (Tsdb.reopen cfg Db.empty start).ingestAll true history

/-- **What a flush and a restart restore.** Of every history within the capacity of the rings
    exactly the restorable ones. -/
theorem restored_iff {cfg : TsConfig} (hpath : cfg.path ≠ "")
    {history : List (LinkKey × RawSample F)} (hplain : ∀ p ∈ history, p.1.Plain)
    (hcap : WithinCapacity history) {start now later : ℕ} (hlater : now ≤ later) :
    Restored history (stored cfg start history)
        (((stored cfg start history).flush now .committed).restart later) later ↔
      Restorable history (later - cfg.raw_retention_secs) (later - cfg.agg_retention_secs) := by
  have hblank : (Tsdb.reopen cfg Db.empty start : Tsdb F).Blank := ⟨rfl, rfl, rfl, rfl⟩
  have h := Tsdb.holds_history hblank hcap true
  obtain ⟨hq, hd⟩ := Tsdb.queued_history hblank hpath hcap
  have hdb : (stored cfg start history).db = some Db.empty := by
    rw [stored, Tsdb.db_ingestAll]
    rfl
  have hcfg : (stored cfg start history).cfg = cfg := Tsdb.cfg_ingestAll _ _ _
  obtain ⟨rows, rebuilt, hr⟩ := restarted_flush h hq hd hdb hplain hcap hlater
  have hrawCut : (stored cfg start history).rawCut later = later - cfg.raw_retention_secs := by
    rw [Tsdb.rawCut, hcfg]
  have haggCut : (stored cfg start history).aggCut later = later - cfg.agg_retention_secs := by
    rw [Tsdb.aggCut, hcfg]
  have hbuckets := hr.buckets_iff h
  have hreplay := fun (p : LinkKey × RawSample F) (hp : (p.1, p.2) ∈ history) =>
    hr.replay_iff h hcap hp
  rw [← hrawCut, ← haggCut]
  constructor
  · intro hrestored
    exact ⟨fun p hp => (hreplay p hp).mp (hrestored.replay p hp), hbuckets.mp hrestored.buckets⟩
  · intro hok
    exact ⟨fun l => Ring.ascending _, hr.samples_eq h, hbuckets.mpr hok.rebuilt,
      fun p hp => (hreplay p hp).mpr (hok.older p hp)⟩

/-! ### A minute across the cut -/

private def onDisk : TsConfig := ⟨"metrics.redb", 7200, 86400⟩

/-- One report. -/
private def oneReport : List (LinkKey × RawSample ℕ) := [(echoKey, rttSample 120 5)]

private theorem samplesOf_oneReport (l : LinkKey) (ts : ℕ) :
    samplesOf oneReport l ts = [] ∨ samplesOf oneReport l ts = [rttSample 120 5] := by
  have hconcat := samplesOf_concat [] echoKey l (rttSample 120 5) ts
  split at hconcat
  · exact Or.inr hconcat
  · exact Or.inl hconcat

/-- A report is restored as long as it is within retention. -/
theorem restored_oneReport : Restored oneReport (stored onDisk 0 oneReport)
    (((stored onDisk 0 oneReport).flush 130 .committed).restart 200) 200 := by
  refine (restored_iff (by decide) (by decide) (.of_length (by decide)) (by decide)).mpr
    ⟨fun p _ _ hcut => absurd hcut (Nat.not_lt_zero _), fun l start _ _ f => ?_⟩
  congr 1
  refine minuteValues_congr fun ts _ _ => ?_
  rw [if_pos (show 200 - onDisk.raw_retention_secs ≤ ts from Nat.zero_le _)]
  rcases samplesOf_oneReport l ts with hnone | hone
  · rw [hnone]
    rfl
  · -- what it was counted with is its final version
    rw [hone, counted, counted, List.append_nil]
    rfl

/-- Two reports of one minute. -/
private def twoReports : List (LinkKey × RawSample ℕ) :=
  [(echoKey, rttSample 12000 5), (echoKey, rttSample 12030 7)]

private def restartedTwo : Tsdb ℕ := ((stored onDisk 0 twoReports).flush 12040 .committed).restart 19215

/-- **A restart truncates the minute of the raw cut.**  The first report is older than the cut: the
    bucket is rebuilt from the second alone, and the first counts again when it is redelivered. -/
theorem restart_truncates_minute :
    (((stored onDisk 0 twoReports).minutesOf echoKey).bucketAt 12000).map Bucket.n = some 2 ∧
      ((restartedTwo.minutesOf echoKey).bucketAt 12000).map Bucket.n = some 1 ∧
      (((restartedTwo.append echoKey (rttSample 12000 5)).minutesOf echoKey).bucketAt 12000).map
        Bucket.n = some 2 ∧
      ¬ Restored twoReports (stored onDisk 0 twoReports) restartedTwo 19215 := by
  have hbefore : (((stored onDisk 0 twoReports).minutesOf echoKey).bucketAt 12000).map Bucket.n =
      some 2 := by decide
  have hafter : ((restartedTwo.minutesOf echoKey).bucketAt 12000).map Bucket.n = some 1 := by decide
  refine ⟨hbefore, hafter, by decide, fun h => ?_⟩
  have heq := h.buckets echoKey 12000 (by decide)
  rw [heq, hbefore] at hafter
  exact absurd hafter (by decide)

end Restore

end Mielofon
