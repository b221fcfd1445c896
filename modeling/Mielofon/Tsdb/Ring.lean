import Mielofon.Lib.Newest
import Mielofon.Tsdb.Bucket

namespace Mielofon

open Lib

/-!
# The raw ring of a link

The samples of one link, sorted by second, at most `rawRingCap` of them, all newer than the
ring's floor: the newest second that retention or the capacity evicted (`tsdb.rs`).  The
invariants are fields of `Ring`, so every operation proves that it keeps them.

* `offerRaw`, `Ring.offer` — the ring step of an ingest, on the data and on rings;
* `Ring.Offer`, `Ring.offer_spec` — everything that step can do, case by case;
* `Ring.Offer.seconds` — in terms of seconds, it keeps the newest `rawRingCap` of them;
* `Ring.prune` — drops the samples retention no longer covers.
-/

/-- The capacity of a ring: two hours of 15 s always samples at three per second of slack,
    plus two hours of 10 s marking blocks. -/
def rawRingCap : ℕ := 7200 * 3 / 15 + 7200 / 10

variable {F : Type*}

/-- One link's raw samples.  Nothing at or before `floor` is accepted again. -/
structure Ring (F : Type*) where
  samples : List (RawSample F)
  floor : ℕ
  ascending : Ascending RawSample.ts samples
  above : ∀ s ∈ samples, floor < s.ts
  bounded : samples.length ≤ rawRingCap

/-- Drop the front sample of an overfull ring and raise the floor to it. -/
def evict (samples : List (RawSample F)) (floor : ℕ) : List (RawSample F) × ℕ :=
  match samples with
  | old :: rest =>
    if rawRingCap < (old :: rest).length then (rest, max floor old.ts) else (old :: rest, floor)
  | [] => ([], floor)

/-- The ring step of an ingest: the samples and the floor after it, and what was accepted. -/
def offerRaw [LinearOrder F] (samples : List (RawSample F)) (floor : ℕ) (s : RawSample F) :
    List (RawSample F) × ℕ × Option (Accepted F) :=
  if s.ts ≤ floor then (samples, floor, none)
  else match slot RawSample.ts s.ts samples with
    | some held =>
      let merged := held.mergedWith s
      if merged = held then (samples, floor, none)
      else (put RawSample.ts merged samples, floor, some ⟨some held, merged⟩)
    | none =>
      if partitionPoint (fun x => x.ts < s.ts) samples = 0 ∧ rawRingCap ≤ samples.length then
        (samples, floor, none)
      else
        let kept := evict (put RawSample.ts s samples) floor
        (kept.1, kept.2, some ⟨none, s⟩)

/-! ### The ring step keeps the invariants -/

section Raw

variable {samples : List (RawSample F)} {floor : ℕ} {s : RawSample F}

/-- A sample over the old one of its second, or a new one that fits. -/
private theorem put_valid (hasc : Ascending RawSample.ts samples)
    (habove : ∀ x ∈ samples, floor < x.ts) (hs : floor < s.ts) :
    Ascending RawSample.ts (put RawSample.ts s samples) ∧
      ∀ x ∈ put RawSample.ts s samples, floor < x.ts := by
  refine ⟨hasc.put s, fun x hx => ?_⟩
  rcases (mem_put hasc).mp hx with rfl | ⟨hx, -⟩
  · exact hs
  · exact habove x hx

private theorem evict_valid (hasc : Ascending RawSample.ts samples)
    (habove : ∀ x ∈ samples, floor < x.ts) (hlen : samples.length ≤ rawRingCap + 1) :
    Ascending RawSample.ts (evict samples floor).1 ∧
      (∀ x ∈ (evict samples floor).1, (evict samples floor).2 < x.ts) ∧
      (evict samples floor).1.length ≤ rawRingCap := by
  cases samples with
  | nil => exact ⟨hasc, habove, Nat.zero_le _⟩
  | cons old rest =>
    rw [evict]
    split
    · refine ⟨hasc.tail, fun x hx => ?_, by simpa using hlen⟩
      have hold := hasc.head_lt x hx
      have hx := habove x (List.mem_cons_of_mem _ hx)
      exact max_lt hx hold
    · rename_i hfit
      exact ⟨hasc, habove, not_lt.mp hfit⟩

/-- The ring step keeps the samples sorted, above the floor and within the capacity. -/
theorem offerRaw_valid [LinearOrder F] (hasc : Ascending RawSample.ts samples)
    (habove : ∀ x ∈ samples, floor < x.ts) (hlen : samples.length ≤ rawRingCap) :
    Ascending RawSample.ts (offerRaw samples floor s).1 ∧
      (∀ x ∈ (offerRaw samples floor s).1, (offerRaw samples floor s).2.1 < x.ts) ∧
      (offerRaw samples floor s).1.length ≤ rawRingCap := by
  unfold offerRaw
  split
  · exact ⟨hasc, habove, hlen⟩
  rename_i hfloor
  split
  · rename_i held hheld
    dsimp only
    split
    · exact ⟨hasc, habove, hlen⟩
    · have hts : held.ts = s.ts := key_of_slot hasc hheld
      have hput := put_valid (s := held.mergedWith s) hasc habove (by simp only [RawSample.mergedWith_ts]; omega)
      refine ⟨hput.1, hput.2, ?_⟩
      rw [length_put_of_some (b := held) (by rw [RawSample.mergedWith_ts, hts]; exact hheld)]
      exact hlen
  · rename_i hnone
    split
    · exact ⟨hasc, habove, hlen⟩
    · have hput := put_valid (s := s) hasc habove (by omega)
      have hlen' : (put RawSample.ts s samples).length ≤ rawRingCap + 1 := by
        rw [length_put_of_none hnone]; omega
      exact evict_valid hput.1 hput.2 hlen'

end Raw

namespace Ring

/-- The ring of a link nothing was ingested for. -/
def empty : Ring F := ⟨[], 0, List.Pairwise.nil, fun _ h => absurd h List.not_mem_nil, Nat.zero_le _⟩

/-- The ring step of an ingest. -/
def offer [LinearOrder F] (r : Ring F) (s : RawSample F) : Ring F × Option (Accepted F) :=
  (⟨(offerRaw r.samples r.floor s).1, (offerRaw r.samples r.floor s).2.1,
      (offerRaw_valid r.ascending r.above r.bounded).1,
      (offerRaw_valid r.ascending r.above r.bounded).2.1,
      (offerRaw_valid r.ascending r.above r.bounded).2.2⟩,
    (offerRaw r.samples r.floor s).2.2)

/-- The sample of a second. -/
def sampleAt (r : Ring F) (ts : ℕ) : Option (RawSample F) := slot RawSample.ts ts r.samples

/-- `s` is the newest sample of the ring. -/
def Newest (r : Ring F) (s : RawSample F) : Prop := s ∈ r.samples ∧ ∀ x ∈ r.samples, x.ts ≤ s.ts

/-- The seconds the ring holds a sample of. -/
def seconds (r : Ring F) : Finset ℕ := (r.samples.map RawSample.ts).toFinset

/-! ### Reading a ring -/

theorem ext_data {r r' : Ring F} (h : r.samples = r'.samples) (hf : r.floor = r'.floor) :
    r = r' := by
  cases r; cases r'; cases h; cases hf; rfl

theorem sampleAt_eq_some_iff {r : Ring F} {ts : ℕ} {s : RawSample F} :
    r.sampleAt ts = some s ↔ s ∈ r.samples ∧ s.ts = ts :=
  slot_eq_some_iff r.ascending

theorem sampleAt_of_mem {r : Ring F} {s : RawSample F} (h : s ∈ r.samples) :
    r.sampleAt s.ts = some s :=
  sampleAt_eq_some_iff.mpr ⟨h, rfl⟩

theorem ts_of_sampleAt {r : Ring F} {ts : ℕ} {s : RawSample F} (h : r.sampleAt ts = some s) :
    s.ts = ts :=
  (sampleAt_eq_some_iff.mp h).2

theorem mem_seconds {r : Ring F} {ts : ℕ} : ts ∈ r.seconds ↔ ∃ s, r.sampleAt ts = some s := by
  simp only [seconds, List.mem_toFinset, List.mem_map, sampleAt_eq_some_iff]

theorem notMem_seconds {r : Ring F} {ts : ℕ} : ts ∉ r.seconds ↔ r.sampleAt ts = none := by
  rw [mem_seconds, Option.eq_none_iff_forall_ne_some]
  simp only [not_exists, ne_eq]

theorem card_seconds (r : Ring F) : r.seconds.card = r.samples.length := by
  have hnd : (r.samples.map RawSample.ts).Nodup := by
    rw [List.nodup_iff_pairwise_ne, List.pairwise_map]
    exact r.ascending.imp (fun h => Nat.ne_of_lt h)
  rw [seconds, List.toFinset_card_of_nodup hnd, List.length_map]

theorem card_seconds_le (r : Ring F) : r.seconds.card ≤ rawRingCap :=
  r.card_seconds ▸ r.bounded

theorem floor_lt_of_mem_seconds {r : Ring F} {ts : ℕ} (h : ts ∈ r.seconds) : r.floor < ts := by
  obtain ⟨s, hs⟩ := mem_seconds.mp h
  obtain ⟨hmem, rfl⟩ := sampleAt_eq_some_iff.mp hs
  exact r.above s hmem

@[simp] theorem sampleAt_empty (ts : ℕ) : (empty : Ring F).sampleAt ts = none := rfl

/-! ### What the ring step can do -/

variable [LinearOrder F]

/-- The outcomes of offering `s` to `r`: the ring after it and what was accepted. -/
inductive Offer (r : Ring F) (s : RawSample F) : Ring F → Option (Accepted F) → Prop
  /-- At or before the floor. -/
  | old (hfloor : s.ts ≤ r.floor) : Offer r s r none
  /-- The second is held and `s` states nothing new. -/
  | resend (held : RawSample F) (hfloor : r.floor < s.ts) (hheld : r.sampleAt s.ts = some held)
      (hin : s.Within held) : Offer r s r none
  /-- The second is held and the merge differs. -/
  | merged (held : RawSample F) (r' : Ring F) (hfloor : r.floor < s.ts)
      (hheld : r.sampleAt s.ts = some held) (hnew : ¬ s.Within held) (hkeep : r'.floor = r.floor)
      (hat : ∀ ts, r'.sampleAt ts =
        if ts = s.ts then some (held.mergedWith s) else r.sampleAt ts) :
      Offer r s r' (some ⟨some held, held.mergedWith s⟩)
  /-- A new second, older than every sample of a full ring. -/
  | full (hfloor : r.floor < s.ts) (hnone : r.sampleAt s.ts = none)
      (hcap : r.samples.length = rawRingCap) (hlow : ∀ x ∈ r.samples, s.ts < x.ts) :
      Offer r s r none
  /-- A new second, with room left. -/
  | added (r' : Ring F) (hfloor : r.floor < s.ts) (hnone : r.sampleAt s.ts = none)
      (hroom : r.samples.length < rawRingCap) (hkeep : r'.floor = r.floor)
      (hat : ∀ ts, r'.sampleAt ts = if ts = s.ts then some s else r.sampleAt ts) :
      Offer r s r' (some ⟨none, s⟩)
  /-- A new second in a full ring, whose oldest sample goes and raises the floor. -/
  | evicted (old : RawSample F) (r' : Ring F) (hfloor : r.floor < s.ts)
      (hnone : r.sampleAt s.ts = none) (hcap : r.samples.length = rawRingCap)
      (hold : old ∈ r.samples) (hmin : ∀ x ∈ r.samples, old.ts ≤ x.ts) (hlt : old.ts < s.ts)
      (hraise : r'.floor = old.ts)
      (hat : ∀ ts, r'.sampleAt ts =
        if ts = s.ts then some s else if ts = old.ts then none else r.sampleAt ts) :
      Offer r s r' (some ⟨none, s⟩)

/-- Offering a new second to a ring that is not shut out. -/
private theorem offer_new {r : Ring F} {s : RawSample F} (hfloor : r.floor < s.ts)
    (hnone : r.sampleAt s.ts = none)
    (hopen : ¬ (partitionPoint (fun x => x.ts < s.ts) r.samples = 0 ∧
      rawRingCap ≤ r.samples.length)) :
    (r.offer s).1.samples = (evict (put RawSample.ts s r.samples) r.floor).1 ∧
      (r.offer s).1.floor = (evict (put RawSample.ts s r.samples) r.floor).2 ∧
      (r.offer s).2 = some ⟨none, s⟩ := by
  have hslot : slot RawSample.ts s.ts r.samples = none := hnone
  simp only [offer, offerRaw, if_neg (not_le.mpr hfloor), hslot, if_neg hopen, and_self]

omit [LinearOrder F] in
/-- The first sample once a new one is in: where some sample is older than the new one, the first is
    the oldest of those that were held. -/
private theorem first_of_put {r : Ring F} {s first : RawSample F} {rest : List (RawSample F)}
    (hput : put RawSample.ts s r.samples = first :: rest) (hheld : r.sampleAt s.ts = none)
    (hold : partitionPoint (fun x => x.ts < s.ts) r.samples ≠ 0) :
    first ∈ r.samples ∧ (∀ x ∈ r.samples, first.ts ≤ x.ts) ∧ first.ts < s.ts := by
  have hasc := r.ascending.put s
  rw [hput] at hasc
  have hmin : ∀ x ∈ r.samples, first.ts ≤ x.ts := by
    intro x hx
    have hne : x.ts ≠ s.ts := (slot_eq_none_iff r.ascending).mp hheld x hx
    have hxmem : x ∈ first :: rest := hput ▸ (mem_put r.ascending).mpr (Or.inr ⟨hx, hne⟩)
    rcases List.mem_cons.mp hxmem with rfl | hxr
    · exact le_refl _
    · exact (hasc.head_lt x hxr).le
  have hlow : ∃ x ∈ r.samples, x.ts < s.ts := by
    by_contra hall
    refine hold ((partitionPoint_eq_zero_iff r.ascending).mpr (fun x hx => ?_))
    exact not_lt.mp (fun hx' => hall ⟨x, hx, hx'⟩)
  obtain ⟨low, hlowmem, hlowlt⟩ := hlow
  have hfirstlt : first.ts < s.ts := lt_of_le_of_lt (hmin low hlowmem) hlowlt
  refine ⟨?_, hmin, hfirstlt⟩
  rcases (mem_put r.ascending).mp (hput ▸ List.mem_cons_self (a := first) (l := rest)) with rfl | h
  · exact absurd hfirstlt (lt_irrefl _)
  · exact h.1

/-- **What the ring step does.** -/
theorem offer_spec (r : Ring F) (s : RawSample F) : Offer r s (r.offer s).1 (r.offer s).2 := by
  -- the branches of the source, in its order
  by_cases hfloor : s.ts ≤ r.floor
  · have hres : r.offer s = (r, none) := by
      refine Prod.ext (ext_data ?_ ?_) ?_ <;> simp only [offer, offerRaw, if_pos hfloor]
    rw [hres]
    exact .old hfloor
  have hlt : r.floor < s.ts := not_le.mp hfloor
  cases hheld : r.sampleAt s.ts with
  | some held =>
    have hslot : slot RawSample.ts s.ts r.samples = some held := hheld
    have hts : held.ts = s.ts := ts_of_sampleAt hheld
    -- the second is held: a resend, or a merge
    by_cases hin : held.mergedWith s = held
    · have hres : r.offer s = (r, none) := by
        refine Prod.ext (ext_data ?_ ?_) ?_ <;>
          simp only [offer, offerRaw, if_neg hfloor, hslot, if_pos hin]
      rw [hres]
      exact .resend held hlt hheld (RawSample.mergedWith_eq_self_iff.mp hin)
    · have hacc : (r.offer s).2 = some ⟨some held, held.mergedWith s⟩ := by
        simp only [offer, offerRaw, if_neg hfloor, hslot, if_neg hin]
      rw [hacc]
      refine .merged held _ hlt hheld (fun h => hin (RawSample.mergedWith_eq_self_iff.mpr h)) ?_ ?_
      · simp only [offer, offerRaw, if_neg hfloor, hslot, if_neg hin]
      · intro ts
        simp only [sampleAt, offer, offerRaw, if_neg hfloor, hslot, if_neg hin]
        rw [slot_put r.ascending, RawSample.mergedWith_ts, hts]
  | none =>
    have hslot : slot RawSample.ts s.ts r.samples = none := hheld
    have hput := r.ascending.put s
    have hlen : (put RawSample.ts s r.samples).length = r.samples.length + 1 :=
      length_put_of_none hslot
    -- the second is new: shut out of a full ring, or stored
    by_cases hshut : partitionPoint (fun x => x.ts < s.ts) r.samples = 0 ∧
        rawRingCap ≤ r.samples.length
    · have hres : r.offer s = (r, none) := by
        refine Prod.ext (ext_data ?_ ?_) ?_ <;>
          simp only [offer, offerRaw, if_neg hfloor, hslot, if_pos hshut]
      rw [hres]
      refine .full hlt hheld (le_antisymm r.bounded hshut.2) (fun x hx => ?_)
      have hle := (partitionPoint_eq_zero_iff r.ascending).mp hshut.1 x hx
      have hne : x.ts ≠ s.ts := (slot_eq_none_iff r.ascending).mp hslot x hx
      omega
    · obtain ⟨hsamples, hfl, hacc⟩ := offer_new hlt hheld hshut
      rw [hacc]
      cases hputl : put RawSample.ts s r.samples with
      | nil => rw [hputl] at hlen; exact absurd hlen (by simp)
      | cons first rest =>
        rw [hputl] at hput hlen hsamples hfl
        have hlen : rest.length + 1 = r.samples.length + 1 := hlen
        have hat : ∀ ts, slot RawSample.ts ts (first :: rest) =
            if ts = s.ts then some s else r.sampleAt ts := fun ts => by
          rw [← hputl]; exact slot_put r.ascending s ts
        by_cases hover : rawRingCap < (first :: rest).length
        · -- the ring was full: the first sample goes, and it is not `s`
          have hcap : r.samples.length = rawRingCap := by
            have := r.bounded
            rw [List.length_cons] at hover
            omega
          simp only [evict, if_pos hover] at hsamples hfl
          obtain ⟨hfirstmem, hmin, hfirstlt⟩ := first_of_put hputl hheld
            (fun hzero => hshut ⟨hzero, hcap.ge⟩)
          refine .evicted first _ hlt hheld hcap hfirstmem hmin hfirstlt ?_ (fun ts => ?_)
          · rw [hfl]
            exact max_eq_right (r.above first hfirstmem).le
          · rw [sampleAt, hsamples, slot_tail hput, hat]
            by_cases hts : ts = s.ts
            · rw [if_neg (by omega), if_pos hts, if_pos hts]
            · rw [if_neg hts, if_neg hts]
        · simp only [evict, if_neg hover] at hsamples hfl
          refine .added _ hlt hheld (by rw [List.length_cons] at hover; omega) hfl (fun ts => ?_)
          rw [sampleAt, hsamples, hat]

/-! ### The ring step in terms of seconds -/

omit [LinearOrder F] in
/-- Storing a sample adds its second. -/
private theorem mem_seconds_of_at {r r' : Ring F} {s x : RawSample F}
    (hat : ∀ ts, r'.sampleAt ts = if ts = s.ts then some x else r.sampleAt ts) :
    r'.seconds = insert s.ts r.seconds := by
  ext ts
  rw [Finset.mem_insert, mem_seconds, mem_seconds, hat]
  split
  · rename_i hts; simp [hts]
  · rename_i hts; simp [hts]

omit [LinearOrder F] in
/-- A full ring has `rawRingCap` seconds above every second older than all of its own. -/
theorem countAbove_of_full {r : Ring F} {ts : ℕ} (hcap : r.samples.length = rawRingCap)
    (hlow : ∀ x ∈ r.samples, ts < x.ts) : countAbove r.seconds ts = rawRingCap := by
  have hall : r.seconds.filter (ts < ·) = r.seconds := Finset.filter_true_of_mem (fun t ht => by
    obtain ⟨x, hx⟩ := mem_seconds.mp ht
    obtain ⟨hmem, rfl⟩ := sampleAt_eq_some_iff.mp hx
    exact hlow x hmem)
  rw [countAbove, hall, card_seconds, hcap]

/-- **The ring keeps the newest seconds.** Of the seconds it held and the one offered above
    the floor, the ring holds the newest `rawRingCap`. -/
theorem Offer.seconds {r r' : Ring F} {s : RawSample F} {acc : Option (Accepted F)}
    (h : Offer r s r' acc) (hfloor : r.floor < s.ts) :
    r'.seconds = newest rawRingCap (insert s.ts r.seconds) := by
  have hself : newest rawRingCap r.seconds = r.seconds := newest_of_card_le r.card_seconds_le
  cases h with
  | old hold => omega
  | resend held _ hheld =>
    rw [Finset.insert_eq_of_mem (mem_seconds.mpr ⟨held, hheld⟩), hself]
  | merged held _ _ hheld _ _ hat =>
    rw [mem_seconds_of_at hat, Finset.insert_eq_of_mem (mem_seconds.mpr ⟨held, hheld⟩), hself]
  | full _ _ hcap hlow =>
    rw [newest_insert_of_le_countAbove (countAbove_of_full hcap hlow).ge, hself]
  | added _ _ hnone hroom _ hat =>
    rw [mem_seconds_of_at hat, newest_of_card_le]
    rw [Finset.card_insert_of_notMem (notMem_seconds.mpr hnone), card_seconds]
    exact hroom
  | evicted old _ _ hnone hcap hold hmin hlt _ hat =>
    -- the kept seconds are `rawRingCap` many, and each has fewer above it
    have hne : s.ts ∉ r.seconds := notMem_seconds.mpr hnone
    have holdsec : old.ts ∈ r.seconds := mem_seconds.mpr ⟨old, sampleAt_eq_some_iff.mpr ⟨hold, rfl⟩⟩
    have hsec : r'.seconds = (insert s.ts r.seconds).erase old.ts := by
      ext ts
      rw [Finset.mem_erase, Finset.mem_insert, mem_seconds, mem_seconds, hat]
      by_cases hts : ts = s.ts
      · have hto : ts ≠ old.ts := by omega
        rw [if_pos hts]
        exact ⟨fun _ => ⟨hto, Or.inl hts⟩, fun _ => ⟨s, rfl⟩⟩
      · by_cases hto : ts = old.ts
        · simp [hto, if_neg (show ¬ old.ts = s.ts by omega)]
        · simp [hts, hto]
    have hcard : ((insert s.ts r.seconds).erase old.ts).card = rawRingCap := by
      rw [Finset.card_erase_of_mem (Finset.mem_insert_of_mem holdsec),
        Finset.card_insert_of_notMem hne, card_seconds, hcap]
      omega
    have hminsec : ∀ t ∈ insert s.ts r.seconds, old.ts ≤ t := by
      intro t ht
      rcases Finset.mem_insert.mp ht with rfl | ht
      · exact hlt.le
      · obtain ⟨x, hx⟩ := mem_seconds.mp ht
        obtain ⟨hmem, rfl⟩ := sampleAt_eq_some_iff.mp hx
        exact hmin x hmem
    have hadd : insert s.ts r.seconds =
        insert old.ts ((insert s.ts r.seconds).erase old.ts) :=
      (Finset.insert_erase (Finset.mem_insert_of_mem holdsec)).symm
    have hcount : rawRingCap ≤ countAbove ((insert s.ts r.seconds).erase old.ts) old.ts := by
      rw [countAbove, Finset.filter_true_of_mem (fun t ht => ?_), hcard]
      exact lt_of_le_of_ne (hminsec t (Finset.mem_of_mem_erase ht))
        (Finset.ne_of_mem_erase ht).symm
    rw [hsec, hadd, newest_insert_of_le_countAbove hcount, newest_of_card_le hcard.le, ← hadd]

/-- The floor never goes down. -/
theorem Offer.floor_le {r r' : Ring F} {s : RawSample F} {acc : Option (Accepted F)}
    (h : Offer r s r' acc) : r.floor ≤ r'.floor := by
  cases h with
  | old | resend | full => exact le_refl _
  | merged _ _ _ _ _ hkeep | added _ _ _ _ hkeep => exact hkeep.ge
  | evicted old _ _ _ _ hold _ _ hraise => exact hraise ▸ (r.above old hold).le

/-- What is stored carries the second of the sample offered. -/
theorem Offer.stamped {r r' : Ring F} {s : RawSample F} {acc : Accepted F}
    (h : Offer r s r' (some acc)) : acc.sample.ts = s.ts := by
  cases h with
  | merged held _ _ hheld =>
    show held.ts = s.ts
    exact ts_of_sampleAt hheld
  | added | evicted => rfl

/-- Of another second the ring holds nothing new. -/
theorem Offer.sampleAt_of_ne {r r' : Ring F} {s x : RawSample F} {acc : Option (Accepted F)}
    (h : Offer r s r' acc) {ts : ℕ} (hne : ts ≠ s.ts) (hx : r'.sampleAt ts = some x) :
    r.sampleAt ts = some x := by
  cases h with
  | old | resend | full => exact hx
  | merged _ _ _ _ _ _ hat | added _ _ _ _ _ hat => rwa [hat, if_neg hne] at hx
  | evicted _ _ _ _ _ _ _ _ _ hat =>
    rw [hat, if_neg hne] at hx
    split at hx
    · exact absurd hx (by simp)
    · exact hx

/-- What the ring holds of a second afterwards it held before, unless it is the sample offered
    or the merge with it. -/
theorem Offer.held {r r' : Ring F} {s x : RawSample F} {acc : Option (Accepted F)}
    (h : Offer r s r' acc) {ts : ℕ} (hx : r'.sampleAt ts = some x) :
    r.sampleAt ts = some x ∨ ts = s.ts ∧
      (x = s ∨ ∃ held, r.sampleAt ts = some held ∧ x = held.mergedWith s) := by
  by_cases hts : ts = s.ts
  · subst hts
    cases h with
    | old | resend | full => exact Or.inl hx
    | merged held _ _ hheld _ _ hat =>
      rw [hat, if_pos rfl, Option.some.injEq] at hx
      exact Or.inr ⟨rfl, Or.inr ⟨held, hheld, hx.symm⟩⟩
    | added _ _ _ _ _ hat | evicted _ _ _ _ _ _ _ _ _ hat =>
      rw [hat, if_pos rfl, Option.some.injEq] at hx
      exact Or.inr ⟨rfl, Or.inl hx.symm⟩
  · exact Or.inl (h.sampleAt_of_ne hts hx)

/-- What the ring held of a second it still holds, or has merged, or has shut out. -/
theorem Offer.kept {r r' : Ring F} {s held : RawSample F} {acc : Option (Accepted F)}
    (h : Offer r s r' acc) {ts : ℕ} (hheld : r.sampleAt ts = some held) :
    ts ≤ r'.floor ∨ r'.sampleAt ts = some held ∨
      ts = s.ts ∧ r'.sampleAt ts = some (held.mergedWith s) := by
  cases h with
  | old | resend | full => exact Or.inr (Or.inl hheld)
  | merged held' _ _ hheld' _ _ hat =>
    by_cases hts : ts = s.ts
    · subst hts
      obtain rfl := Option.some.inj (hheld'.symm.trans hheld)
      exact Or.inr (Or.inr ⟨rfl, (hat _).trans (if_pos rfl)⟩)
    · exact Or.inr (Or.inl (((hat ts).trans (if_neg hts)).trans hheld))
  | added _ _ hnone _ _ hat =>
    have hts : ts ≠ s.ts := fun h => absurd (hnone.symm.trans (h ▸ hheld)) (by simp)
    exact Or.inr (Or.inl (((hat ts).trans (if_neg hts)).trans hheld))
  | evicted old _ _ hnone _ _ _ _ hraise hat =>
    have hts : ts ≠ s.ts := fun h => absurd (hnone.symm.trans (h ▸ hheld)) (by simp)
    by_cases hold : ts = old.ts
    · exact Or.inl (hold.trans hraise.symm).le
    · exact Or.inr (Or.inl (((hat ts).trans ((if_neg hts).trans (if_neg hold))).trans hheld))

/-- What was not accepted left the ring as it was. -/
theorem Offer.eq_of_none {r r' : Ring F} {s : RawSample F} (h : Offer r s r' none) : r' = r := by
  cases h <;> rfl

end Ring

/-! ### Retention -/

/-- Pop the front samples before `cut`, raising the floor to each. -/
def pruneRaw (cut : ℕ) : List (RawSample F) → ℕ → List (RawSample F) × ℕ
  | [], floor => ([], floor)
  | s :: rest, floor =>
    if s.ts < cut then pruneRaw cut rest (max floor s.ts) else (s :: rest, floor)

theorem pruneRaw_valid (cut : ℕ) : ∀ (samples : List (RawSample F)) (floor : ℕ),
    Ascending RawSample.ts samples → (∀ s ∈ samples, floor < s.ts) →
      Ascending RawSample.ts (pruneRaw cut samples floor).1 ∧
        (∀ s ∈ (pruneRaw cut samples floor).1, (pruneRaw cut samples floor).2 < s.ts) ∧
        (pruneRaw cut samples floor).1.length ≤ samples.length
  | [], _, hasc, habove => ⟨hasc, habove, le_refl _⟩
  | s :: rest, floor, hasc, habove => by
    rw [pruneRaw]
    split
    · have hrest := pruneRaw_valid cut rest (max floor s.ts) hasc.tail (fun x hx =>
        max_lt (habove x (List.mem_cons_of_mem _ hx)) (hasc.head_lt x hx))
      exact ⟨hrest.1, hrest.2.1, hrest.2.2.trans (Nat.le_succ _)⟩
    · exact ⟨hasc, habove, le_refl _⟩

/-- Drop the samples before `cut`. -/
def Ring.prune (r : Ring F) (cut : ℕ) : Ring F :=
  ⟨(pruneRaw cut r.samples r.floor).1, (pruneRaw cut r.samples r.floor).2,
    (pruneRaw_valid cut _ _ r.ascending r.above).1, (pruneRaw_valid cut _ _ r.ascending r.above).2.1,
    (pruneRaw_valid cut _ _ r.ascending r.above).2.2.trans r.bounded⟩

private theorem pruneRaw_spec (cut : ℕ) : ∀ (samples : List (RawSample F)) (floor : ℕ),
    Ascending RawSample.ts samples →
      (pruneRaw cut samples floor).1 = samples.filter (fun s => cut ≤ s.ts) ∧
        floor ≤ (pruneRaw cut samples floor).2 ∧
        (∀ s ∈ samples, s.ts < cut → s.ts ≤ (pruneRaw cut samples floor).2)
  | [], _, _ => ⟨rfl, le_refl _, fun _ h => absurd h List.not_mem_nil⟩
  | s :: rest, floor, hasc => by
    rw [pruneRaw]
    split
    · rename_i hcut
      obtain ⟨hsamples, hfloor, hdrop⟩ := pruneRaw_spec cut rest (max floor s.ts) hasc.tail
      refine ⟨?_, (le_max_left _ _).trans hfloor, fun x hx hxc => ?_⟩
      · rw [hsamples, List.filter_cons_of_neg (by simpa using hcut)]
      · rcases List.mem_cons.mp hx with rfl | hx
        · exact (le_max_right _ _).trans hfloor
        · exact hdrop x hx hxc
    · -- nothing behind a sample that stays is older
      rename_i hcut
      have hall : ∀ x ∈ s :: rest, cut ≤ x.ts := by
        intro x hx
        rcases List.mem_cons.mp hx with rfl | hx
        · omega
        · have := hasc.head_lt x hx
          omega
      refine ⟨?_, le_refl _, fun x hx hxc => ?_⟩
      · exact (List.filter_eq_self.mpr (fun x hx => by simpa using hall x hx)).symm
      · have := hall x hx
        omega

/-- A prune keeps the samples from `cut` on. -/
theorem Ring.sampleAt_prune (r : Ring F) (cut ts : ℕ) :
    (r.prune cut).sampleAt ts = if ts < cut then none else r.sampleAt ts := by
  have hsamples : (r.prune cut).samples = r.samples.filter (fun s => cut ≤ s.ts) :=
    (pruneRaw_spec cut r.samples r.floor r.ascending).1
  ext s
  rw [sampleAt_eq_some_iff, hsamples, List.mem_filter]
  split
  · rename_i hlt
    refine ⟨fun ⟨⟨_, hc⟩, hts⟩ => ?_, fun h => absurd h (by simp)⟩
    have hc : cut ≤ s.ts := by simpa using hc
    omega
  · rename_i hge
    rw [sampleAt_eq_some_iff]
    refine ⟨fun ⟨⟨hs, _⟩, hts⟩ => ⟨hs, hts⟩, fun ⟨hs, hts⟩ => ⟨⟨hs, ?_⟩, hts⟩⟩
    rw [decide_eq_true_eq]
    omega

/-- A prune shuts out every second it drops. -/
theorem Ring.le_floor_prune {r : Ring F} {cut ts : ℕ} (h : ts ∈ r.seconds) (hcut : ts < cut) :
    ts ≤ (r.prune cut).floor := by
  obtain ⟨s, hs⟩ := mem_seconds.mp h
  obtain ⟨hmem, rfl⟩ := sampleAt_eq_some_iff.mp hs
  exact (pruneRaw_spec cut r.samples r.floor r.ascending).2.2 s hmem hcut

theorem Ring.floor_le_prune (r : Ring F) (cut : ℕ) : r.floor ≤ (r.prune cut).floor :=
  (pruneRaw_spec cut r.samples r.floor r.ascending).2.1

private theorem pruneRaw_floor_lt {cut ts : ℕ} (hcut : cut ≤ ts) :
    ∀ (samples : List (RawSample F)) (floor : ℕ), floor < ts → (pruneRaw cut samples floor).2 < ts
  | [], _, hfloor => hfloor
  | s :: rest, floor, hfloor => by
    rw [pruneRaw]
    split
    · apply pruneRaw_floor_lt hcut rest
      omega
    · exact hfloor

/-- A prune shuts out no second from `cut` on. -/
theorem Ring.floor_prune_lt {r : Ring F} {cut ts : ℕ} (hfloor : r.floor < ts) (hcut : cut ≤ ts) :
    (r.prune cut).floor < ts :=
  pruneRaw_floor_lt hcut r.samples r.floor hfloor

end Mielofon
