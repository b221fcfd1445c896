import Mielofon.Tsdb.Ring

namespace Mielofon

open Lib

/-!
# A ring under a batch of samples

What remains in a ring after a list of samples was offered to it one after another.

* `Ring.offers` — the ring after the list;
* `secondsAbove` — the seconds of the list that the floor does not shut out;
* `Ring.seconds_offers` — the ring holds the newest of these and its own;
* `Ring.within_offers` — at a second that stays, every sample of the list is within the
  one held, as long as the samples of that second agree;
* `Ring.all_refused_iff` — when the ring refuses all of the list afterwards.
-/

variable {F : Type*} [LinearOrder F]

/-- The ring after a list of samples was offered to it. -/
def Ring.offers (r : Ring F) (ss : List (RawSample F)) : Ring F :=
  ss.foldl (fun r s => (r.offer s).1) r

@[simp] theorem Ring.offers_nil (r : Ring F) : r.offers [] = r := rfl

@[simp] theorem Ring.offers_cons (r : Ring F) (s : RawSample F) (ss : List (RawSample F)) :
    r.offers (s :: ss) = (r.offer s).1.offers ss := rfl

omit [LinearOrder F] in
/-- The seconds of a list above a floor. -/
def secondsAbove (floor : ℕ) (ss : List (RawSample F)) : Finset ℕ :=
  ((ss.map RawSample.ts).filter (floor < ·)).toFinset

omit [LinearOrder F] in
theorem mem_secondsAbove {floor ts : ℕ} {ss : List (RawSample F)} :
    ts ∈ secondsAbove floor ss ↔ floor < ts ∧ ∃ s ∈ ss, s.ts = ts := by
  simp only [secondsAbove, List.mem_toFinset, List.mem_filter, List.mem_map, decide_eq_true_eq]
  exact And.comm

omit [LinearOrder F] in
theorem secondsAbove_cons {floor : ℕ} {s : RawSample F} {ss : List (RawSample F)}
    (h : floor < s.ts) : secondsAbove floor (s :: ss) = insert s.ts (secondsAbove floor ss) := by
  simp only [secondsAbove, List.map_cons, List.filter_cons, h, decide_true, if_true,
    List.toFinset_cons]

omit [LinearOrder F] in
theorem secondsAbove_cons_of_le {floor : ℕ} {s : RawSample F} {ss : List (RawSample F)}
    (h : s.ts ≤ floor) : secondsAbove floor (s :: ss) = secondsAbove floor ss := by
  simp only [secondsAbove, List.map_cons, List.filter_cons, not_lt.mpr h, decide_false,
    Bool.false_eq_true, if_false]

omit [LinearOrder F] in
/-- More samples have more seconds. -/
theorem secondsAbove_mono {ss ss' : List (RawSample F)} (h : ss ⊆ ss') (floor : ℕ) :
    secondsAbove floor ss ⊆ secondsAbove floor ss' := by
  intro ts hts
  obtain ⟨hlt, s, hs, heq⟩ := mem_secondsAbove.mp hts
  exact mem_secondsAbove.mpr ⟨hlt, s, h hs, heq⟩

omit [LinearOrder F] in
theorem secondsAbove_anti {floor floor' : ℕ} (h : floor ≤ floor') (ss : List (RawSample F)) :
    secondsAbove floor' ss ⊆ secondsAbove floor ss := fun ts hts => by
  rw [mem_secondsAbove] at hts ⊢
  exact ⟨lt_of_le_of_lt h hts.1, hts.2⟩

omit [LinearOrder F] in
/-- The seconds above a floor are those above a higher one and those in between. -/
theorem secondsAbove_split {floor floor' : ℕ} (h : floor ≤ floor') (ss : List (RawSample F)) :
    secondsAbove floor ss =
      secondsAbove floor' ss ∪ (secondsAbove floor ss).filter (· ≤ floor') := by
  ext ts
  rw [Finset.mem_union, Finset.mem_filter, mem_secondsAbove, mem_secondsAbove]
  constructor
  · rintro ⟨hlt, hs⟩
    rcases Nat.lt_or_ge floor' ts with hlt' | hge
    · exact Or.inl ⟨hlt', hs⟩
    · exact Or.inr ⟨⟨hlt, hs⟩, hge⟩
  · rintro (⟨hlt, hs⟩ | ⟨hs, -⟩)
    · exact ⟨lt_of_le_of_lt h hlt, hs⟩
    · exact hs

namespace Ring

variable {r r' : Ring F} {s x : RawSample F} {ss : List (RawSample F)} {acc : Option (Accepted F)}

/-! ### The seconds -/

/-- A sample at or before the floor is refused. -/
theorem Offer.refused_of_le_floor (h : Offer r s r' acc) (hs : s.ts ≤ r.floor) :
    r' = r ∧ acc = none := by
  cases h with
  | old | resend | full => exact ⟨rfl, rfl⟩
  | merged | added | evicted => omega

/-- Every second the new floor shuts out has a full ring of seconds above it. -/
theorem Offer.le_countAbove_of_le_floor (h : Offer r s r' acc) {ts : ℕ} (hlow : r.floor < ts)
    (hts : ts ≤ r'.floor) : rawRingCap ≤ countAbove (insert s.ts r.seconds) ts := by
  cases h with
  | old | resend | full => omega
  | merged _ _ _ _ _ hkeep | added _ _ _ _ hkeep => omega
  | evicted old _ _ hnone hcap hold hmin hlt hraise _ =>
    have hold' : old.ts ∈ r.seconds := mem_seconds.mpr ⟨old, sampleAt_eq_some_iff.mpr ⟨hold, rfl⟩⟩
    have hne : s.ts ∉ r.seconds := notMem_seconds.mpr hnone
    have hsub : insert s.ts (r.seconds.erase old.ts) ⊆
        (insert s.ts r.seconds).filter (ts < ·) := by
      intro t ht
      rw [Finset.mem_filter, Finset.mem_insert]
      rcases Finset.mem_insert.mp ht with rfl | ht
      · exact ⟨Or.inl rfl, by omega⟩
      · obtain ⟨y, hy⟩ := mem_seconds.mp (Finset.mem_of_mem_erase ht)
        obtain ⟨hmem, rfl⟩ := sampleAt_eq_some_iff.mp hy
        have hle := hmin y hmem
        have hne := Finset.ne_of_mem_erase ht
        exact ⟨Or.inr (Finset.mem_of_mem_erase ht), by omega⟩
    have hcard : (insert s.ts (r.seconds.erase old.ts)).card = rawRingCap := by
      rw [Finset.card_insert_of_notMem (fun h => hne (Finset.mem_of_mem_erase h)),
        Finset.card_erase_of_mem hold', card_seconds, hcap]
      have : 0 < r.samples.length := List.length_pos_of_mem hold
      omega
    exact hcard ▸ Finset.card_le_card hsub

/-- **What a batch leaves.** The ring holds the newest of its own seconds and of those of the
    batch that its floor did not shut out. -/
theorem seconds_offers (r : Ring F) (ss : List (RawSample F)) :
    (r.offers ss).seconds = newest rawRingCap (r.seconds ∪ secondsAbove r.floor ss) := by
  induction ss generalizing r with
  | nil =>
    rw [offers_nil, show secondsAbove r.floor ([] : List (RawSample F)) = ∅ from rfl,
      Finset.union_empty, newest_of_card_le r.card_seconds_le]
  | cons s ss ih =>
    rw [offers_cons, ih]
    by_cases hs : s.ts ≤ r.floor
    · have hsame : (r.offer s).1 = r := ((offer_spec r s).refused_of_le_floor hs).1
      rw [hsame, secondsAbove_cons_of_le hs]
    · have hlt : r.floor < s.ts := not_le.mp hs
      have hspec := offer_spec r s
      -- the seconds of the batch that the raised floor shuts out are not among the newest
      have hshut : ∀ t ∈ (secondsAbove r.floor ss).filter (· ≤ (r.offer s).1.floor),
          rawRingCap ≤ countAbove (insert s.ts r.seconds ∪
            secondsAbove (r.offer s).1.floor ss) t := fun t ht => by
        obtain ⟨ht, hle⟩ := Finset.mem_filter.mp ht
        exact (hspec.le_countAbove_of_le_floor (mem_secondsAbove.mp ht).1 hle).trans
          (countAbove_mono Finset.subset_union_left t)
      calc newest rawRingCap ((r.offer s).1.seconds ∪ secondsAbove (r.offer s).1.floor ss)
          = newest rawRingCap (insert s.ts r.seconds ∪ secondsAbove (r.offer s).1.floor ss) := by
            rw [hspec.seconds hlt, newest_union]
        _ = newest rawRingCap (insert s.ts r.seconds ∪ secondsAbove r.floor ss) := by
            rw [secondsAbove_split hspec.floor_le ss, ← Finset.union_assoc,
              newest_union_of_le_countAbove hshut]
        _ = newest rawRingCap (r.seconds ∪ secondsAbove r.floor (s :: ss)) := by
            rw [secondsAbove_cons hlt, Finset.union_insert, Finset.insert_union]

/-- A second held after a batch was held before, or is that of a sample the floor did not shut
    out. -/
theorem mem_seconds_of_offers {t : ℕ} (ht : t ∈ (r.offers ss).seconds) :
    t ∈ r.seconds ∨ ∃ s ∈ ss, s.ts = t ∧ r.floor < t := by
  rw [seconds_offers] at ht
  rcases Finset.mem_union.mp (newest_subset _ _ ht) with ht | ht
  · exact Or.inl ht
  · obtain ⟨hlt, b, hb, hts⟩ := mem_secondsAbove.mp ht
    exact Or.inr ⟨b, hb, hts, hlt⟩

/-- Nothing given to a ring is newer than the newest sample it then holds. -/
theorem exists_newest_offers {t : ℕ}
    (ht : t ∈ r.seconds ∪ secondsAbove r.floor ss) :
    ∃ y, (r.offers ss).Newest y ∧ t ≤ y.ts := by
  obtain ⟨m, hm, hmax⟩ := Finset.exists_max_image _ id ⟨t, ht⟩
  have hcount : countAbove (r.seconds ∪ secondsAbove r.floor ss) m = 0 := by
    rw [countAbove, Finset.card_eq_zero, Finset.filter_eq_empty_iff]
    exact fun x hx => not_lt.mpr (hmax x hx)
  have hin : m ∈ (r.offers ss).seconds := by
    rw [seconds_offers, mem_newest, hcount]
    exact ⟨hm, by decide⟩
  obtain ⟨y, hy⟩ := mem_seconds.mp hin
  obtain ⟨hmem, rfl⟩ := sampleAt_eq_some_iff.mp hy
  refine ⟨y, ⟨hmem, fun z hz => ?_⟩, hmax t ht⟩
  have hz : z.ts ∈ (r.offers ss).seconds :=
    mem_seconds.mpr ⟨z, sampleAt_of_mem hz⟩
  rw [seconds_offers] at hz
  exact hmax z.ts (newest_subset _ _ hz)

/-! ### The samples -/

/-- A second with fewer than a full ring of seconds above it is not shut out. -/
theorem Offer.floor_lt (h : Offer r s r' acc) {ts : ℕ} (hfloor : r.floor < ts)
    (hcount : countAbove (insert s.ts r.seconds) ts < rawRingCap) : r'.floor < ts := by
  by_contra hle
  have := h.le_countAbove_of_le_floor hfloor (not_lt.mp hle)
  omega

/-- Such a second keeps its sample, or the merge with the one offered. -/
theorem Offer.sampleAt_of_some (h : Offer r s r' acc) {ts : ℕ} {held : RawSample F}
    (hheld : r.sampleAt ts = some held)
    (hcount : countAbove (insert s.ts r.seconds) ts < rawRingCap) :
    r'.sampleAt ts = some held ∨ (s.ts = ts ∧ r'.sampleAt ts = some (held.mergedWith s)) := by
  cases h with
  | old | resend | full => exact Or.inl hheld
  | merged held' _ _ hheld' _ _ hat =>
    by_cases hts : ts = s.ts
    · subst hts
      obtain rfl := Option.some.inj (hheld'.symm.trans hheld)
      exact Or.inr ⟨rfl, (hat _).trans (if_pos rfl)⟩
    · exact Or.inl (((hat ts).trans (if_neg hts)).trans hheld)
  | added _ _ hnone _ _ hat =>
    have hts : ts ≠ s.ts := fun h => absurd (hnone.symm.trans (h ▸ hheld)) (by simp)
    exact Or.inl (((hat ts).trans (if_neg hts)).trans hheld)
  | evicted old _ hfl hnone hcap hold hmin hlt hraise hat =>
    have hts : ts ≠ s.ts := fun h => absurd (hnone.symm.trans (h ▸ hheld)) (by simp)
    have hold' : ts ≠ old.ts := by
      rintro rfl
      have hspec : Offer r s _ _ := .evicted old r' hfl hnone hcap hold hmin hlt hraise hat
      have := hspec.floor_lt (r.above old hold) hcount
      omega
    exact Or.inl (((hat ts).trans ((if_neg hts).trans (if_neg hold'))).trans hheld)

/-- The sample offered is within the one held for its second afterwards. -/
theorem Offer.within_self (h : Offer r s r' acc) (hfloor : r.floor < s.ts)
    (hcount : countAbove (insert s.ts r.seconds) s.ts < rawRingCap) :
    ∃ held, r'.sampleAt s.ts = some held ∧ s.Within held := by
  cases h with
  | old hold => omega
  | resend held _ hheld hin => exact ⟨held, hheld, hin⟩
  | merged held _ _ _ _ _ hat =>
    exact ⟨_, (hat s.ts).trans (if_pos rfl), RawSample.within_mergedWith_right held s⟩
  | full _ _ hcap hlow =>
    have hfull := countAbove_of_full hcap hlow
    have := countAbove_mono (Finset.subset_insert s.ts r.seconds) s.ts
    omega
  | added _ _ _ _ _ hat => exact ⟨s, (hat s.ts).trans (if_pos rfl), .refl s⟩
  | evicted _ _ _ _ _ _ _ _ _ hat => exact ⟨s, (hat s.ts).trans (if_pos rfl), .refl s⟩

/-- The seconds after one sample, with those still to come, were there before it. -/
private theorem countAbove_offer_le (h : Offer r s r' acc) (ss : List (RawSample F)) (ts : ℕ) :
    countAbove (r'.seconds ∪ secondsAbove r'.floor ss) ts ≤
      countAbove (r.seconds ∪ secondsAbove r.floor (s :: ss)) ts := by
  refine countAbove_mono (Finset.union_subset ?_ ?_) ts
  · by_cases hs : s.ts ≤ r.floor
    · rw [(h.refused_of_le_floor hs).1]
      exact Finset.subset_union_left
    · rw [h.seconds (not_le.mp hs), secondsAbove_cons (not_le.mp hs), Finset.union_insert,
        ← Finset.insert_union]
      exact (newest_subset _ _).trans Finset.subset_union_left
  · exact (secondsAbove_anti h.floor_le ss).trans
      ((secondsAbove_mono (List.subset_cons_self s ss) r.floor).trans Finset.subset_union_right)

omit [LinearOrder F] in
/-- The count above a second that is not shut out, as far as the sample at hand goes. -/
private theorem countAbove_insert_le {ts : ℕ} (hts : r.floor < ts) (ss : List (RawSample F)) :
    countAbove (insert s.ts r.seconds) ts ≤
      countAbove (r.seconds ∪ secondsAbove r.floor (s :: ss)) ts := by
  refine Finset.card_le_card (fun t ht => ?_)
  rw [Finset.mem_filter, Finset.mem_insert] at ht
  rw [Finset.mem_filter, Finset.mem_union, mem_secondsAbove]
  refine ⟨ht.1.symm.imp id (fun h => ⟨by omega, s, List.mem_cons_self, h.symm⟩), ht.2⟩

/-- A sample within the one held stays within, if the samples of its second to come agree
    with it. -/
theorem within_offers_of_held {ts : ℕ} {held : RawSample F} (hheld : r.sampleAt ts = some held)
    (hcount : countAbove (r.seconds ∪ secondsAbove r.floor ss) ts < rawRingCap)
    (hin : x.Within held) (hagree : ∀ s ∈ ss, s.ts = ts → x.Agrees s) :
    ∃ held', (r.offers ss).sampleAt ts = some held' ∧ x.Within held' := by
  induction ss generalizing r held with
  | nil => exact ⟨held, hheld, hin⟩
  | cons s ss ih =>
    have hfloor : r.floor < ts := floor_lt_of_mem_seconds (mem_seconds.mpr ⟨held, hheld⟩)
    have hspec := offer_spec r s
    have hnow := lt_of_le_of_lt (countAbove_insert_le hfloor ss) hcount
    have hlater := lt_of_le_of_lt (countAbove_offer_le hspec ss ts) hcount
    have hrest : ∀ s' ∈ ss, s'.ts = ts → x.Agrees s' :=
      fun s' hs' => hagree s' (List.mem_cons_of_mem _ hs')
    rcases hspec.sampleAt_of_some hheld hnow with hsame | ⟨hts, hmerged⟩
    · exact ih hsame hlater hin hrest
    · exact ih hmerged hlater (hin.mergedWith (hagree s List.mem_cons_self hts)) hrest

/-- **At a second that stays**, a sample of the batch ends up within the one held, if the
    samples of its second agree with it. -/
theorem within_offers (hx : x ∈ ss) (hfloor : r.floor < x.ts)
    (hcount : countAbove (r.seconds ∪ secondsAbove r.floor ss) x.ts < rawRingCap)
    (hagree : ∀ s ∈ ss, s.ts = x.ts → x.Agrees s) :
    ∃ held, (r.offers ss).sampleAt x.ts = some held ∧ x.Within held := by
  induction ss generalizing r with
  | nil => exact absurd hx List.not_mem_nil
  | cons s ss ih =>
    have hspec := offer_spec r s
    have hnow := lt_of_le_of_lt (countAbove_insert_le (s := s) hfloor ss) hcount
    have hlater := lt_of_le_of_lt (countAbove_offer_le hspec ss x.ts) hcount
    have hrest : ∀ s' ∈ ss, s'.ts = x.ts → x.Agrees s' :=
      fun s' hs' => hagree s' (List.mem_cons_of_mem _ hs')
    rcases List.mem_cons.mp hx with rfl | hx
    · obtain ⟨held, hheld, hin⟩ := hspec.within_self hfloor hnow
      rw [offers_cons]
      exact within_offers_of_held hheld hlater hin hrest
    · exact ih hx (hspec.floor_lt hfloor hnow) hlater hrest

/-! ### What the ring refuses afterwards -/

/-- The second is above the floor, and fewer than a full ring of seconds of the ring and of
    the batch lie above it. -/
def Survives (r : Ring F) (ss : List (RawSample F)) (ts : ℕ) : Prop :=
  r.floor < ts ∧ countAbove (r.seconds ∪ secondsAbove r.floor ss) ts < rawRingCap

theorem floor_le_offers (r : Ring F) (ss : List (RawSample F)) :
    r.floor ≤ (r.offers ss).floor := by
  induction ss generalizing r with
  | nil => exact le_refl _
  | cons s ss ih => exact (offer_spec r s).floor_le.trans (ih _)

/-- A second that survives is held. -/
theorem mem_seconds_offers {ts : ℕ} (hs : ∃ s ∈ ss, s.ts = ts) (hsurv : r.Survives ss ts) :
    ts ∈ (r.offers ss).seconds := by
  rw [seconds_offers, mem_newest, Finset.mem_union, mem_secondsAbove]
  exact ⟨Or.inr ⟨hsurv.1, hs⟩, hsurv.2⟩

/-- A second that does not survive is refused. -/
theorem refused_of_not_survives (hsurv : ¬ r.Survives ss s.ts)
    (h : Offer (r.offers ss) s r' acc) : acc = none := by
  rcases Nat.lt_or_ge r.floor s.ts with hlt | hle
  · have hcount : rawRingCap ≤ countAbove (r.offers ss).seconds s.ts := by
      rw [seconds_offers]
      exact le_countAbove_newest (not_lt.mp (fun hc => hsurv ⟨hlt, hc⟩))
    have hcard := (r.offers ss).card_seconds
    cases h with
    | old | resend | full => rfl
    | merged held _ _ hheld =>
      have := countAbove_lt_card (mem_seconds.mpr ⟨held, hheld⟩)
      have := (r.offers ss).card_seconds_le
      omega
    | added _ _ _ hroom =>
      have := Finset.card_le_card (Finset.filter_subset (s.ts < ·) (r.offers ss).seconds)
      rw [countAbove] at hcount
      omega
    | evicted old _ _ _ hcap hold _ hlt' =>
      -- the second about to be evicted lies below
      have hmem : old.ts ∈ (r.offers ss).seconds :=
        mem_seconds.mpr ⟨old, sampleAt_eq_some_iff.mpr ⟨hold, rfl⟩⟩
      have := countAbove_lt_card hmem
      have := countAbove_anti (r.offers ss).seconds hlt'.le
      omega
  · exact (h.refused_of_le_floor (hle.trans (floor_le_offers r ss))).2

/-- A second that survives is refused exactly when the sample is within the one held. -/
theorem refused_iff_within {held : RawSample F} (hheld : r.sampleAt s.ts = some held)
    (h : Offer r s r' acc) : acc = none ↔ s.Within held := by
  cases h with
  | old hfloor =>
    have := floor_lt_of_mem_seconds (mem_seconds.mpr ⟨held, hheld⟩)
    omega
  | resend held' _ hheld' hin =>
    obtain rfl := Option.some.inj (hheld'.symm.trans hheld)
    exact ⟨fun _ => hin, fun _ => rfl⟩
  | merged held' _ _ hheld' hnew =>
    obtain rfl := Option.some.inj (hheld'.symm.trans hheld)
    exact ⟨fun h => absurd h (by simp), fun h => absurd h hnew⟩
  | full _ hnone | added _ _ hnone | evicted _ _ _ hnone =>
    exact absurd (hnone.symm.trans hheld) (by simp)

/-- **When a batch can be repeated.** After a batch the ring refuses all of it again, if and
    only if at every second that survives the samples of the batch agree. -/
theorem all_refused_iff (r : Ring F) (ss : List (RawSample F)) :
    (∀ s ∈ ss, ((r.offers ss).offer s).2 = none) ↔
      ∀ s ∈ ss, ∀ s' ∈ ss, s'.ts = s.ts → r.Survives ss s.ts → s.Agrees s' := by
  constructor
  · intro hall s hs s' hs' hts hsurv
    obtain ⟨held, hheld⟩ := mem_seconds.mp (mem_seconds_offers ⟨s, hs, rfl⟩ hsurv)
    have hin := (refused_iff_within hheld (offer_spec _ s)).mp (hall s hs)
    have hin' := (refused_iff_within (hts.symm ▸ hheld) (offer_spec _ s')).mp (hall s' hs')
    exact hin.agrees hin'
  · intro hagree s hs
    by_cases hsurv : r.Survives ss s.ts
    · obtain ⟨held, hheld, hin⟩ := within_offers hs hsurv.1 hsurv.2
        (fun s' hs' hts => hagree s hs s' hs' hts hsurv)
      exact (refused_iff_within hheld (offer_spec _ s)).mpr hin
    · exact refused_of_not_survives hsurv (offer_spec _ s)

end Ring

end Mielofon
