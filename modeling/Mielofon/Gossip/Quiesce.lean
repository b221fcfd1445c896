import Mathlib
import Mielofon.Gossip.Samples
import Mielofon.Lib.Generated

namespace Mielofon

open Lib

/-!
# Sample gossip comes to rest

Every sample that changes a member's ring is logged there and pushed back.  As long as no two
samples in play state different values for one second, the merge is a join: a member only ever
holds joins of the samples in play, every change makes it cover one more of these, and so the
pushes end.  Two values for one second replace each other for ever.

* `Pair.push`, `exec_push` — a push that is merged and answered;
* `Pair.inPlay` — the samples in the rings, and those that a peer is still to merge;
* `Pair.Mergeable` — they agree, and no ring shuts one out;
* `Tsdb.Absorbs`, `absorbs_mergeDelta` — what merging samples made of those in play does;
* `Pair.Gossiping`, `Pair.todo` — the invariant of the rounds, and what they count down;
* `samples_come_to_rest` — alternating pushes end with equal rings;
* `echo_never_rests` — two values for one second.
-/

variable {F : Type*}

/-! ### A round -/

/-- The log entries a peer has not been sent. -/
def Tsdb.unsent (t : Tsdb F) (peer : String) : List (Entry F) :=
  t.recent.filter (fun e => t.sentWatermark peer < e.1)

namespace Tsdb

variable {t : Tsdb F} {peer : String}

theorem mem_unsent {e : Entry F} :
    e ∈ t.unsent peer ↔ e ∈ t.recent ∧ t.sentWatermark peer < e.1 := by
  rw [unsent, List.mem_filter, decide_eq_true_eq]

/-- A delta is the front of what was not sent. -/
theorem takeForPeer_eq (h : t.Logged) :
    (t.takeForPeer peer).1 = ((t.unsent peer).take deltaLimit).map Prod.snd := by
  unfold takeForPeer unsent
  dsimp only
  rw [← drop_partitionPoint h.ascending]
  rfl

/-- The mark of a delta is the watermark, or the number of an entry. -/
theorem takeForPeer_last (h : t.Logged) : (t.takeForPeer peer).2 < t.seq := by
  obtain ⟨-, -, -, -, hlast⟩ := takeDelta_spec h.ascending (t.sentWatermark peer) deltaLimit
  rcases hlast with hlast | ⟨e, he, hlast⟩
  · exact hlast ▸ h.marks peer
  · exact hlast ▸ (h.bounds e he).2

/-- What lies above the last entry of the front of a list in order is the rest. -/
private theorem filter_above_last {l : List (Entry F)} (hl : Ascending Prod.fst l) {n : ℕ}
    {b : Entry F} (hb : (l.take n).getLast? = some b) : l.filter (fun e => b.1 < e.1) = l.drop n := by
  have hsplit : Ascending Prod.fst (l.take n ++ l.drop n) := by rwa [List.take_append_drop]
  have hasc : Ascending Prod.fst (l.take n) := hl.sublist (List.take_sublist n l)
  have hfront : (l.take n).filter (fun e => b.1 < e.1) = [] := by
    rw [List.filter_eq_nil_iff]
    intro e he
    have := hasc.key_le_getLast he hb
    simpa using this
  have hrest : (l.drop n).filter (fun e => b.1 < e.1) = l.drop n := by
    rw [List.filter_eq_self]
    intro e he
    exact decide_eq_true ((List.pairwise_append.mp hsplit).2.2 b (List.mem_of_getLast? hb) e he)
  calc l.filter (fun e => b.1 < e.1)
      = (l.take n ++ l.drop n).filter (fun e => b.1 < e.1) := by rw [List.take_append_drop]
    _ = l.drop n := by rw [List.filter_append, hfront, hrest, List.nil_append]

/-- After the answer the rest is still to be sent. -/
theorem unsent_noteSent (h : t.Logged) :
    (t.noteSent peer (t.takeForPeer peer).2).unsent peer = (t.unsent peer).drop deltaLimit := by
  have hasc : Ascending Prod.fst (t.unsent peer) := h.ascending.sublist List.filter_sublist
  have hlast : (t.takeForPeer peer).2 =
      ((((t.unsent peer).take deltaLimit).getLast?).map Prod.fst).getD (t.sentWatermark peer) := by
    unfold takeForPeer unsent
    dsimp only
    rw [← drop_partitionPoint h.ascending]
    rfl
  unfold unsent at hlast hasc ⊢
  rw [sentWatermark_noteSent, if_pos rfl]
  show t.recent.filter _ = _
  cases hb : ((t.recent.filter (fun e => t.sentWatermark peer < e.1)).take deltaLimit).getLast? with
  | none =>
    -- there was nothing to send
    have hnil : t.recent.filter (fun e => t.sentWatermark peer < e.1) = [] := by
      rw [List.getLast?_eq_none_iff, List.take_eq_nil_iff] at hb
      exact hb.resolve_left (by decide)
    rw [hb] at hlast
    rw [hlast, hnil]
    exact hnil
  | some b =>
    rw [hb] at hlast
    rw [hlast, ← filter_above_last hasc hb, List.filter_filter]
    apply List.filter_congr
    intro e he
    have hbound : t.sentWatermark peer < b.1 :=
      of_decide_eq_true (List.mem_filter.mp (List.mem_of_mem_take (List.mem_of_getLast? hb))).2
    dsimp only [Option.map_some, Option.getD_some]
    by_cases hlt : b.1 < e.1
    · simp [hlt, hbound.trans hlt]
    · simp [hlt]

end Tsdb

namespace Pair

section Push

variable [LinearOrder F] [Zero F] [Add F] (name : Side → String)

/-- A push that is merged and answered. -/
def push (p : Pair F) (s : Side) : Pair F :=
  let res := (p s).takeForPeer (name s.peer)
  Function.update (Function.update p s.peer ((p s.peer).mergeDelta res.1)) s
    ((p s).noteSent (name s.peer) res.2)

/-- Several pushes, one after another. -/
def pushes (p : Pair F) (sides : List Side) : Pair F := sides.foldl (push name) p

/-- `n` rounds in which both members push. -/
def alternate : ℕ → List Side
  | 0 => []
  | n + 1 => .left :: .right :: alternate n

variable {name}

theorem push_self (p : Pair F) (s : Side) :
    push name p s s = (p s).noteSent (name s.peer) ((p s).takeForPeer (name s.peer)).2 :=
  Function.update_self _ _ _

theorem push_peer (p : Pair F) (s : Side) :
    push name p s s.peer = (p s.peer).mergeDelta ((p s).takeForPeer (name s.peer)).1 := by
  unfold push
  rw [Function.update_of_ne s.peer_ne, Function.update_self]

end Push

/-- The steps of a push with nothing in between. -/
theorem exec_push [LinearOrder F] [Zero F] [AddCommSemigroup F] {name : Side → String}
    (x : Exchanging F) (s : Side) :
    (exec (Exchanging.step name) Always x
      [.take s, .merge x.pushes.length, .note x.pushes.length]).map Exchanging.stores =
        some (push name x.stores s) := by
  have hset : ∀ q q' : SamplePush F,
      ((x.pushes ++ [q]).set x.pushes.length q')[x.pushes.length]? = some q' := by
    intro q q'
    rw [List.getElem?_set_self (by simp)]
  have hstore : ∀ t : Tsdb F, Function.update x.stores s.peer t s = x.stores s :=
    fun t => Function.update_of_ne s.peer_ne.symm _ _
  simp only [exec, if_true, Always, Exchanging.step, Option.bind_some,
    List.getElem?_concat_length, hset, hstore]
  rfl

end Pair

/-! ### What is in play -/

/-- The samples of the rings of a store. -/
def Tsdb.ringSamples (t : Tsdb F) : List (LinkKey × RawSample F) :=
  t.byLink.pairs.flatMap (fun e => e.2.samples.map (fun v => (e.1, v)))

theorem Tsdb.mem_ringSamples {t : Tsdb F} {l : LinkKey} {v : RawSample F} :
    (l, v) ∈ t.ringSamples ↔ v ∈ (t.ringOf l).samples := by
  rw [ringSamples, List.mem_flatMap, ringOf]
  constructor
  · rintro ⟨⟨l', ring⟩, hmem, hv⟩
    obtain ⟨v', hv', heq⟩ := List.mem_map.mp hv
    obtain ⟨rfl, rfl⟩ := Prod.mk.inj heq
    rw [Map.mem_pairs.mp hmem]
    exact hv'
  · intro hv
    cases hring : t.byLink.get l with
    | none =>
      rw [hring] at hv
      exact absurd hv List.not_mem_nil
    | some ring =>
      rw [hring] at hv
      exact ⟨(l, ring), Map.mem_pairs.mpr hring, List.mem_map.mpr ⟨v, hv, rfl⟩⟩

/-- The samples that a member has in play: those it holds, and those it has not sent and its peer
    does not shut out. -/
def Tsdb.inPlay (t peer : Tsdb F) (name : String) : List (LinkKey × RawSample F) :=
  ((t.unsent name).map Prod.snd).filter (fun x => (peer.ringOf x.1).floor < x.2.ts) ++ t.ringSamples

namespace Pair

/-- The samples in play at both members. -/
def inPlay (name : Side → String) (p : Pair F) : List (LinkKey × RawSample F) :=
  (p .left).inPlay (p .right) (name .right) ++ (p .right).inPlay (p .left) (name .left)

theorem mem_inPlay {name : Side → String} {p : Pair F} {x : LinkKey × RawSample F} :
    x ∈ p.inPlay name ↔ ∃ s : Side, x ∈ (p s).inPlay (p s.peer) (name s.peer) := by
  rw [inPlay, List.mem_append]
  constructor
  · rintro (h | h)
    · exact ⟨.left, h⟩
    · exact ⟨.right, h⟩
  · rintro ⟨s, h⟩
    cases s with
    | left => exact Or.inl h
    | right => exact Or.inr h

/-- No two samples in play state different values for one second, and no ring shuts one of them
    out or has to evict one. -/
structure Mergeable (name : Side → String) (p : Pair F) : Prop where
  agree : ∀ x ∈ p.inPlay name, ∀ y ∈ p.inPlay name, x.1 = y.1 → x.2.ts = y.2.ts → x.2.Agrees y.2
  above : ∀ x ∈ p.inPlay name, ∀ s, ((p s).ringOf x.1).floor < x.2.ts
  room : WithinCapacity (p.inPlay name)

end Pair

/-! ### Samples made of those in play -/

section Made

variable [LinearOrder F]

/-- One sample of a second of a link is within another. -/
def Below (x y : LinkKey × RawSample F) : Prop := x.1 = y.1 ∧ x.2.ts = y.2.ts ∧ x.2.Within y.2

namespace Below

theorem refl (x : LinkKey × RawSample F) : Below x x := ⟨rfl, rfl, .refl x.2⟩

theorem trans (x y z : LinkKey × RawSample F) (h : Below x y) (h' : Below y z) : Below x z :=
  ⟨h.1.trans h'.1, h.2.1.trans h'.2.1, h.2.2.trans h'.2.2⟩

end Below

variable {E : List (LinkKey × RawSample F)}

/-- Samples that agree are within the merge of all. -/
private theorem within_mergeAll {ss : List (RawSample F)} (h : ∀ a ∈ ss, ∀ b ∈ ss, a.Agrees b)
    {x : RawSample F} (hx : x ∈ ss) : ∃ j, RawSample.mergeAll ss = some j ∧ x.Within j := by
  induction ss using List.reverseRecOn with
  | nil => exact absurd hx List.not_mem_nil
  | append_singleton ss s ih =>
    rw [RawSample.mergeAll_concat]
    refine ⟨_, rfl, ?_⟩
    have hs := List.mem_append_right ss (List.mem_singleton_self s)
    rcases List.mem_append.mp hx with hx | hx
    · obtain ⟨j, hj, hin⟩ := ih (fun a ha b hb => h a (List.mem_append_left _ ha) b
        (List.mem_append_left _ hb)) hx
      rw [hj]
      exact hin.mergedWith (h x (List.mem_append_left _ hx) s hs)
    · rw [List.mem_singleton.mp hx]
      cases RawSample.mergeAll ss with
      | none => exact .refl s
      | some j => exact RawSample.within_mergedWith_right j s

private theorem ts_mergeAll {ss : List (RawSample F)} {ts : ℕ} (h : ∀ a ∈ ss, a.ts = ts)
    {j : RawSample F} (hj : RawSample.mergeAll ss = some j) : j.ts = ts := by
  induction ss using List.reverseRecOn generalizing j with
  | nil => exact absurd hj (by simp)
  | append_singleton ss s ih =>
    rw [RawSample.mergeAll_concat] at hj
    obtain rfl := Option.some.inj hj
    cases hheld : RawSample.mergeAll ss with
    | none => exact h s (List.mem_append_right _ (List.mem_singleton_self s))
    | some held =>
      show held.ts = ts
      exact ih (fun a ha => h a (List.mem_append_left _ ha)) hheld

/-- Samples of one second that are made of samples that agree do agree. -/
theorem agrees_of_madeOf (hagree : ∀ x ∈ E, ∀ y ∈ E, x.1 = y.1 → x.2.ts = y.2.ts → x.2.Agrees y.2)
    {l : LinkKey} {v w : RawSample F} (hv : MadeOf Below E (l, v)) (hw : MadeOf Below E (l, w))
    (hts : v.ts = w.ts) : v.Agrees w := by
  -- both are within the merge of all samples of the second
  have hmem : ∀ x, x ∈ (E.filter (fun e => e.1 = l ∧ e.2.ts = v.ts)).map Prod.snd ↔
      (l, x) ∈ E ∧ x.ts = v.ts := by
    intro x
    simp only [List.mem_map, List.mem_filter, decide_eq_true_eq]
    constructor
    · rintro ⟨⟨l', x'⟩, ⟨he, rfl, hx⟩, rfl⟩
      exact ⟨he, hx⟩
    · rintro ⟨he, hx⟩
      exact ⟨(l, x), ⟨he, rfl, hx⟩, rfl⟩
  generalize (E.filter (fun e => e.1 = l ∧ e.2.ts = v.ts)).map Prod.snd = ss at hmem
  have hss : ∀ a ∈ ss, ∀ b ∈ ss, a.Agrees b := by
    intro a ha b hb
    obtain ⟨ha, hats⟩ := (hmem a).mp ha
    obtain ⟨hb, hbts⟩ := (hmem b).mp hb
    exact hagree _ ha _ hb rfl (hats.trans hbts.symm)
  obtain ⟨⟨l', x⟩, he, hl, hx, -⟩ := hv.1
  obtain rfl : l' = l := hl
  obtain ⟨j, hj, -⟩ := within_mergeAll hss ((hmem x).mpr ⟨he, hx⟩)
  have hjts := ts_mergeAll (fun a ha => ((hmem a).mp ha).2) hj
  have hbelow : ∀ e ∈ E, e.1 = l' → e.2.ts = v.ts → Below e (l', j) := by
    rintro ⟨l'', y⟩ hyE hlink hy
    obtain rfl : l'' = l' := hlink
    obtain ⟨j', hj', hin⟩ := within_mergeAll hss ((hmem y).mpr ⟨hyE, hy⟩)
    obtain rfl := Option.some.inj (hj.symm.trans hj')
    exact ⟨rfl, hy.trans hjts.symm, hin⟩
  have hvj := (hv.2 (l', j) fun e he hev => hbelow e he hev.1 hev.2.1).2.2
  have hwj := (hw.2 (l', j) fun e he hew => hbelow e he hew.1 (hew.2.1.trans hts.symm)).2.2
  exact hvj.agrees hwj

namespace Tsdb

/-- Whether a ring of the store holds what a sample states. -/
def covers (t : Tsdb F) (x : LinkKey × RawSample F) : Bool :=
  match (t.ringOf x.1).sampleAt x.2.ts with
  | some w => decide (x.2.Within w)
  | none => false

theorem covers_iff {t : Tsdb F} {x : LinkKey × RawSample F} :
    t.covers x ↔ ∃ w, (t.ringOf x.1).sampleAt x.2.ts = some w ∧ x.2.Within w := by
  unfold covers
  cases (t.ringOf x.1).sampleAt x.2.ts with
  | none => simp
  | some w => simp

/-- A store all of whose samples are made of those of `E`, and whose rings shut none of these
    out. -/
structure Ready (E : List (LinkKey × RawSample F)) (t : Tsdb F) : Prop where
  held : ∀ l ts v, (t.ringOf l).sampleAt ts = some v → MadeOf Below E (l, v)
  above : ∀ e ∈ E, (t.ringOf e.1).floor < e.2.ts

/-- The store has merged samples made of those of `E`: the new versions are in its log, it covers
    what it covered, and one more of `E` for each new version. -/
structure Absorbs (E : List (LinkKey × RawSample F)) (t t' : Tsdb F) (new : List (Entry F)) :
    Prop where
  recent : t'.recent = t.recent ++ new
  marks : ∀ peer, t'.sentWatermark peer = t.sentWatermark peer
  numbers : ∀ e ∈ new, t.seq ≤ e.1
  seq : t.seq ≤ t'.seq
  floor : ∀ l, (t'.ringOf l).floor = (t.ringOf l).floor
  held : ∀ l ts v, (t'.ringOf l).sampleAt ts = some v →
    (t.ringOf l).sampleAt ts = some v ∨ ∃ seq, (seq, l, v) ∈ new
  grows : ∀ l ts v, (t.ringOf l).sampleAt ts = some v →
    ∃ w, (t'.ringOf l).sampleAt ts = some w ∧ v.Within w
  made : ∀ e ∈ new, MadeOf Below E e.2
  count : new.length + uncovered t'.covers E ≤ uncovered t.covers E

namespace Absorbs

variable {t t' t'' : Tsdb F} {new new' : List (Entry F)}

theorem refl (t : Tsdb F) : Absorbs E t t [] :=
  ⟨(List.append_nil _).symm, fun _ => rfl, fun _ he => absurd he List.not_mem_nil, le_refl _,
    fun _ => rfl, fun _ _ _ hv => Or.inl hv, fun _ _ v hv => ⟨v, hv, .refl v⟩,
    fun _ he => absurd he List.not_mem_nil, by simp⟩

theorem covers (h : Absorbs E t t' new) {x : LinkKey × RawSample F} (hx : t.covers x) :
    t'.covers x := by
  obtain ⟨w, hw, hin⟩ := covers_iff.mp hx
  obtain ⟨w', hw', hin'⟩ := h.grows _ _ w hw
  exact covers_iff.mpr ⟨w', hw', hin.trans hin'⟩

theorem ready (h : Absorbs E t t' new) (ht : t.Ready E) : t'.Ready E := by
  refine ⟨fun l ts v hv => ?_, fun e he => ?_⟩
  · rcases h.held l ts v hv with hv | ⟨seq, hnew⟩
    · exact ht.held l ts v hv
    · exact h.made _ hnew
  · rw [h.floor]
    exact ht.above e he

/-- The new versions are still to be sent. -/
theorem unsent (h : Absorbs E t t' new) (ht : t.Logged) (peer : String) :
    t'.unsent peer = t.unsent peer ++ new := by
  unfold Tsdb.unsent
  rw [h.recent, h.marks, List.filter_append]
  congr 1
  rw [List.filter_eq_self]
  intro e he
  exact decide_eq_true ((ht.marks peer).trans_le (h.numbers e he))

theorem trans (h : Absorbs E t t' new) (h' : Absorbs E t' t'' new') :
    Absorbs E t t'' (new ++ new') := by
  refine ⟨?_, fun peer => (h'.marks peer).trans (h.marks peer), fun e he => ?_, h.seq.trans h'.seq,
    fun l => (h'.floor l).trans (h.floor l), fun l ts v hv => ?_, fun l ts v hv => ?_,
    fun e he => ?_, ?_⟩
  · rw [h'.recent, h.recent, List.append_assoc]
  · rcases List.mem_append.mp he with he | he
    · exact h.numbers e he
    · exact h.seq.trans (h'.numbers e he)
  · rcases h'.held l ts v hv with hv | ⟨seq, hnew⟩
    · exact (h.held l ts v hv).imp id fun ⟨seq, hnew⟩ => ⟨seq, List.mem_append_left _ hnew⟩
    · exact Or.inr ⟨seq, List.mem_append_right _ hnew⟩
  · obtain ⟨w, hw, hin⟩ := h.grows l ts v hv
    obtain ⟨w', hw', hin'⟩ := h'.grows l ts w hw
    exact ⟨w', hw', hin.trans hin'⟩
  · exact (List.mem_append.mp he).elim (h.made e) (h'.made e)
  · have hcount := h.count
    have hcount' := h'.count
    rw [List.length_append]
    omega

end Absorbs

end Tsdb

namespace Tsdb

variable {t : Tsdb F} {l : LinkKey} {s : RawSample F}

/-- The floor is below every sample made of those of `E`. -/
private theorem Ready.floor_lt (ht : t.Ready E) (hs : MadeOf Below E (l, s)) :
    (t.ringOf l).floor < s.ts := by
  obtain ⟨e, he, hlink, hts, -⟩ := hs.1
  have habove := ht.above e he
  rwa [show e.1 = l from hlink, show e.2.ts = s.ts from hts] at habove

/-- The ring has room for every sample made of those of `E`. -/
private theorem Ready.room (ht : t.Ready E) (hroom : WithinCapacity E)
    (hs : MadeOf Below E (l, s)) :
    (insert s.ts (t.ringOf l).seconds).card ≤ rawRingCap := by
  have hsecond : ∀ v, MadeOf Below E (l, v) → v.ts ∈ secondsAbove 0 (batchOf E l) := by
    intro v hv
    obtain ⟨⟨l', x⟩, he, hlink, hts, -⟩ := hv.1
    obtain rfl : l' = l := hlink
    have hpos := ht.floor_lt hv
    exact mem_secondsAbove.mpr ⟨by omega, x, mem_batchOf.mpr he, hts⟩
  refine (Finset.card_le_card fun ts hts => ?_).trans (hroom l)
  rcases Finset.mem_insert.mp hts with rfl | hts
  · exact hsecond s hs
  · obtain ⟨v, hv⟩ := Ring.mem_seconds.mp hts
    obtain rfl := Ring.ts_of_sampleAt hv
    exact hsecond v (ht.held l _ v hv)

/-- The version that a ring makes of a sample is made of those of `E`, and is above the sample and
    the version before. -/
private theorem Ready.onto (ht : t.Ready E)
    (hagree : ∀ x ∈ E, ∀ y ∈ E, x.1 = y.1 → x.2.ts = y.2.ts → x.2.Agrees y.2)
    (hs : MadeOf Below E (l, s)) :
    MadeOf Below E (l, RawSample.onto ((t.ringOf l).sampleAt s.ts) s) ∧
      s.Within (RawSample.onto ((t.ringOf l).sampleAt s.ts) s) ∧
      ∀ held, (t.ringOf l).sampleAt s.ts = some held →
        held.Within (RawSample.onto ((t.ringOf l).sampleAt s.ts) s) := by
  cases hheld : (t.ringOf l).sampleAt s.ts with
  | none => exact ⟨hs, .refl s, fun _ h => absurd h (by simp)⟩
  | some held =>
    have hts := Ring.ts_of_sampleAt hheld
    have hmade := ht.held l _ held hheld
    have hin : held.Within (held.mergedWith s) :=
      (RawSample.Within.refl held).mergedWith (agrees_of_madeOf hagree hmade hs hts)
    have hin' := RawSample.within_mergedWith_right held s
    refine ⟨?_, hin', fun x hx => Option.some.inj hx ▸ hin⟩
    have hbelow : Below (l, held) (l, held.mergedWith s) := ⟨rfl, rfl, hin⟩
    have hbelow' : Below (l, s) (l, held.mergedWith s) := ⟨rfl, hts.symm, hin'⟩
    apply hmade.join Below.trans hs hbelow hbelow'
    rintro ⟨l', w⟩ ⟨hlink, hw, hle⟩ ⟨-, -, hle'⟩
    exact ⟨hlink, hw, RawSample.mergedWith_within hle hle'⟩

/-- A sample that is not covered states what one of `E` does that is not covered either. -/
private theorem exists_uncovered (hs : MadeOf Below E (l, s))
    (hnot : ¬ t.covers (l, s)) : ∃ e ∈ E, Below e (l, s) ∧ t.covers e = false := by
  cases hheld : (t.ringOf l).sampleAt s.ts with
  | none =>
    obtain ⟨e, he, hbelow⟩ := hs.1
    refine ⟨e, he, hbelow, ?_⟩
    rw [covers, show e.1 = l from hbelow.1, show e.2.ts = s.ts from hbelow.2.1, hheld]
  | some held =>
    have hts := Ring.ts_of_sampleAt hheld
    have hnew : ¬ Below (l, s) (l, held) :=
      fun h => hnot (covers_iff.mpr ⟨held, hheld, h.2.2⟩)
    obtain ⟨e, he, hbelow, hnew⟩ := hs.exists_new hnew
    refine ⟨e, he, hbelow, ?_⟩
    rw [covers, show e.1 = l from hbelow.1, show e.2.ts = s.ts from hbelow.2.1, hheld]
    apply decide_eq_false
    intro hin
    exact hnew ⟨hbelow.1, hbelow.2.1.trans hts.symm, hin⟩

end Tsdb

variable [Zero F] [Add F]

/-- A sample that the ring refuses. -/
private theorem Tsdb.absorbs_refused {t : Tsdb F} {l : LinkKey} {s : RawSample F}
    (hacc : ((t.ringOf l).offer s).2 = none) (persist : Bool) :
    Absorbs E t (t.ingest l s persist).1 [] ∧
      (t.ingest l s persist).1.covers = t.covers := by
  have hspec := t.ringOf_offer_spec l s
  have hring := t.ringOf_ingest l s persist
  have hf := Follows.ingest t l s persist
  rw [hacc] at hspec
  have hsame : ∀ l', (t.ingest l s persist).1.ringOf l' = t.ringOf l' := by
    intro l'
    rw [hring]
    split
    · rename_i heq
      rw [hspec.eq_of_none, heq]
    · rfl
  have hcov : (t.ingest l s persist).1.covers = t.covers := by
    funext x
    rw [covers, hsame, covers]
  refine ⟨⟨?_, hf.marks, fun _ he => absurd he List.not_mem_nil, hf.seq,
    fun l' => by rw [hsame], fun l' ts v hv => ?_, fun l' ts v hv => ?_,
    fun _ he => absurd he List.not_mem_nil, ?_⟩, hcov⟩
  · rw [ingest_of_refused persist hacc, List.append_nil]
  · rw [hsame] at hv
    exact Or.inl hv
  · rw [hsame]
    exact ⟨v, hv, .refl v⟩
  · rw [hcov]
    simp

/-- **Step lemma of a merge.** A sample made of those of `E` is covered already, or its new version
    covers one more. -/
theorem Tsdb.absorbs_ingest {t : Tsdb F} (ht : t.Ready E)
    (hagree : ∀ x ∈ E, ∀ y ∈ E, x.1 = y.1 → x.2.ts = y.2.ts → x.2.Agrees y.2)
    (hroom : WithinCapacity E) {l : LinkKey} {s : RawSample F} (hs : MadeOf Below E (l, s))
    (persist : Bool) : ∃ new, Absorbs E t (t.ingest l s persist).1 new ∧
      (t.ingest l s persist).1.covers (l, s) := by
  have hfloor := ht.floor_lt hs
  have hspec := t.ringOf_offer_spec l s
  have hring := t.ringOf_ingest l s persist
  have hf := Follows.ingest t l s persist
  rcases hspec.room (fun _ => ht.room hroom hs) with ⟨hacc, hold⟩ | ⟨hacc, -, hkeep, hat⟩
  · -- nothing new
    obtain ⟨habs, hcov⟩ := absorbs_refused (E := E) hacc persist
    obtain ⟨held, hheld, hin⟩ := hold.resolve_left (not_le.mpr hfloor)
    refine ⟨[], habs, ?_⟩
    rw [hcov]
    exact covers_iff.mpr ⟨held, hheld, hin⟩
  · -- a new version
    obtain ⟨hmade, hin, hgrow⟩ := ht.onto hagree hs
    have hnot : ¬ t.covers (l, s) := by
      intro hcov
      obtain ⟨held, hheld, hin⟩ := covers_iff.mp hcov
      rw [(Ring.refused_iff_within hheld hspec).mpr hin] at hacc
      exact absurd hacc (by simp)
    -- only what is now known of the version counts, not how it was merged
    generalize RawSample.onto ((t.ringOf l).sampleAt s.ts) s = version at hacc hat hmade hin hgrow
    have hat' : ∀ l' ts, ((t.ingest l s persist).1.ringOf l').sampleAt ts =
        if l' = l ∧ ts = s.ts then some version else (t.ringOf l').sampleAt ts := by
      intro l' ts
      rw [hring]
      by_cases hl : l' = l
      · subst hl
        rw [if_pos rfl, hat]
        simp
      · rw [if_neg hl, if_neg (fun h => hl h.1)]
    have hgrows : ∀ l' ts v, (t.ringOf l').sampleAt ts = some v →
        ∃ w, ((t.ingest l s persist).1.ringOf l').sampleAt ts = some w ∧ v.Within w := by
      intro l' ts v hv
      rw [hat']
      split
      · rename_i heq
        obtain ⟨rfl, rfl⟩ := heq
        exact ⟨version, rfl, hgrow v hv⟩
      · exact ⟨v, hv, .refl v⟩
    refine ⟨[(t.seq, l, version)], ⟨?_, hf.marks, fun e he => ?_, hf.seq, fun l' => ?_,
      fun l' ts v hv => ?_, hgrows, fun e he => ?_, ?_⟩, ?_⟩
    · rw [ingest_of_accepted persist hacc]
    · rw [List.mem_singleton.mp he]
    · rw [hring]
      split
      · rename_i heq
        rw [hkeep, heq]
      · rfl
    · rw [hat'] at hv
      split at hv
      · rename_i heq
        rw [heq.1, ← Option.some.inj hv]
        exact Or.inr ⟨t.seq, List.mem_singleton_self _⟩
      · exact Or.inl hv
    · rw [List.mem_singleton.mp he]
      exact hmade
    · -- what the sample states of `E` is covered from now on
      obtain ⟨e, he, hbelow, hold⟩ := exists_uncovered hs hnot
      have hnow : (t.ingest l s persist).1.covers e = true := by
        refine covers_iff.mpr ⟨version, ?_, hbelow.2.2.trans hin⟩
        rw [hat', if_pos ⟨hbelow.1, hbelow.2.1⟩]
      have hlt := uncovered_lt (fun x _ hx => ?_) he hold hnow
      · rw [List.length_singleton]
        omega
      · obtain ⟨w, hw, hle⟩ := covers_iff.mp hx
        obtain ⟨w', hw', hle'⟩ := hgrows _ _ w hw
        exact covers_iff.mpr ⟨w', hw', hle.trans hle'⟩
    · refine covers_iff.mpr ⟨version, ?_, hin⟩
      rw [hat', if_pos ⟨rfl, rfl⟩]

/-- A batch of such samples, and of samples that the rings shut out. -/
theorem Tsdb.absorbs_mergeDelta {t : Tsdb F} (ht : t.Ready E)
    (hagree : ∀ x ∈ E, ∀ y ∈ E, x.1 = y.1 → x.2.ts = y.2.ts → x.2.Agrees y.2)
    (hroom : WithinCapacity E) {b : List (LinkKey × RawSample F)}
    (hb : ∀ x ∈ b, MadeOf Below E x ∨ x.2.ts ≤ (t.ringOf x.1).floor) :
    ∃ new, Absorbs E t (t.mergeDelta b) new ∧
      ∀ x ∈ b, MadeOf Below E x → (t.mergeDelta b).covers x := by
  induction b generalizing t with
  | nil => exact ⟨[], Absorbs.refl t, fun _ hx => absurd hx List.not_mem_nil⟩
  | cons p b ih =>
    have hfirst : ∃ new, Absorbs E t (t.ingest p.1 p.2 true).1 new ∧
        (MadeOf Below E p → (t.ingest p.1 p.2 true).1.covers p) := by
      rcases hb p List.mem_cons_self with hmade | hold
      · obtain ⟨new, habs, hcov⟩ := absorbs_ingest ht hagree hroom hmade true
        exact ⟨new, habs, fun _ => hcov⟩
      · have hacc := ((t.ringOf_offer_spec p.1 p.2).refused_of_le_floor hold).2
        refine ⟨[], (absorbs_refused hacc true).1, fun hmade => ?_⟩
        exact absurd hold (not_le.mpr (ht.floor_lt hmade))
    obtain ⟨new, habs, hcov⟩ := hfirst
    obtain ⟨new', habs', hcov'⟩ := ih (habs.ready ht) fun x hx => by
      rw [habs.floor]
      exact hb x (List.mem_cons_of_mem _ hx)
    refine ⟨new ++ new', habs.trans habs', fun x hx hmade => ?_⟩
    rcases List.mem_cons.mp hx with rfl | hx
    · exact habs'.covers (hcov hmade)
    · exact hcov' x hx hmade

/-! ### The rounds -/

namespace Pair

variable {name : Side → String} {p : Pair F}

omit [Zero F] [Add F] in
/-- Everything held is made of the samples of `E`, everything to be sent too or the peer shuts it
    out, and what a member holds it has still to send, or its peer covers it. -/
structure Gossiping (name : Side → String) (E : List (LinkKey × RawSample F)) (p : Pair F) :
    Prop where
  logged : ∀ s, (p s).Logged
  ready : ∀ s, (p s).Ready E
  unsent : ∀ s, ∀ e ∈ (p s).unsent (name s.peer),
    MadeOf Below E e.2 ∨ e.2.2.ts ≤ ((p s.peer).ringOf e.2.1).floor
  shown : ∀ s l ts v, ((p s).ringOf l).sampleAt ts = some v →
    (∃ seq, (seq, l, v) ∈ (p s).unsent (name s.peer)) ∨ (p s.peer).covers (l, v)

omit [Zero F] [Add F] in
/-- The entries a member has still to send, and the samples of `E` it does not cover. -/
def todo (name : Side → String) (E : List (LinkKey × RawSample F)) (p : Pair F) (s : Side) : ℕ :=
  ((p s).unsent (name s.peer)).length + uncovered (p s).covers E

omit [Zero F] [Add F] in
/-- Neither member has anything to send. -/
def Quiet (name : Side → String) (p : Pair F) : Prop :=
  ∀ s, ((p s).takeForPeer (name s.peer)).1 = []

omit [LinearOrder F] [Zero F] [Add F] in
theorem takeForPeer_eq_nil_iff {t : Tsdb F} {peer : String} (h : t.Logged) :
    (t.takeForPeer peer).1 = [] ↔ t.unsent peer = [] := by
  rw [Tsdb.takeForPeer_eq h, List.map_eq_nil_iff, List.take_eq_nil_iff]
  exact or_iff_right (by decide)

theorem unsent_push_self {s : Side} (h : (p s).Logged) :
    (push name p s s).unsent (name s.peer) = ((p s).unsent (name s.peer)).drop deltaLimit := by
  rw [push_self]
  exact Tsdb.unsent_noteSent h

theorem ringOf_push_self (s : Side) (l : LinkKey) : (push name p s s).ringOf l = (p s).ringOf l := by
  rw [push_self]
  rfl

theorem covers_push_self (s : Side) : (push name p s s).covers = (p s).covers := by
  funext x
  rw [Tsdb.covers, ringOf_push_self, Tsdb.covers]

namespace Gossiping

variable (hagree : ∀ x ∈ E, ∀ y ∈ E, x.1 = y.1 → x.2.ts = y.2.ts → x.2.Agrees y.2)
  (hroom : WithinCapacity E)
include hagree hroom

/-- What a push does to the peer. -/
theorem absorbs (h : Gossiping name E p) (s : Side) : ∃ new,
    Tsdb.Absorbs E (p s.peer) (push name p s s.peer) new ∧
      (((p s).unsent (name s.peer)) = [] → new = []) ∧
      ∀ e ∈ ((p s).unsent (name s.peer)).take deltaLimit, MadeOf Below E e.2 →
        (push name p s s.peer).covers e.2 := by
  rw [push_peer]
  have hdelta : ((p s).takeForPeer (name s.peer)).1 =
      (((p s).unsent (name s.peer)).take deltaLimit).map Prod.snd := Tsdb.takeForPeer_eq (h.logged s)
  have hmade : ∀ x ∈ ((p s).takeForPeer (name s.peer)).1,
      MadeOf Below E x ∨ x.2.ts ≤ ((p s.peer).ringOf x.1).floor := by
    intro x hx
    rw [hdelta] at hx
    obtain ⟨e, he, rfl⟩ := List.mem_map.mp hx
    exact h.unsent s e (List.mem_of_mem_take he)
  obtain ⟨new, habs, hcov⟩ := Tsdb.absorbs_mergeDelta (h.ready s.peer) hagree hroom hmade
  refine ⟨new, habs, fun hnil => ?_, fun e he => ?_⟩
  · have hrecent := habs.recent
    rw [(takeForPeer_eq_nil_iff (h.logged s)).mpr hnil, Tsdb.mergeDelta_nil] at hrecent
    exact List.self_eq_append_right.mp hrecent
  · apply hcov
    rw [hdelta]
    exact List.mem_map_of_mem he

/-- **Step lemma of a push.** -/
theorem push (h : Gossiping name E p) (s : Side) : Gossiping name E (push name p s) := by
  obtain ⟨new, habs, -, hcov⟩ := h.absorbs hagree hroom s
  -- on the sender's side the batch is gone; on the other the merge adds what it made new
  have hrest : (Pair.push name p s s).unsent (name s.peer) =
      ((p s).unsent (name s.peer)).drop deltaLimit := unsent_push_self (h.logged s)
  have hnew := habs.unsent (h.logged s.peer) (name s.peer.peer)
  refine ⟨fun u => ?_, fun u => ?_, fun u e he => ?_, fun u l ts v hv => ?_⟩
  · rcases s.eq_or_eq_peer u with rfl | rfl
    · rw [push_self]
      exact (h.logged u).noteSent _ (Tsdb.takeForPeer_last (h.logged u))
    · rw [push_peer]
      exact (Tsdb.Follows.mergeDelta _ _).logged (h.logged s.peer)
  · rcases s.eq_or_eq_peer u with rfl | rfl
    · refine ⟨fun l ts v hv => ?_, fun e he => ?_⟩
      · rw [ringOf_push_self] at hv
        exact (h.ready u).held l ts v hv
      · rw [ringOf_push_self]
        exact (h.ready u).above e he
    · exact habs.ready (h.ready s.peer)
  · rcases s.eq_or_eq_peer u with rfl | rfl
    · rw [hrest] at he
      rw [habs.floor]
      exact h.unsent u e (List.mem_of_mem_drop he)
    · rw [hnew] at he
      rw [Side.peer_peer, ringOf_push_self]
      rcases List.mem_append.mp he with he | he
      · have hold := h.unsent s.peer e he
        rwa [Side.peer_peer] at hold
      · exact Or.inl (habs.made e he)
  · rcases s.eq_or_eq_peer u with rfl | rfl
    · rw [ringOf_push_self] at hv
      rw [hrest]
      rcases h.shown u l ts v hv with ⟨seq, he⟩ | hshown
      · -- it was sent by this push, or is still to be sent
        rw [← List.take_append_drop deltaLimit ((p u).unsent (name u.peer)),
          List.mem_append] at he
        exact he.symm.imp (fun he => ⟨seq, he⟩) (fun he => hcov _ he ((h.ready u).held l ts v hv))
      · exact Or.inr (habs.covers hshown)
    · rw [hnew, Side.peer_peer, covers_push_self]
      rcases habs.held l ts v hv with hv | ⟨seq, he⟩
      · have hold := h.shown s.peer l ts v hv
        rw [Side.peer_peer] at hold
        exact hold.imp (fun ⟨seq, he⟩ => ⟨seq, List.mem_append_left _ he⟩) id
      · exact Or.inl ⟨seq, List.mem_append_right _ he⟩

/-- A push sends on as much as it makes the peer log. -/
theorem todo_push (h : Gossiping name E p) (s : Side) :
    todo name E (Pair.push name p s) s + todo name E (Pair.push name p s) s.peer +
      min deltaLimit ((p s).unsent (name s.peer)).length ≤
    todo name E p s + todo name E p s.peer := by
  obtain ⟨new, habs, -, -⟩ := h.absorbs hagree hroom s
  have hrest : (Pair.push name p s s).unsent (name s.peer) =
      ((p s).unsent (name s.peer)).drop deltaLimit := unsent_push_self (h.logged s)
  have hnew := habs.unsent (h.logged s.peer) (name s.peer.peer)
  have hcount := habs.count
  unfold todo
  rw [hrest, hnew, covers_push_self, List.length_drop, List.length_append]
  omega

/-- With nothing left to send nothing is sent. -/
theorem rest_push (h : Gossiping name E p) (hrest : ∀ s, (p s).unsent (name s.peer) = [])
    (s u : Side) : (Pair.push name p s u).unsent (name u.peer) = [] := by
  obtain ⟨new, habs, hnil, -⟩ := h.absorbs hagree hroom s
  rcases s.eq_or_eq_peer u with rfl | rfl
  · rw [unsent_push_self (h.logged u), hrest, List.drop_nil]
  · rw [habs.unsent (h.logged s.peer), hrest, hnil (hrest s), List.append_nil]

theorem rest_pushes (h : Gossiping name E p) (hrest : ∀ s, (p s).unsent (name s.peer) = [])
    (sides : List Side) : Gossiping name E (pushes name p sides) ∧
      ∀ s, (pushes name p sides s).unsent (name s.peer) = [] := by
  induction sides generalizing p with
  | nil => exact ⟨h, hrest⟩
  | cons s sides ih => exact ih (h.push hagree hroom s) (h.rest_push hagree hroom hrest s)

/-- **Run lemma of the rounds**, by what is left to do. -/
theorem comes_to_rest (h : Gossiping name E p) : ∃ n,
    Gossiping name E (pushes name p (alternate n)) ∧
      ∀ s, (pushes name p (alternate n) s).unsent (name s.peer) = [] := by
  induction htodo : todo name E p .left + todo name E p .right using Nat.strong_induction_on
    generalizing p with
  | _ total ih =>
    by_cases hrest : ∀ s, (p s).unsent (name s.peer) = []
    · exact ⟨0, h, hrest⟩
    · have hleft := h.push hagree hroom .left
      have hcount : todo name E (Pair.push name p .left) .left +
          todo name E (Pair.push name p .left) .right +
          min deltaLimit ((p .left).unsent (name .right)).length ≤
            todo name E p .left + todo name E p .right := h.todo_push hagree hroom .left
      have hcount' : todo name E (Pair.push name (Pair.push name p .left) .right) .right +
          todo name E (Pair.push name (Pair.push name p .left) .right) .left +
          min deltaLimit ((Pair.push name p .left .right).unsent (name .left)).length ≤
            todo name E (Pair.push name p .left) .right +
              todo name E (Pair.push name p .left) .left := hleft.todo_push hagree hroom .right
      obtain ⟨new, habs, -, -⟩ := h.absorbs hagree hroom .left
      -- what the right member had still to send it has still to send in the second push
      have hgrown : ((p .right).unsent (name .left)).length ≤
          ((Pair.push name p .left .right).unsent (name .left)).length := by
        have hunsent : (Pair.push name p .left .right).unsent (name .left) =
            (p .right).unsent (name .left) ++ new := habs.unsent (h.logged .right) (name .left)
        rw [hunsent, List.length_append]
        omega
      have hsome : 0 < ((p .left).unsent (name .right)).length ∨
          0 < ((p .right).unsent (name .left)).length := by
        by_contra hnone
        apply hrest
        rw [not_or, not_lt, not_lt, Nat.le_zero, Nat.le_zero, List.length_eq_zero_iff,
          List.length_eq_zero_iff] at hnone
        intro s
        cases s with
        | left => exact hnone.1
        | right => exact hnone.2
      have hlimit : 0 < deltaLimit := by decide
      obtain ⟨n, hn⟩ := ih _ (by omega) (hleft.push hagree hroom .right) rfl
      exact ⟨n + 1, hn⟩

end Gossiping

omit [Zero F] [Add F] in
/-- At rest the members hold the same samples. -/
theorem Gossiping.samples_eq (h : Gossiping name E p)
    (hrest : ∀ s, (p s).unsent (name s.peer) = []) (l : LinkKey) :
    ((p .left).ringOf l).samples = ((p .right).ringOf l).samples := by
  have hcovers : ∀ s ts v, ((p s).ringOf l).sampleAt ts = some v →
      ∃ w, ((p s.peer).ringOf l).sampleAt ts = some w ∧ v.Within w := by
    intro s ts v hv
    obtain rfl := Ring.ts_of_sampleAt hv
    rcases h.shown s l _ v hv with ⟨seq, he⟩ | hcov
    · rw [hrest] at he
      exact absurd he List.not_mem_nil
    · exact Tsdb.covers_iff.mp hcov
  have hsame : ∀ s ts v, ((p s).ringOf l).sampleAt ts = some v →
      ((p s.peer).ringOf l).sampleAt ts = some v := by
    intro s ts v hv
    obtain ⟨w, hw, hin⟩ := hcovers s ts v hv
    obtain ⟨v', hv', hin'⟩ := hcovers s.peer ts w hw
    rw [Side.peer_peer, hv] at hv'
    obtain rfl := Option.some.inj hv'
    rw [hw, hin.antisymm ((Ring.ts_of_sampleAt hv).trans (Ring.ts_of_sampleAt hw).symm) hin']
  apply Ascending.eq_of_slot (Ring.ascending _) (Ring.ascending _)
  intro ts
  ext v
  exact ⟨hsame .left ts v, hsame .right ts v⟩

omit [Zero F] [Add F] in
/-- The rounds begin with what is in play. -/
theorem gossiping_of_inv {x : Exchanging F} (h : x.Inv name) (hm : x.stores.Mergeable name) :
    Gossiping name (x.stores.inPlay name) x.stores := by
  have hheld : ∀ s l ts v, ((x.stores s).ringOf l).sampleAt ts = some v →
      (l, v) ∈ x.stores.inPlay name := by
    intro s l ts v hv
    refine mem_inPlay.mpr ⟨s, List.mem_append_right _ ?_⟩
    exact Tsdb.mem_ringSamples.mpr (Ring.sampleAt_eq_some_iff.mp hv).1
  have hsecond : ∀ l v, (l, v) ∈ x.stores.inPlay name →
      v.ts ∈ secondsAbove 0 (batchOf (x.stores.inPlay name) l) := by
    intro l v hv
    have habove : ((x.stores .left).ringOf l).floor < v.ts := hm.above (l, v) hv .left
    exact mem_secondsAbove.mpr ⟨by omega, v, mem_batchOf.mpr hv, rfl⟩
  refine ⟨h.logged, fun s => ⟨fun l ts v hv => ?_, fun e he => hm.above e he s⟩, fun s e he => ?_,
    fun s l ts v hv => ?_⟩
  · exact MadeOf.of_mem Below.refl (hheld s l ts v hv)
  · -- what the peer's ring has already left behind needs no sending
    by_cases hold : e.2.2.ts ≤ ((x.stores s.peer).ringOf e.2.1).floor
    · exact Or.inr hold
    · left
      apply MadeOf.of_mem Below.refl
      refine mem_inPlay.mpr ⟨s, List.mem_append_left _ ?_⟩
      exact List.mem_filter.mpr ⟨List.mem_map_of_mem he, decide_eq_true (not_le.mp hold)⟩
  · have hv' := hheld s l ts v hv
    obtain ⟨seq, he⟩ := (h.logged s).rings l ts v hv
    by_cases hwm : (x.stores s).sentWatermark (name s.peer) < seq
    · exact Or.inl ⟨seq, Tsdb.mem_unsent.mpr ⟨he, hwm⟩⟩
    · -- the peer has seen it, and could not shut it out
      right
      rcases h.seen s _ he (not_lt.mp hwm) with hfloor | hfull | ⟨w, hw, hst⟩
      · have habove := hm.above _ hv' s.peer
        dsimp only at hfloor habove
        omega
      · have hsub : ((x.stores s.peer).ringOf l).seconds ⊆
            secondsAbove 0 (batchOf (x.stores.inPlay name) l) := by
          intro t ht
          obtain ⟨y, hy⟩ := Ring.mem_seconds.mp ht
          obtain rfl := Ring.ts_of_sampleAt hy
          exact hsecond l y (hheld s.peer l _ y hy)
        have hmono := countAbove_mono hsub v.ts
        have hlt := countAbove_lt_card (hsecond l v hv')
        have hroom := hm.room l
        dsimp only at hfull
        omega
      · apply Tsdb.covers_iff.mpr
        refine ⟨w, hw, hst.within ?_⟩
        exact hm.agree _ hv' _ (hheld s.peer l _ w hw) rfl (Ring.ts_of_sampleAt hw).symm

end Pair

end Made

section Rest

variable [LinearOrder F] [Zero F] [AddCommSemigroup F]

/-- **Sample gossip comes to rest.**  From any stores that two members reach with restarts that
    recover, if no two samples in play state different values for one second and no ring shuts one
    of them out, finitely many rounds end with both deltas empty for good and the same samples at
    both members. -/
theorem samples_come_to_rest {name : Side → String} {cfg : Side → TsConfig}
    {db : Side → Option (Db F)} {now : Side → ℕ} {x : Exchanging F}
    (h : Runs (Exchanging.step name) Exchanging.Recovers (Exchanging.start cfg db now) x)
    (hm : x.stores.Mergeable name) : ∃ n, ∀ sides,
      Pair.Quiet name (Pair.pushes name (Pair.pushes name x.stores (Pair.alternate n)) sides) ∧
      ∀ l, ((Pair.pushes name (Pair.pushes name x.stores (Pair.alternate n)) sides
        .left).ringOf l).samples =
        ((Pair.pushes name (Pair.pushes name x.stores (Pair.alternate n)) sides
          .right).ringOf l).samples := by
  have hg := Pair.gossiping_of_inv (Exchanging.inv_of_runs h (Exchanging.inv_start name cfg db now))
    hm
  obtain ⟨n, hn, hrest⟩ := hg.comes_to_rest hm.agree hm.room
  refine ⟨n, fun sides => ?_⟩
  obtain ⟨hlater, hempty⟩ := hn.rest_pushes hm.agree hm.room hrest sides
  exact ⟨fun s => (Pair.takeForPeer_eq_nil_iff (hlater.logged s)).mpr (hempty s),
    hlater.samples_eq hempty⟩

end Rest

/-! ### Two values for one second -/

/-- The names of the members. -/
private def hubs : Side → String
  | .left => "hub-a"
  | .right => "hub-b"

private def freshHubs : Exchanging ℕ :=
  Exchanging.start (fun _ => ⟨"", 7200, 86400⟩) (fun _ => none) (fun _ => 0)

/-- The members after a report at each. -/
private def reportedHubs (x y : RawSample ℕ) : Exchanging ℕ :=
  (exec (Exchanging.step hubs) Always freshHubs
    [.ingest .left echoKey x true, .ingest .right echoKey y true]).getD freshHubs

private theorem runs_reportedHubs (x y : RawSample ℕ) :
    Runs (Exchanging.step hubs) Exchanging.Recovers freshHubs (reportedHubs x y) :=
  .cons (.ingest .left echoKey x true) trivial rfl
    (.cons (.ingest .right echoKey y true) trivial rfl (.refl _))

/-- Reports of different seconds at the two members. -/
theorem two_reports_come_to_rest : ∃ p : Pair ℕ, (p .left).seq = 2 ∧ (p .right).seq = 2 ∧ ∃ n,
    ∀ sides, Pair.Quiet hubs (Pair.pushes hubs (Pair.pushes hubs p (Pair.alternate n)) sides) ∧
      ∀ l, ((Pair.pushes hubs (Pair.pushes hubs p (Pair.alternate n)) sides .left).ringOf
        l).samples =
        ((Pair.pushes hubs (Pair.pushes hubs p (Pair.alternate n)) sides .right).ringOf
          l).samples := by
  refine ⟨_, by decide, by decide, samples_come_to_rest
    (runs_reportedHubs (rttSample 60 5) (rttSample 61 6)) ⟨?_, ?_, .of_length ?_⟩⟩
  · decide
  · intro x hx s
    cases s <;> revert x <;> decide
  · decide

/-- The ring that holds one of two round-trip times of a second. -/
private def echoRing : Ring ℕ := (Ring.empty.offer (rttSample 60 5)).1

private theorem echoRing_offer :
    (echoRing.offer (rttSample 60 6)).2 = some ⟨some (rttSample 60 5), rttSample 60 6⟩ ∧
      ((echoRing.offer (rttSample 60 6)).1.offer (rttSample 60 5)).2 =
        some ⟨some (rttSample 60 6), rttSample 60 5⟩ ∧
      ((echoRing.offer (rttSample 60 6)).1.offer (rttSample 60 5)).1 = echoRing :=
  ⟨by decide, by decide, Ring.ext_data (by decide) (by decide)⟩

/-- One member has just been sent both values, the later one last, and logged both. -/
private structure Echo (p : Pair ℕ) (s : Side) : Prop where
  logged : ∀ u, (p u).Logged
  ring : ∀ u, (p u).ringOf echoKey = echoRing
  unsent : ((p s).unsent (hubs s.peer)).map Prod.snd =
    [(echoKey, rttSample 60 6), (echoKey, rttSample 60 5)]
  answered : (p s.peer).unsent (hubs s.peer.peer) = []

/-- What an accepted sample adds to what is to be sent. -/
private theorem unsent_ingest {t : Tsdb ℕ} (h : t.Logged) {l : LinkKey} {s : RawSample ℕ}
    {acc : Accepted ℕ} (hacc : ((t.ringOf l).offer s).2 = some acc) (peer : String) :
    (t.ingest l s true).1.unsent peer = t.unsent peer ++ [(t.seq, l, acc.sample)] := by
  rw [Tsdb.ingest_of_accepted true hacc]
  show (t.recent ++ [(t.seq, l, acc.sample)]).filter (fun e => t.sentWatermark peer < e.1) = _
  rw [List.filter_append, Tsdb.unsent]
  congr 1
  rw [List.filter_eq_self]
  intro e he
  rw [List.mem_singleton.mp he]
  exact decide_eq_true (h.marks peer)

/-- The peer logs both values again. -/
private theorem Echo.push {p : Pair ℕ} {s : Side} (h : Echo p s) :
    Echo (Pair.push hubs p s) s.peer := by
  obtain ⟨hsix, hfive, hback⟩ := echoRing_offer
  have hbatch : ((p s).takeForPeer (hubs s.peer)).1 =
      [(echoKey, rttSample 60 6), (echoKey, rttSample 60 5)] := by
    rw [Tsdb.takeForPeer_eq (h.logged s), List.map_take, h.unsent]
    rfl
  have hpeer : Pair.push hubs p s s.peer =
      (p s.peer).mergeDelta ((p s).takeForPeer (hubs s.peer)).1 := Pair.push_peer p s
  rw [hbatch, Tsdb.mergeDelta_cons, Tsdb.mergeDelta_cons, Tsdb.mergeDelta_nil] at hpeer
  have hlogged := (h.logged s.peer).ingest echoKey (rttSample 60 6) true
  have hring : ((p s.peer).ingest echoKey (rttSample 60 6) true).1.ringOf echoKey =
      (echoRing.offer (rttSample 60 6)).1 := by
    rw [Tsdb.ringOf_ingest, if_pos rfl, h.ring]
  rw [← h.ring s.peer] at hsix
  rw [← hring] at hfive hback
  refine ⟨fun u => ?_, fun u => ?_, ?_, ?_⟩
  · rcases s.eq_or_eq_peer u with rfl | rfl
    · rw [Pair.push_self]
      exact (h.logged u).noteSent _ (Tsdb.takeForPeer_last (h.logged u))
    · rw [hpeer]
      exact hlogged.ingest _ _ _
  · rcases s.eq_or_eq_peer u with rfl | rfl
    · rw [Pair.ringOf_push_self, h.ring]
    · rw [hpeer, Tsdb.ringOf_ingest, if_pos rfl, hback]
  · rw [hpeer, unsent_ingest hlogged hfive, unsent_ingest (h.logged s.peer) hsix, h.answered]
    rfl
  · rw [Side.peer_peer, Pair.unsent_push_self (h.logged s), List.drop_eq_nil_iff,
      ← List.length_map Prod.snd, h.unsent]
    decide

/-- And so on. -/
private theorem Echo.alternate {p : Pair ℕ} (h : Echo p .left) (n : ℕ) :
    Echo (Pair.pushes hubs p (Pair.alternate n)) .left := by
  induction n generalizing p with
  | zero => exact h
  | succ n ih => exact ih h.push.push

private theorem Echo.not_quiet {p : Pair ℕ} {s : Side} (h : Echo p s) : ¬ Pair.Quiet hubs p := by
  intro hquiet
  have hnil := (Pair.takeForPeer_eq_nil_iff (h.logged s)).mp (hquiet s)
  have hunsent := h.unsent
  rw [hnil] at hunsent
  exact absurd hunsent (by simp)

/-- **Two values for one second echo for ever.** -/
theorem echo_never_rests : ∃ x : Exchanging ℕ,
    Runs (Exchanging.step hubs) Always freshHubs x ∧
      ∀ n, ¬ Pair.Quiet hubs (Pair.pushes hubs x.stores (Pair.alternate n)) := by
  have hruns := runs_reportedHubs (rttSample 60 5) (rttSample 60 6)
  refine ⟨_, hruns.mono fun _ _ _ => trivial, fun n => ?_⟩
  have hinv := Exchanging.inv_of_runs hruns (Exchanging.inv_start hubs _ _ _)
  cases n with
  | zero =>
    intro hquiet
    have hempty := hquiet .left
    revert hempty
    decide
  | succ n =>
    refine (Echo.alternate (Echo.push (s := .right) ⟨fun u => ?_, fun u => ?_, ?_, ?_⟩) n).not_quiet
    · cases u with
      | left => exact (hinv.logged .left).noteSent _ (Tsdb.takeForPeer_last (hinv.logged .left))
      | right => exact (Tsdb.Follows.mergeDelta _ _).logged (hinv.logged .right)
    · cases u with
      | left => exact Ring.ext_data (by decide) (by decide)
      | right => exact Ring.ext_data (by decide) (by decide)
    · decide
    · decide

end Mielofon
