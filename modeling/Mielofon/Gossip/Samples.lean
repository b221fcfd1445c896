import Mathlib
import Mielofon.Lib.Runs
import Mielofon.Tsdb.Durable

namespace Mielofon

open Lib

/-!
# Sample gossip between two members

Every round a member pushes the samples its log has above the peer's watermark, the peer merges
them, and once its answer is back the watermark is advanced (`gossip.rs`).  In between the
members ingest, prune, flush, push to each other and start again, and answers may come late or
never.

* `Exchanging`, `Exchanging.step` — two members and the pushes under way;
* `Ring.Seen` — what a ring holds of a sample it was offered once;
* `Tsdb.Logged` — a log in order that holds every sample of the rings;
* `Exchanging.Recovers` — a restart brings back what the peer's log has and was seen;
* `Exchanging.Inv`, `inv_of_runs` — whatever is up to a watermark, the peer has seen.
-/

variable {F : Type*}

/-- The two members. -/
inductive Side where
  | left
  | right
deriving DecidableEq, Repr

/-- The peer of a member. -/
def Side.peer : Side → Side
  | .left => .right
  | .right => .left

@[simp] theorem Side.peer_peer (s : Side) : s.peer.peer = s := by cases s <;> rfl

theorem Side.peer_ne (s : Side) : s.peer ≠ s := by cases s <;> decide

theorem Side.eq_or_eq_peer (s t : Side) : t = s ∨ t = s.peer := by cases s <;> cases t <;> decide

/-- The stores of the two members. -/
abbrev Pair (F : Type*) := Side → Tsdb F

/-- A push under way: who sent it, the samples, the mark its answer advances the watermark to, and
    whether the peer has merged it. -/
structure SamplePush (F : Type*) where
  sender : Side
  samples : List (LinkKey × RawSample F)
  last : ℕ
  merged : Bool

/-- Two members and the pushes under way between them. -/
structure Exchanging (F : Type*) where
  stores : Pair F
  pushes : List (SamplePush F)

inductive ExchangeStep (F : Type*) where
  | ingest (s : Side) (link : LinkKey) (x : RawSample F) (persist : Bool)
  | prune (s : Side) (now : ℕ)
  | flush (s : Side) (now : ℕ) (last : FlushEnd)
  /-- A member starts again.  Its own pushes end with it, and those it had not merged are lost. -/
  | restart (s : Side) (now : ℕ)
  /-- A member takes a delta and sends it. -/
  | take (s : Side)
  /-- The peer merges the `i`-th push. -/
  | merge (i : ℕ)
  /-- The answer is back. -/
  | note (i : ℕ)

namespace Exchanging

variable [LinearOrder F] [Zero F] [AddCommSemigroup F] (name : Side → String)

def step (x : Exchanging F) : ExchangeStep F → Option (Exchanging F)
  | .ingest s link sample persist => some { x with
      stores := Function.update x.stores s ((x.stores s).ingest link sample persist).1 }
  | .prune s now => some { x with
      stores := Function.update x.stores s ((x.stores s).prune now) }
  | .flush s now last => some { x with
      stores := Function.update x.stores s ((x.stores s).flush now last) }
  | .restart s now => some ⟨Function.update x.stores s ((x.stores s).restart now),
      x.pushes.filter (fun q => q.sender ≠ s && q.merged)⟩
  | .take s =>
    let res := (x.stores s).takeForPeer (name s.peer)
    some { x with pushes := x.pushes ++ [⟨s, res.1, res.2, false⟩] }
  | .merge i =>
    match x.pushes[i]? with
    | some ⟨s, samples, last, false⟩ =>
      some ⟨Function.update x.stores s.peer ((x.stores s.peer).mergeDelta samples),
        x.pushes.set i ⟨s, samples, last, true⟩⟩
    | some ⟨_, _, _, true⟩ => none
    | none => none
  | .note i =>
    match x.pushes[i]? with
    | some ⟨s, _, last, true⟩ =>
      some ⟨Function.update x.stores s ((x.stores s).noteSent (name s.peer) last),
        x.pushes.eraseIdx i⟩
    | some ⟨_, _, _, false⟩ => none
    | none => none

/-- Two members that have just started, with or without a database. -/
def start (cfg : Side → TsConfig) (db : Side → Option (Db F)) (now : Side → ℕ) : Exchanging F :=
  ⟨fun s => ({ Tsdb.new (cfg s) with db := db s } : Tsdb F).restart (now s), []⟩

end Exchanging

/-! ### What a ring has seen -/

variable [LinearOrder F]

/-- A ring that was offered `x` once: the second is shut out, or too old for the ring, or holds what
    `x` states. -/
def Ring.Seen (r : Ring F) (x : RawSample F) : Prop :=
  x.ts ≤ r.floor ∨ rawRingCap ≤ countAbove r.seconds x.ts ∨
    ∃ w, r.sampleAt x.ts = some w ∧ x.Stated w

namespace Ring

variable {r r' : Ring F} {s x : RawSample F} {acc : Option (Accepted F)}

theorem Offer.seen_self (h : Offer r s r' acc) : r'.Seen s := by
  cases h with
  | old hfloor => exact Or.inl hfloor
  | resend held _ hheld hin => exact Or.inr (Or.inr ⟨held, hheld, hin.stated⟩)
  | merged held _ _ _ _ _ hat =>
    exact Or.inr (Or.inr ⟨_, (hat s.ts).trans (if_pos rfl),
      (RawSample.within_mergedWith_right held s).stated⟩)
  | full _ _ hcap hlow => exact Or.inr (Or.inl (countAbove_of_full hcap hlow).ge)
  | added _ _ _ _ _ hat | evicted _ _ _ _ _ _ _ _ _ hat =>
    exact Or.inr (Or.inr ⟨s, (hat s.ts).trans (if_pos rfl), (RawSample.Within.refl s).stated⟩)

theorem Offer.seen (h : Offer r s r' acc) (hx : r.Seen x) : r'.Seen x := by
  rcases hx with hfloor | hfull | ⟨w, hw, hst⟩
  · exact Or.inl (hfloor.trans h.floor_le)
  · by_cases hold : s.ts ≤ r.floor
    · rw [(h.refused_of_le_floor hold).1]
      exact Or.inr (Or.inl hfull)
    · right; left
      rw [h.seconds (not_le.mp hold)]
      apply le_countAbove_newest
      exact hfull.trans (countAbove_mono (Finset.subset_insert _ _) _)
  · rcases h.kept hw with hshut | hsame | ⟨-, hmerged⟩
    · exact Or.inl hshut
    · exact Or.inr (Or.inr ⟨w, hsame, hst⟩)
    · exact Or.inr (Or.inr ⟨_, hmerged, hst.mergedWith s⟩)

/-- What a prune drops it shuts out. -/
theorem Seen.prune (hx : r.Seen x) (cut : ℕ) : (r.prune cut).Seen x := by
  rcases hx with hfloor | hfull | ⟨w, hw, hst⟩
  · exact Or.inl (hfloor.trans (floor_le_prune r cut))
  · by_cases hdrop : ∃ t ∈ r.seconds, x.ts < t ∧ t < cut
    · obtain ⟨t, ht, hlt, hcut⟩ := hdrop
      exact Or.inl (hlt.le.trans (le_floor_prune ht hcut))
    · -- no second above it is dropped
      right; left
      rw [countAbove_congr (V := r.seconds)]
      · exact hfull
      · intro t ht
        rw [mem_seconds, mem_seconds, sampleAt_prune]
        split
        · rename_i hcut
          refine ⟨fun ⟨_, h⟩ => absurd h (by simp), fun ⟨y, hy⟩ => ?_⟩
          exact absurd ⟨t, mem_seconds.mpr ⟨y, hy⟩, ht, hcut⟩ hdrop
        · exact Iff.rfl
  · by_cases hcut : x.ts < cut
    · exact Or.inl (le_floor_prune (mem_seconds.mpr ⟨w, hw⟩) hcut)
    · refine Or.inr (Or.inr ⟨w, ?_, hst⟩)
      rw [sampleAt_prune, if_neg hcut, hw]

end Ring

/-! ### The log of a member -/

namespace Tsdb

omit [LinearOrder F] in
/-- The log is in order, the watermarks are behind, and every sample of a ring is in it. -/
structure Logged (t : Tsdb F) : Prop where
  ascending : Ascending Prod.fst t.recent
  bounds : ∀ e ∈ t.recent, 0 < e.1 ∧ e.1 < t.seq
  marks : ∀ peer, t.sentWatermark peer < t.seq
  rings : ∀ l ts v, (t.ringOf l).sampleAt ts = some v → ∃ seq, (seq, l, v) ∈ t.recent

namespace Logged

variable {t : Tsdb F}

omit [LinearOrder F] in
theorem new (cfg : TsConfig) : (Tsdb.new cfg : Tsdb F).Logged := by
  refine ⟨List.Pairwise.nil, fun e he => absurd he List.not_mem_nil, fun _ => Nat.one_pos,
    fun l ts v hv => ?_⟩
  exact absurd (show none = some v from hv) (by simp)

omit [LinearOrder F] in
theorem noteSent (h : t.Logged) (peer : String) {last : ℕ} (hlast : last < t.seq) :
    (t.noteSent peer last).Logged := by
  refine ⟨h.ascending, h.bounds, fun p => ?_, h.rings⟩
  rw [sentWatermark_noteSent]
  split
  · exact hlast
  · exact h.marks p

omit [LinearOrder F] in
theorem prune (h : t.Logged) (now : ℕ) : (t.prune now).Logged := by
  have hlog : (t.prune now).recent =
      t.recent.dropWhile (fun e => e.2.2.ts < t.rawCut now) := rfl
  refine ⟨?_, fun e he => ?_, h.marks, fun l ts v hv => ?_⟩
  · rw [hlog]
    exact h.ascending.sublist (List.dropWhile_sublist _)
  · rw [hlog] at he
    exact h.bounds e (List.dropWhile_subset _ he)
  · rw [ringOf_prune, Ring.sampleAt_prune] at hv
    split at hv
    · exact absurd hv (by simp)
    · rename_i hcut
      obtain ⟨seq, he⟩ := h.rings l ts v hv
      have hts := Ring.ts_of_sampleAt hv
      refine ⟨seq, ?_⟩
      -- an entry within retention is not popped
      rw [hlog]
      rw [← List.takeWhile_append_dropWhile (p := fun e => decide (e.2.2.ts < t.rawCut now))
        (l := t.recent), List.mem_append] at he
      refine he.resolve_left fun hpop => ?_
      have hpop := List.mem_takeWhile_imp hpop
      simp only [decide_eq_true_eq] at hpop
      omega

variable [Zero F] [Add F]

/-- An accepted sample is the last entry of the log, and the one its ring holds. -/
theorem ingest (h : t.Logged) (link : LinkKey) (s : RawSample F) (persist : Bool) :
    (t.ingest link s persist).1.Logged := by
  have hspec := t.ringOf_offer_spec link s
  have hring := t.ringOf_ingest link s persist
  cases hacc : ((t.ringOf link).offer s).2 with
  | none =>
    rw [hacc] at hspec
    -- refused: the rings are as they were
    have hsame : ∀ l, (t.ingest link s persist).1.ringOf l = t.ringOf l := by
      intro l
      rw [hring]
      split
      · rename_i heq
        rw [hspec.eq_of_none, heq]
      · rfl
    rw [ingest_of_refused persist hacc] at hsame ⊢
    refine ⟨h.ascending, h.bounds, h.marks, fun l ts v hv => ?_⟩
    rw [hsame] at hv
    exact h.rings l ts v hv
  | some acc =>
    rw [hacc] at hspec
    obtain ⟨-, -, hat⟩ := hspec.accepted
    rw [ingest_of_accepted persist hacc] at hring ⊢
    refine ⟨List.pairwise_append.mpr ⟨h.ascending, List.pairwise_singleton _ _, ?_⟩, fun e he => ?_,
      fun peer => ?_, fun l ts v hv => ?_⟩
    · intro e he e' he'
      rw [List.mem_singleton.mp he']
      exact (h.bounds e he).2
    · dsimp only
      rcases List.mem_append.mp he with he | he
      · exact ⟨(h.bounds e he).1, Nat.lt_succ_of_lt (h.bounds e he).2⟩
      · rw [List.mem_singleton.mp he]
        exact ⟨Nat.zero_lt_of_lt (h.marks ""), Nat.lt_succ_self _⟩
    · exact Nat.lt_succ_of_lt (h.marks peer)
    · rw [hring] at hv
      dsimp only
      have hold : (t.ringOf l).sampleAt ts = some v →
          ∃ seq, (seq, l, v) ∈ t.recent ++ [(t.seq, link, acc.sample)] := by
        intro hv
        obtain ⟨seq, he⟩ := h.rings l ts v hv
        exact ⟨seq, List.mem_append_left _ he⟩
      split at hv
      · rename_i heq
        -- the second of the sample is held as the new entry has it, the others as before
        by_cases hts : ts = s.ts
        · rw [hts, hat] at hv
          rw [heq, ← Option.some.inj hv]
          exact ⟨t.seq, List.mem_append_right _ (List.mem_singleton_self _)⟩
        · rw [heq] at hold ⊢
          exact hold (hspec.sampleAt_of_ne hts hv)
      · exact hold hv

end Logged

/-- What a member does on its own: its log goes on, and its rings have seen what they had seen. -/
structure Follows (t t' : Tsdb F) : Prop where
  logged : t.Logged → t'.Logged
  seq : t.seq ≤ t'.seq
  entries : ∀ e ∈ t'.recent, e ∈ t.recent ∨ t.seq ≤ e.1
  marks : ∀ peer, t'.sentWatermark peer = t.sentWatermark peer
  seen : ∀ l v, (t.ringOf l).Seen v → (t'.ringOf l).Seen v

namespace Follows

variable {t t' t'' : Tsdb F}

theorem refl (t : Tsdb F) : Follows t t :=
  ⟨id, le_refl _, fun _ he => Or.inl he, fun _ => rfl, fun _ _ h => h⟩

theorem trans (h : Follows t t') (h' : Follows t' t'') : Follows t t'' := by
  refine ⟨h'.logged ∘ h.logged, h.seq.trans h'.seq, fun e he => ?_,
    fun peer => (h'.marks peer).trans (h.marks peer), fun l v hv => h'.seen l v (h.seen l v hv)⟩
  rcases h'.entries e he with he | hseq
  · exact h.entries e he
  · exact Or.inr (h.seq.trans hseq)

theorem prune (t : Tsdb F) (now : ℕ) : Follows t (t.prune now) := by
  refine ⟨fun h => h.prune now, le_refl _, fun e he => ?_, fun _ => rfl, fun l v hv => ?_⟩
  · exact Or.inl (List.dropWhile_subset _ he)
  · rw [ringOf_prune]
    exact hv.prune _

theorem flush (t : Tsdb F) (now : ℕ) (last : FlushEnd) : Follows t (t.flush now last) := by
  obtain ⟨pending, dirty, db, heq⟩ :
      ∃ pending dirty db, t.flush now last = { t with pending, dirty, db } := by
    unfold Tsdb.flush
    split
    · cases last <;> exact ⟨_, _, _, rfl⟩
    · exact ⟨_, _, _, rfl⟩
  rw [heq]
  exact ⟨fun h => ⟨h.ascending, h.bounds, h.marks, h.rings⟩, le_refl _, fun _ he => Or.inl he,
    fun _ => rfl, fun _ _ hv => hv⟩

variable [Zero F] [Add F]

theorem ingest (t : Tsdb F) (link : LinkKey) (s : RawSample F) (persist : Bool) :
    Follows t (t.ingest link s persist).1 := by
  refine ⟨fun h => h.ingest link s persist, ?_, fun e he => ?_, fun peer => ?_, fun l v hv => ?_⟩
  · rw [seq_ingest]
    exact Nat.le_add_right _ _
  · cases hacc : ((t.ringOf link).offer s).2 with
    | none =>
      rw [ingest_of_refused persist hacc] at he
      exact Or.inl he
    | some acc =>
      rw [ingest_of_accepted persist hacc] at he
      rcases List.mem_append.mp he with he | he
      · exact Or.inl he
      · rw [List.mem_singleton.mp he]
        exact Or.inr (le_refl _)
  · cases hacc : ((t.ringOf link).offer s).2 with
    | none =>
      rw [ingest_of_refused persist hacc]
      rfl
    | some acc =>
      rw [ingest_of_accepted persist hacc]
      rfl
  · rw [ringOf_ingest]
    split
    · rename_i heq
      exact (t.ringOf_offer_spec link s).seen (heq ▸ hv)
    · exact hv

theorem mergeDelta (t : Tsdb F) (b : List (LinkKey × RawSample F)) :
    Follows t (t.mergeDelta b) := by
  induction b generalizing t with
  | nil => exact refl t
  | cons p b ih => exact (ingest t p.1 p.2 true).trans (ih _)

end Follows

variable [Zero F] [Add F]

/-- The samples of a batch are seen. -/
theorem seen_mergeDelta (t : Tsdb F) {b : List (LinkKey × RawSample F)}
    {p : LinkKey × RawSample F} (hp : p ∈ b) : ((t.mergeDelta b).ringOf p.1).Seen p.2 := by
  induction b generalizing t with
  | nil => exact absurd hp List.not_mem_nil
  | cons q b ih =>
    rw [mergeDelta_cons]
    rcases List.mem_cons.mp hp with rfl | hp
    · apply (Follows.mergeDelta _ b).seen
      rw [ringOf_ingest, if_pos rfl]
      exact (t.ringOf_offer_spec p.1 p.2).seen_self
    · exact ih _ hp

end Tsdb

/-- A start logs what it loads, and nothing has been sent. -/
theorem Tsdb.logged_reopen [Zero F] [AddCommSemigroup F] (cfg : TsConfig) (db : Db F) (now : ℕ) :
    (Tsdb.reopen cfg db now).Logged ∧ ∀ peer, (Tsdb.reopen cfg db now).sentWatermark peer = 0 := by
  have hload : ∀ rows, Follows (Tsdb.new cfg : Tsdb F) ((Tsdb.new cfg).ingestAll false rows) := by
    intro rows
    induction rows using List.reverseRecOn with
    | nil => exact Follows.refl _
    | append_singleton rows p ih =>
      rw [ingestAll_concat]
      exact ih.trans (Follows.ingest _ p.1 p.2 false)
  rw [reopen_eq]
  obtain ⟨buckets, heq⟩ := foldl_loadBucket_frame (rowsOf db.agg) now
    ((new cfg).ingestAll false (reread db ((new cfg : Tsdb F).rawCut now)))
  rw [heq]
  have hf := hload (reread db ((new cfg : Tsdb F).rawCut now))
  have hlogged := hf.logged (Logged.new cfg)
  exact ⟨⟨hlogged.ascending, hlogged.bounds, hlogged.marks, hlogged.rings⟩, hf.marks⟩

theorem Tsdb.logged_restart [Zero F] [AddCommSemigroup F] (t : Tsdb F) (now : ℕ) :
    (t.restart now).Logged ∧ ∀ peer, (t.restart now).sentWatermark peer = 0 := by
  unfold restart
  split
  · exact logged_reopen _ _ _
  · exact ⟨Logged.new _, fun _ => rfl⟩

/-! ### The invariant -/

namespace Exchanging

/-- The condition on a step: a restart brings back what the member has seen of its peer's log. -/
def Recovers [Zero F] [AddCommSemigroup F] (x : Exchanging F) : ExchangeStep F → Prop
  | .restart s now => ∀ e ∈ (x.stores s.peer).recent, ((x.stores s).ringOf e.2.1).Seen e.2.2 →
    (((x.stores s).restart now).ringOf e.2.1).Seen e.2.2
  | .ingest .. | .prune .. | .flush .. | .take _ | .merge _ | .note _ => True

variable {name : Side → String} {x x' : Exchanging F}

/-- What a member's log has up to the watermark of its peer, the peer has seen.  What it has up to
    the mark of a push, the peer has seen or is in the push. -/
structure Inv (name : Side → String) (x : Exchanging F) : Prop where
  logged : ∀ s, (x.stores s).Logged
  seen : ∀ s, ∀ e ∈ (x.stores s).recent, e.1 ≤ (x.stores s).sentWatermark (name s.peer) →
    ((x.stores s.peer).ringOf e.2.1).Seen e.2.2
  lasts : ∀ q ∈ x.pushes, q.last < (x.stores q.sender).seq
  pushes : ∀ q ∈ x.pushes, ∀ e ∈ (x.stores q.sender).recent, e.1 ≤ q.last →
    ((x.stores q.sender.peer).ringOf e.2.1).Seen e.2.2 ∨ q.merged = false ∧ e.2 ∈ q.samples

namespace Inv

/-- The members go on. -/
theorem follow (h : Inv name x) {stores : Pair F}
    (hf : ∀ s, Tsdb.Follows (x.stores s) (stores s)) : Inv name { x with stores } := by
  refine ⟨fun s => (hf s).logged (h.logged s), fun s e he hle => ?_, fun q hq => ?_,
    fun q hq e he hle => ?_⟩
  · dsimp only at he hle ⊢
    rw [(hf s).marks] at hle
    rcases (hf s).entries e he with he | hseq
    · exact (hf s.peer).seen _ _ (h.seen s e he hle)
    · have := (h.logged s).marks (name s.peer)
      omega
  · exact (h.lasts q hq).trans_le (hf q.sender).seq
  · rcases (hf q.sender).entries e he with he | hseq
    · exact (h.pushes q hq e he hle).imp ((hf q.sender.peer).seen _ _) id
    · have := h.lasts q hq
      omega

theorem update (h : Inv name x) {s : Side} {t : Tsdb F} (hf : Tsdb.Follows (x.stores s) t) :
    Inv name { x with stores := Function.update x.stores s t } := by
  apply h.follow
  intro u
  by_cases hu : u = s
  · subst hu
    rw [Function.update_self]
    exact hf
  · rw [Function.update_of_ne hu]
    exact Tsdb.Follows.refl _

/-- A delta is taken. -/
theorem take (h : Inv name x) (s : Side) : Inv name { x with pushes := x.pushes ++
    [⟨s, ((x.stores s).takeForPeer (name s.peer)).1, ((x.stores s).takeForPeer (name s.peer)).2,
      false⟩] } := by
  obtain ⟨-, -, -, hall, hlast⟩ := Tsdb.takeDelta_spec (h.logged s).ascending
    ((x.stores s).sentWatermark (name s.peer)) deltaLimit
  refine ⟨h.logged, h.seen, fun q hq => ?_, fun q hq e he hle => ?_⟩
  · rcases List.mem_append.mp hq with hq | hq
    · exact h.lasts q hq
    · rw [List.mem_singleton.mp hq]
      rcases hlast with hlast | ⟨e, he, hlast⟩
      · exact hlast ▸ (h.logged s).marks (name s.peer)
      · exact hlast ▸ ((h.logged s).bounds e he).2
  · rcases List.mem_append.mp hq with hq | hq
    · exact h.pushes q hq e he hle
    · rw [List.mem_singleton.mp hq] at he hle ⊢
      by_cases hwm : e.1 ≤ (x.stores s).sentWatermark (name s.peer)
      · exact Or.inl (h.seen s e he hwm)
      · exact Or.inr ⟨rfl, List.mem_map_of_mem (hall e he (not_le.mp hwm) hle)⟩

/-- The answer to a push advances the watermark. -/
theorem note (h : Inv name x) {i : ℕ} {q : SamplePush F} (hq : q ∈ x.pushes)
    (hmerged : q.merged = true) : Inv name ⟨Function.update x.stores q.sender
      ((x.stores q.sender).noteSent (name q.sender.peer) q.last), x.pushes.eraseIdx i⟩ := by
  have hself := Function.update_self q.sender
    ((x.stores q.sender).noteSent (name q.sender.peer) q.last) x.stores
  have hother : ∀ u, u ≠ q.sender → Function.update x.stores q.sender
      ((x.stores q.sender).noteSent (name q.sender.peer) q.last) u = x.stores u :=
    fun u hu => Function.update_of_ne hu _ _
  generalize Function.update x.stores q.sender
    ((x.stores q.sender).noteSent (name q.sender.peer) q.last) = stores at hself hother ⊢
  -- nothing but a watermark differs
  have hsame : ∀ u, ∃ sent, stores u = { x.stores u with sent } := by
    intro u
    by_cases hu : u = q.sender
    · exact ⟨_, hu ▸ hself⟩
    · exact ⟨_, hother u hu⟩
  refine ⟨fun u => ?_, fun u e he hle => ?_, fun q' hq' => ?_, fun q' hq' e he hle => ?_⟩
  · by_cases hu : u = q.sender
    · subst hu
      dsimp only
      rw [hself]
      exact (h.logged q.sender).noteSent _ (h.lasts q hq)
    · dsimp only
      rw [hother u hu]
      exact h.logged u
  · obtain ⟨sent, hpeer⟩ := hsame u.peer
    dsimp only at he hle ⊢
    rw [hpeer]
    by_cases hu : u = q.sender
    · subst hu
      rw [hself] at he
      rw [hself, Tsdb.sentWatermark_noteSent, if_pos rfl] at hle
      refine (h.pushes q hq e he hle).resolve_right fun hnew => ?_
      rw [hmerged] at hnew
      exact absurd hnew.1 (by decide)
    · rw [hother u hu] at he hle
      exact h.seen u e he hle
  · obtain ⟨sent, hsender⟩ := hsame q'.sender
    dsimp only
    rw [hsender]
    exact h.lasts q' (List.mem_of_mem_eraseIdx hq')
  · obtain ⟨sent, hsender⟩ := hsame q'.sender
    obtain ⟨sent', hpeer⟩ := hsame q'.sender.peer
    dsimp only at he ⊢
    rw [hsender] at he
    rw [hpeer]
    exact h.pushes q' (List.mem_of_mem_eraseIdx hq') e he hle

/-- The peer merges a push. -/
theorem merge [Zero F] [Add F] (h : Inv name x) {i : ℕ} {s : Side} {samples : List (LinkKey × RawSample F)}
    {last : ℕ} (hq : x.pushes[i]? = some ⟨s, samples, last, false⟩) :
    Inv name ⟨Function.update x.stores s.peer ((x.stores s.peer).mergeDelta samples),
      x.pushes.set i ⟨s, samples, last, true⟩⟩ := by
  have hmem : (⟨s, samples, last, false⟩ : SamplePush F) ∈ x.pushes := List.mem_of_getElem? hq
  have hnext := h.update (s := s.peer) (Tsdb.Follows.mergeDelta (x.stores s.peer) samples)
  have hpush : ∀ q ∈ x.pushes.set i ⟨s, samples, last, true⟩,
      q ∈ x.pushes ∨ q = ⟨s, samples, last, true⟩ := fun q hq => List.mem_or_eq_of_mem_set hq
  refine ⟨hnext.logged, hnext.seen, fun q hq => ?_, fun q hq e he hle => ?_⟩
  · rcases hpush q hq with hq | rfl
    · exact hnext.lasts q hq
    · exact hnext.lasts ⟨s, samples, last, false⟩ hmem
  · rcases hpush q hq with hq | rfl
    · exact hnext.pushes q hq e he hle
    · left
      rcases hnext.pushes _ hmem e he hle with hseen | ⟨-, hin⟩
      · exact hseen
      · dsimp only at hin ⊢
        rw [Function.update_self]
        exact Tsdb.seen_mergeDelta _ hin

variable [Zero F] [AddCommSemigroup F]

/-- A member that starts again has sent nothing, and its peer's watermark is as good as what it
    brings back. -/
theorem restart (h : Inv name x) {s : Side} {now : ℕ} (hrec : x.Recovers (.restart s now)) :
    Inv name ⟨Function.update x.stores s ((x.stores s).restart now),
      x.pushes.filter (fun q => q.sender ≠ s && q.merged)⟩ := by
  obtain ⟨hlogged, hmarks⟩ := (x.stores s).logged_restart now
  have hself := Function.update_self s ((x.stores s).restart now) x.stores
  have hpeer : Function.update x.stores s ((x.stores s).restart now) s.peer = x.stores s.peer :=
    Function.update_of_ne s.peer_ne _ _
  have hpush : ∀ q ∈ x.pushes.filter (fun q => q.sender ≠ s && q.merged),
      q ∈ x.pushes ∧ q.sender = s.peer ∧ q.merged = true := by
    intro q hq
    simp only [List.mem_filter, Bool.and_eq_true, decide_eq_true_eq] at hq
    exact ⟨hq.1, (s.eq_or_eq_peer q.sender).resolve_left hq.2.1, hq.2.2⟩
  -- only what the two stores are now counts
  generalize Function.update x.stores s ((x.stores s).restart now) = stores at hself hpeer ⊢
  refine ⟨fun u => ?_, fun u e he hle => ?_, fun q hq => ?_, fun q hq e he hle => ?_⟩
  · dsimp only
    rcases s.eq_or_eq_peer u with rfl | rfl
    · rw [hself]
      exact hlogged
    · rw [hpeer]
      exact h.logged _
  · dsimp only at he hle ⊢
    rcases s.eq_or_eq_peer u with rfl | rfl
    · rw [hself] at he hle
      -- the member itself: its watermark starts at zero, and its numbers do not
      have hpos := (hlogged.bounds e he).1
      rw [hmarks] at hle
      omega
    · -- the other member: what it has sent is what the restart brings back
      rw [hpeer] at he hle
      have hseen := h.seen s.peer e he hle
      rw [Side.peer_peer] at hseen ⊢
      rw [hself]
      exact hrec e he hseen
  · obtain ⟨hq, hsender, -⟩ := hpush q hq
    have hlast := h.lasts q hq
    dsimp only
    rw [hsender] at hlast ⊢
    rwa [hpeer]
  · -- a push that stays was merged, so what it carried was seen before the restart
    obtain ⟨hq, hsender, hmerged⟩ := hpush q hq
    have hold := h.pushes q hq
    dsimp only at he ⊢
    rw [hsender] at hold he ⊢
    rw [hpeer] at he
    rw [Side.peer_peer] at hold ⊢
    rw [hself]
    refine Or.inl (hrec e he ((hold e he hle).resolve_right fun hnew => ?_))
    rw [hmerged] at hnew
    exact absurd hnew.1 (by decide)

/-- **Step lemma.** -/
theorem step (h : Inv name x) {a : ExchangeStep F} (hrec : x.Recovers a)
    (hs : x.step name a = some x') : Inv name x' := by
  cases a with
  | ingest s link sample persist =>
    obtain rfl := Option.some.inj hs
    exact h.update (Tsdb.Follows.ingest _ link sample persist)
  | prune s now =>
    obtain rfl := Option.some.inj hs
    exact h.update (Tsdb.Follows.prune _ now)
  | flush s now last =>
    obtain rfl := Option.some.inj hs
    exact h.update (Tsdb.Follows.flush _ now last)
  | restart s now =>
    obtain rfl := Option.some.inj hs
    exact h.restart hrec
  | take s =>
    obtain rfl := Option.some.inj hs
    exact h.take s
  -- a push is merged once, and noted once it has been
  | merge i =>
    simp only [Exchanging.step] at hs
    split at hs
    · rename_i s samples last hq
      obtain rfl := Option.some.inj hs
      exact h.merge hq
    · exact absurd hs (by simp)
    · exact absurd hs (by simp)
  | note i =>
    simp only [Exchanging.step] at hs
    split at hs
    · rename_i s samples last hq
      obtain rfl := Option.some.inj hs
      exact h.note (q := ⟨s, samples, last, true⟩) (List.mem_of_getElem? hq) rfl
    · exact absurd hs (by simp)
    · exact absurd hs (by simp)

end Inv

end Exchanging

/-! ### Runs -/

section Start

variable [Zero F] [AddCommSemigroup F]

theorem Exchanging.inv_start (name : Side → String) (cfg : Side → TsConfig)
    (db : Side → Option (Db F)) (now : Side → ℕ) :
    Exchanging.Inv name (Exchanging.start cfg db now) := by
  have hstore := fun s => Tsdb.logged_restart ({ Tsdb.new (cfg s) with db := db s } : Tsdb F) (now s)
  refine ⟨fun s => (hstore s).1, fun s e he hle => ?_, fun q hq => ?_, fun q hq => ?_⟩
  · have hpos := ((hstore s).1.bounds e he).1
    rw [show ((Exchanging.start cfg db now).stores s).sentWatermark (name s.peer) = 0 from
      (hstore s).2 _] at hle
    omega
  · exact absurd hq List.not_mem_nil
  · exact absurd hq List.not_mem_nil

/-- **Run lemma.** -/
theorem Exchanging.inv_of_runs {name : Side → String} {x x' : Exchanging F}
    (h : Runs (Exchanging.step name) Exchanging.Recovers x x') (hinv : Exchanging.Inv name x) :
    Exchanging.Inv name x' :=
  h.invariant hinv fun _ _ _ hinv hrec hs => hinv.step hrec hs

end Start

end Mielofon
