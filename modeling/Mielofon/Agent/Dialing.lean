import Mathlib
import Mielofon.Lib.Runs
import Mielofon.Transport.Endpoint

namespace Mielofon

open Lib

/-!
# Rounds of dialing

An agent keeps a session with some controller (`run` and `connect` in `session.rs`).  In a round it
resolves the endpoints and dials one address after the other, the one that worked last first, until
one answers.  A round in which none does is followed by a pause, which doubles up to a bound and
starts over with the next session.

* `resolveAll`, `preferred` — the addresses of a round, and their order;
* `Dialing`, `DialEvent`, `Dialing.step` — the loop, with the finished rounds as history;
* `Round.Sound` — what a round does, given the rounds before it;
* `Dialing.Inv` — what the loop keeps in its variables, in terms of the history;
* `rounds_sound` — every round of every run.
-/

/-! ### Addresses -/

structure SocketAddr where
  ip : IpAddr
  port : UInt16
deriving DecidableEq

/-- An address to dial, with the server name it was reached through. -/
abbrev Candidate := SocketAddr × String

/-- The addresses of an endpoint: a literal stands for itself, a name for what it resolves to (for
    nothing, if it fails to). -/
def addresses (lookup : Endpoint → List SocketAddr) (ep : Endpoint) : List SocketAddr :=
  ((IpAddr.parse ep.host.toList).map fun ip => [⟨ip, ep.port⟩]).getD (lookup ep)

def pushCandidate (host : String) (out : List Candidate) (a : SocketAddr) : List Candidate :=
  if out.any (fun c => c.1 == a) then out else out ++ [(a, host)]

/-- Resolve every endpoint to its addresses, in list order, deduplicated. -/
def resolveAll (lookup : Endpoint → List SocketAddr) (endpoints : List Endpoint) :
    List Candidate :=
  endpoints.foldl (fun out ep => (addresses lookup ep).foldl (pushCandidate ep.host) out) []

/-- The address that worked last comes first, and the order stays otherwise. -/
def preferred (last_good : Option SocketAddr) (candidates : List Candidate) : List Candidate :=
  ((last_good.bind fun a => candidates.findIdx? fun c => c.1 == a).map candidates.rotate).getD
    candidates

/-! ### The loop -/

def BACKOFF_MIN : ℕ := 1000

def BACKOFF_MAX : ℕ := 30000

/-- A finished round: the addresses it had, those that did not answer in the order they were
    dialed, and the one that did. -/
structure Round where
  started : ℕ
  candidates : List Candidate
  failed : List SocketAddr
  reached : Option SocketAddr
  ended : ℕ

/-- How far the loop has got; a round that is under way stands here. -/
inductive DialPhase where
  | resolving
  | dialing (started : ℕ) (candidates : List Candidate) (failed : List SocketAddr)
      (left : List Candidate)
  | greeting (peer : SocketAddr)
  | serving (peer : SocketAddr)
  | regreeting (peer : SocketAddr)
  | sleeping (deadline : ℕ)

/-- The loop, its counters, and as history its rounds, the newest first.  Times are in
    milliseconds. -/
structure Dialing where
  now : ℕ
  backoff : ℕ
  last_good : Option SocketAddr
  phase : DialPhase
  session_connects : ℕ
  session_dial_errors : ℕ
  session_connected : Bool
  rounds : List Round

inductive DialEvent where
  | wait (span : ℕ)
  | resolve (lookup : Endpoint → List SocketAddr)
  | dial (answered : Bool)
  /-- A hello is acknowledged; or it is refused, or fails. -/
  | hello (acknowledged : Bool)
  | linksChanged
  | lost
  | wake

namespace Dialing

def start : Dialing := ⟨0, BACKOFF_MIN, none, .resolving, 0, 0, false, []⟩

/-- No address answered. -/
def giveUp (s : Dialing) (started : ℕ) (candidates : List Candidate) (failed : List SocketAddr) :
    Dialing :=
  { s with
    phase := .sleeping (s.now + s.backoff)
    rounds := ⟨started, candidates, failed, none, s.now⟩ :: s.rounds }

variable (endpoints : List Endpoint)

def step (s : Dialing) : DialEvent → Option Dialing
  | .wait span => some { s with now := s.now + span }
  | .resolve lookup =>
    match s.phase with
    | .resolving =>
      let candidates := resolveAll lookup endpoints
      if candidates = [] then some (s.giveUp s.now [] [])
      else some { s with
        phase := .dialing s.now candidates [] (preferred s.last_good candidates) }
    | _ => none
  | .dial answered =>
    match s.phase with
    | .dialing started candidates failed (c :: left) =>
      if answered then
        some { s with
          session_connects := s.session_connects + 1
          backoff := BACKOFF_MIN
          last_good := some c.1
          phase := .greeting c.1
          rounds := ⟨started, candidates, failed, some c.1, s.now⟩ :: s.rounds }
      else
        let s := { s with session_dial_errors := s.session_dial_errors + 1 }
        if left = [] then some (s.giveUp started candidates (failed ++ [c.1]))
        else some { s with phase := .dialing started candidates (failed ++ [c.1]) left }
    | _ => none
  | .hello acknowledged =>
    match s.phase with
    | .greeting peer =>
      -- a refused register closes the session, and the next round begins at once
      if acknowledged then some { s with session_connected := true, phase := .serving peer }
      else some { s with phase := .resolving }
    | .regreeting peer =>
      if acknowledged then some { s with phase := .serving peer }
      else some { s with session_connected := false, phase := .resolving }
    | _ => none
  | .linksChanged =>
    match s.phase with
    | .serving peer => some { s with phase := .regreeting peer }
    | _ => none
  | .lost =>
    match s.phase with
    | .serving _ => some { s with session_connected := false, phase := .resolving }
    | _ => none
  | .wake =>
    match s.phase with
    | .sleeping deadline =>
      if deadline ≤ s.now then
        some { s with backoff := min (s.backoff * 2) BACKOFF_MAX, phase := .resolving }
      else none
    | _ => none

end Dialing

/-! ### What resolving gives -/

theorem mem_pushCandidate {host : String} {out : List Candidate} {a b : SocketAddr} :
    b ∈ (pushCandidate host out a).map Prod.fst ↔ b ∈ out.map Prod.fst ∨ b = a := by
  unfold pushCandidate
  split
  · rename_i h
    obtain ⟨c, hc, he⟩ := List.any_eq_true.1 h
    have hmem : a ∈ out.map Prod.fst := List.mem_map.2 ⟨c, hc, by simpa using he⟩
    exact ⟨.inl, fun h => h.elim id fun he => he ▸ hmem⟩
  · simp

theorem nodup_pushCandidate {host : String} {out : List Candidate} (a : SocketAddr)
    (h : (out.map Prod.fst).Nodup) : ((pushCandidate host out a).map Prod.fst).Nodup := by
  unfold pushCandidate
  split
  · exact h
  · rename_i hnone
    have hnot : a ∉ out.map Prod.fst := by
      intro hmem
      obtain ⟨c, hc, rfl⟩ := List.mem_map.1 hmem
      exact hnone (List.any_eq_true.2 ⟨c, hc, by simp⟩)
    rw [List.map_append, List.map_singleton]
    refine List.nodup_append.2 ⟨h, List.nodup_singleton _, fun b hb c hc he => hnot ?_⟩
    have hca : c = a := List.mem_singleton.1 hc
    rw [← hca, ← he]
    exact hb

theorem pushAll (host : String) (addrs : List SocketAddr) (out : List Candidate)
    (h : (out.map Prod.fst).Nodup) :
    ((addrs.foldl (pushCandidate host) out).map Prod.fst).Nodup ∧
      ∀ b, b ∈ (addrs.foldl (pushCandidate host) out).map Prod.fst ↔
        b ∈ out.map Prod.fst ∨ b ∈ addrs := by
  induction addrs generalizing out with
  | nil => exact ⟨h, fun b => by simp⟩
  | cons a addrs ih =>
    obtain ⟨hnodup, hmem⟩ := ih (pushCandidate host out a) (nodup_pushCandidate a h)
    refine ⟨hnodup, fun b => (hmem b).trans ?_⟩
    rw [mem_pushCandidate, List.mem_cons, or_assoc]

/-- Every address of every endpoint is a candidate, once. -/
theorem resolveAll_addresses (lookup : Endpoint → List SocketAddr) (endpoints : List Endpoint) :
    ((resolveAll lookup endpoints).map Prod.fst).Nodup ∧
      ∀ b, b ∈ (resolveAll lookup endpoints).map Prod.fst ↔
        ∃ ep ∈ endpoints, b ∈ addresses lookup ep := by
  have hfold : ∀ (endpoints : List Endpoint) (out : List Candidate), (out.map Prod.fst).Nodup →
      ((endpoints.foldl (fun out ep => (addresses lookup ep).foldl (pushCandidate ep.host) out)
        out).map Prod.fst).Nodup ∧
      ∀ b, b ∈ (endpoints.foldl (fun out ep =>
          (addresses lookup ep).foldl (pushCandidate ep.host) out) out).map Prod.fst ↔
        b ∈ out.map Prod.fst ∨ ∃ ep ∈ endpoints, b ∈ addresses lookup ep := by
    intro endpoints
    induction endpoints with
    | nil => exact fun out h => ⟨h, fun b => by simp⟩
    | cons ep endpoints ih =>
      intro out h
      obtain ⟨hone, hmemone⟩ := pushAll ep.host (addresses lookup ep) out h
      obtain ⟨hnodup, hmem⟩ := ih _ hone
      refine ⟨hnodup, fun b => (hmem b).trans ?_⟩
      rw [hmemone, List.exists_mem_cons_iff, or_assoc]
  obtain ⟨hnodup, hmem⟩ := hfold endpoints [] List.nodup_nil
  exact ⟨hnodup, fun b => (hmem b).trans (by simp)⟩

theorem preferred_perm (last_good : Option SocketAddr) (candidates : List Candidate) :
    (preferred last_good candidates).Perm candidates := by
  unfold preferred
  cases last_good.bind fun a => candidates.findIdx? fun c => c.1 == a with
  | none => exact .refl _
  | some pos => exact List.rotate_perm candidates pos

/-- The address that worked last is dialed first, if it is still among the candidates. -/
theorem head_preferred {a : SocketAddr} {candidates : List Candidate}
    (h : a ∈ candidates.map Prod.fst) :
    ((preferred (some a) candidates).map Prod.fst).head? = some a := by
  obtain ⟨c, hc, rfl⟩ := List.mem_map.1 h
  cases hpos : candidates.findIdx? fun d => d.1 == c.1 with
  | none => exact absurd (List.findIdx?_eq_none_iff.1 hpos c hc) (by simp)
  | some pos =>
    obtain ⟨hlt, heq, -⟩ := List.findIdx?_eq_some_iff_getElem.1 hpos
    have hpreferred : preferred (some c.1) candidates = candidates.rotate pos := by
      simp [preferred, hpos]
    rw [hpreferred, List.head?_map, List.head?_rotate hlt, List.getElem?_eq_getElem hlt]
    exact congrArg some (by simpa using heq)

/-! ### Rounds -/

/-- The address that worked last. -/
def lastReached : List Round → Option SocketAddr
  | [] => none
  | r :: before => r.reached.or (lastReached before)

/-- How many rounds in a row have failed. -/
def streak : List Round → ℕ
  | [] => 0
  | r :: before => if r.reached.isSome then 0 else streak before + 1

/-- The pause after a failed round that `k` failed ones came before. -/
def pauseOf (k : ℕ) : ℕ := min (BACKOFF_MIN * 2 ^ k) BACKOFF_MAX

theorem pauseOf_succ (k : ℕ) : pauseOf (k + 1) = min (pauseOf k * 2) BACKOFF_MAX := by
  unfold pauseOf BACKOFF_MIN BACKOFF_MAX
  rw [pow_succ]
  omega

/-- When the next round may begin. -/
def earliest : List Round → ℕ
  | [] => 0
  | r :: before => r.ended + if r.reached.isSome then 0 else pauseOf (streak before)

/-- A round follows from the rounds before it: it dials in the order of preference until an address
    answers, or none is left. -/
structure Round.Follows (endpoints : List Endpoint) (before : List Round) (r : Round) : Prop where
  resolved : ∃ lookup, r.candidates = resolveAll lookup endpoints
  dialed : ∃ later, (preferred (lastReached before) r.candidates).map Prod.fst =
    r.failed ++ r.reached.toList ++ later
  exhausted : r.reached = none →
    (preferred (lastReached before) r.candidates).map Prod.fst = r.failed
  waited : earliest before ≤ r.started
  ordered : r.started ≤ r.ended

def History (endpoints : List Endpoint) : List Round → Prop
  | [] => True
  | r :: before => r.Follows endpoints before ∧ History endpoints before

namespace Dialing

/-- The last round reached a peer. -/
def Reached (s : Dialing) (peer : SocketAddr) : Prop :=
  ∃ r before, s.rounds = r :: before ∧ r.reached = some peer ∧ r.ended ≤ s.now

/-- What the loop knows where it stands. -/
def AtPhase (endpoints : List Endpoint) (s : Dialing) : DialPhase → Prop
  | .resolving => s.session_connected = false ∧ s.backoff = pauseOf (streak s.rounds) ∧
      earliest s.rounds ≤ s.now
  | .dialing started candidates failed left => s.session_connected = false ∧
      s.backoff = pauseOf (streak s.rounds) ∧
      earliest s.rounds ≤ started ∧ started ≤ s.now ∧
      (∃ lookup, candidates = resolveAll lookup endpoints) ∧
      (preferred (lastReached s.rounds) candidates).map Prod.fst = failed ++ left.map Prod.fst
  | .greeting peer => s.session_connected = false ∧ s.backoff = BACKOFF_MIN ∧ s.Reached peer
  | .serving peer => s.session_connected = true ∧ s.backoff = BACKOFF_MIN ∧ s.Reached peer
  | .regreeting peer => s.session_connected = true ∧ s.backoff = BACKOFF_MIN ∧ s.Reached peer
  | .sleeping deadline => s.session_connected = false ∧ ∃ r before, s.rounds = r :: before ∧
      r.reached = none ∧ s.backoff = pauseOf (streak before) ∧ deadline = r.ended + s.backoff

/-- The dials of the round under way that have failed. -/
def failedNow (s : Dialing) : ℕ :=
  match s.phase with
  | .dialing _ _ failed _ => failed.length
  | _ => 0

/-- The variables of the loop, in terms of its rounds. -/
structure Inv (endpoints : List Endpoint) (s : Dialing) : Prop where
  history : History endpoints s.rounds
  last_good : s.last_good = lastReached s.rounds
  connects : s.session_connects = s.rounds.countP fun r => r.reached.isSome
  errors : s.session_dial_errors = (s.rounds.map fun r => r.failed.length).sum + s.failedNow
  phase : s.AtPhase endpoints s.phase

variable {endpoints : List Endpoint} {s s' : Dialing}

theorem inv_start : Dialing.start.Inv endpoints where
  history := trivial
  last_good := rfl
  connects := rfl
  errors := rfl
  phase := ⟨rfl, rfl, le_refl _⟩

theorem Reached.later {peer : SocketAddr} (h : s.Reached peer) {t : ℕ} (ht : s.now ≤ t) :
    ({ s with now := t } : Dialing).Reached peer := by
  obtain ⟨r, before, hrounds, hpeer, hended⟩ := h
  exact ⟨r, before, hrounds, hpeer, hended.trans ht⟩

theorem AtPhase.later {p : DialPhase} (h : s.AtPhase endpoints p) {t : ℕ} (ht : s.now ≤ t) :
    ({ s with now := t } : Dialing).AtPhase endpoints p := by
  cases p with
  | resolving => exact ⟨h.1, h.2.1, h.2.2.trans ht⟩
  | dialing started candidates failed left =>
    obtain ⟨hdown, hbackoff, hearliest, hstarted, hrest⟩ := h
    exact ⟨hdown, hbackoff, hearliest, hstarted.trans ht, hrest⟩
  | greeting peer => exact ⟨h.1, h.2.1, h.2.2.later ht⟩
  | serving peer => exact ⟨h.1, h.2.1, h.2.2.later ht⟩
  | regreeting peer => exact ⟨h.1, h.2.1, h.2.2.later ht⟩
  | sleeping deadline => exact h

/-- After a round that reached a peer, the next may begin at once. -/
theorem Reached.resolving {peer : SocketAddr} (h : s.Reached peer)
    (hbackoff : s.backoff = BACKOFF_MIN) :
    s.backoff = pauseOf (streak s.rounds) ∧ earliest s.rounds ≤ s.now := by
  obtain ⟨r, before, hrounds, hpeer, hended⟩ := h
  rw [hrounds, hbackoff, streak, earliest, hpeer]
  exact ⟨(by decide : BACKOFF_MIN = pauseOf 0), hended⟩

/-- **Step lemma of a failed round.** -/
theorem Inv.giveUp (hhistory : History endpoints s.rounds)
    (hlast : s.last_good = lastReached s.rounds)
    (hconnects : s.session_connects = s.rounds.countP fun r => r.reached.isSome)
    (hdown : s.session_connected = false) (hbackoff : s.backoff = pauseOf (streak s.rounds))
    {started : ℕ} (hearliest : earliest s.rounds ≤ started) (hstarted : started ≤ s.now)
    {candidates : List Candidate} (hresolved : ∃ lookup, candidates = resolveAll lookup endpoints)
    {failed : List SocketAddr}
    (hfailed : (preferred (lastReached s.rounds) candidates).map Prod.fst = failed)
    (herrors : s.session_dial_errors =
      (s.rounds.map fun r => r.failed.length).sum + failed.length) :
    (s.giveUp started candidates failed).Inv endpoints where
  history := by
    refine ⟨⟨hresolved, ⟨[], ?_⟩, fun _ => hfailed, hearliest, hstarted⟩, hhistory⟩
    simpa using hfailed
  last_good := hlast
  connects := hconnects
  errors := by
    simp [Dialing.giveUp, failedNow, herrors, Nat.add_comm]
  phase := ⟨hdown, _, _, rfl, rfl, hbackoff, rfl⟩

/-- **Step lemma.** -/
theorem Inv.step (h : s.Inv endpoints) {e : DialEvent} (hs : s.step endpoints e = some s') :
    s'.Inv endpoints := by
  obtain ⟨hhistory, hlast, hconnects, herrors, hphase⟩ := h
  cases e with
  | wait span =>
    obtain rfl := Option.some.inj hs
    exact ⟨hhistory, hlast, hconnects, herrors, hphase.later (Nat.le_add_right _ _)⟩
  | resolve lookup =>
    cases hp : s.phase <;> simp only [Dialing.step, hp] at hs
    case resolving =>
      rw [hp] at hphase
      obtain ⟨hdown, hbackoff, hearliest⟩ := hphase
      simp only [failedNow, hp] at herrors
      split at hs
      · rename_i hnil
        obtain rfl := Option.some.inj hs
        have hpreferred : (preferred (lastReached s.rounds) []).map Prod.fst = [] := by
          rw [(preferred_perm _ []).eq_nil]
          rfl
        exact Inv.giveUp hhistory hlast hconnects hdown hbackoff hearliest (le_refl _)
          ⟨lookup, hnil.symm⟩ hpreferred herrors
      · obtain rfl := Option.some.inj hs
        refine ⟨hhistory, hlast, hconnects, herrors, hdown, hbackoff, hearliest, le_refl _,
          ⟨lookup, rfl⟩, ?_⟩
        rw [hlast]
        rfl
    all_goals exact absurd hs (by simp)
  | dial answered =>
    cases hp : s.phase <;> simp only [Dialing.step, hp] at hs
    case dialing started candidates failed left =>
      rw [hp] at hphase
      obtain ⟨hdown, hbackoff, hearliest, hstarted, hresolved, horder⟩ := hphase
      simp only [failedNow, hp] at herrors
      cases left with
      | nil => exact absurd hs (by simp)
      | cons c left =>
        have hnext : failed ++ (c :: left).map Prod.fst = failed ++ [c.1] ++ left.map Prod.fst := by
          simp
        rw [hnext] at horder
        cases answered with
        | true =>
          obtain rfl := Option.some.inj hs
          have hfollows : Round.Follows endpoints s.rounds
              ⟨started, candidates, failed, some c.1, s.now⟩ :=
            ⟨hresolved, ⟨_, horder⟩, fun hnone => absurd hnone (by simp), hearliest, hstarted⟩
          refine ⟨⟨hfollows, hhistory⟩, rfl, ?_, ?_, hdown, rfl, _, _, rfl, rfl, le_refl _⟩
          · simp [hconnects]
          · simp [failedNow, herrors, Nat.add_comm]
        | false =>
          by_cases hleft : left = []
          · simp only [hleft, if_true, Bool.false_eq_true, if_false] at hs
            obtain rfl := Option.some.inj hs
            subst left
            have hall := horder.trans (List.append_nil _)
            refine Inv.giveUp
              (s := { s with session_dial_errors := s.session_dial_errors + 1,
                             phase := .dialing started candidates failed [c] })
              hhistory hlast hconnects hdown hbackoff hearliest hstarted hresolved hall ?_
            simp [herrors, Nat.add_assoc]
          · simp only [if_neg hleft, Bool.false_eq_true, if_false] at hs
            obtain rfl := Option.some.inj hs
            refine ⟨hhistory, hlast, hconnects, ?_, hdown, hbackoff, hearliest, hstarted,
              hresolved, horder⟩
            simp [failedNow, herrors, Nat.add_assoc]
    all_goals exact absurd hs (by simp)
  | hello acknowledged =>
    cases hp : s.phase <;> simp only [Dialing.step, hp] at hs
    case greeting peer =>
      rw [hp] at hphase
      obtain ⟨hdown, hbackoff, hreached⟩ := hphase
      simp only [failedNow, hp] at herrors
      split at hs
      · obtain rfl := Option.some.inj hs
        exact ⟨hhistory, hlast, hconnects, herrors, rfl, hbackoff, hreached⟩
      · obtain rfl := Option.some.inj hs
        exact ⟨hhistory, hlast, hconnects, herrors, hdown, hreached.resolving hbackoff⟩
    case regreeting peer =>
      rw [hp] at hphase
      obtain ⟨hup, hbackoff, hreached⟩ := hphase
      simp only [failedNow, hp] at herrors
      split at hs
      · obtain rfl := Option.some.inj hs
        exact ⟨hhistory, hlast, hconnects, herrors, hup, hbackoff, hreached⟩
      · obtain rfl := Option.some.inj hs
        exact ⟨hhistory, hlast, hconnects, herrors, rfl, hreached.resolving hbackoff⟩
    all_goals exact absurd hs (by simp)
  | linksChanged =>
    cases hp : s.phase <;> simp only [Dialing.step, hp] at hs
    case serving peer =>
      rw [hp] at hphase
      simp only [failedNow, hp] at herrors
      obtain rfl := Option.some.inj hs
      exact ⟨hhistory, hlast, hconnects, herrors, hphase⟩
    all_goals exact absurd hs (by simp)
  | lost =>
    cases hp : s.phase <;> simp only [Dialing.step, hp] at hs
    case serving peer =>
      rw [hp] at hphase
      obtain ⟨hup, hbackoff, hreached⟩ := hphase
      simp only [failedNow, hp] at herrors
      obtain rfl := Option.some.inj hs
      exact ⟨hhistory, hlast, hconnects, herrors, rfl, hreached.resolving hbackoff⟩
    all_goals exact absurd hs (by simp)
  | wake =>
    cases hp : s.phase <;> simp only [Dialing.step, hp] at hs
    case sleeping deadline =>
      rw [hp] at hphase
      obtain ⟨hdown, r, before, hrounds, hnone, hbackoff, hdeadline⟩ := hphase
      simp only [failedNow, hp] at herrors
      split at hs
      · rename_i hle
        obtain rfl := Option.some.inj hs
        refine ⟨hhistory, hlast, hconnects, herrors, hdown, ?_, ?_⟩
        · show min (s.backoff * 2) BACKOFF_MAX = pauseOf (streak s.rounds)
          rw [hrounds, streak, hnone, hbackoff, ← pauseOf_succ]
          rfl
        · show earliest s.rounds ≤ s.now
          rw [hrounds, earliest, hnone]
          exact (hdeadline.trans (congrArg _ hbackoff)).symm.trans_le hle
      · exact absurd hs (by simp)
    all_goals exact absurd hs (by simp)

/-- **Run lemma.** -/
theorem inv_of_runs (hrun : Runs (Dialing.step endpoints) Always .start s) : s.Inv endpoints :=
  hrun.invariant inv_start fun _ _ _ h _ hs => h.step hs

end Dialing

/-- What a round does, in terms of what was known before it. -/
structure Round.Sound (endpoints : List Endpoint) (before : List Round) (r : Round) : Prop where
  /-- It has every address of every endpoint, -/
  candidates : ∃ lookup, ∀ a, a ∈ r.candidates.map Prod.fst ↔
    ∃ ep ∈ endpoints, a ∈ addresses lookup ep
  /-- and dials no other, and none twice. -/
  once : (r.failed ++ r.reached.toList).Nodup
  only : ∀ a ∈ r.failed ++ r.reached.toList, a ∈ r.candidates.map Prod.fst
  /-- It fails only if every address failed. -/
  exhausted : r.reached = none → ∀ a ∈ r.candidates.map Prod.fst, a ∈ r.failed
  /-- The address that worked last is dialed first. -/
  first : ∀ a, lastReached before = some a → a ∈ r.candidates.map Prod.fst →
    (r.failed ++ r.reached.toList).head? = some a
  /-- It begins no earlier than the pause after the last round is over. -/
  waited : earliest before ≤ r.started

theorem Round.Follows.sound {endpoints : List Endpoint} {before : List Round} {r : Round}
    (h : r.Follows endpoints before) : r.Sound endpoints before := by
  obtain ⟨lookup, hresolved⟩ := h.resolved
  obtain ⟨later, hdialed⟩ := h.dialed
  obtain ⟨hnodup, hmem⟩ := resolveAll_addresses lookup endpoints
  have hperm := (preferred_perm (lastReached before) r.candidates).map Prod.fst
  have honce : (r.failed ++ r.reached.toList ++ later).Nodup := by
    rw [← hdialed, hperm.nodup_iff, hresolved]
    exact hnodup
  refine ⟨⟨lookup, hresolved ▸ hmem⟩, (List.nodup_append.1 honce).1, fun a ha => ?_,
    fun hnone a ha => ?_, fun a hlast ha => ?_, h.waited⟩
  · rw [← hperm.mem_iff, hdialed]
    exact List.mem_append_left _ ha
  · rw [← h.exhausted hnone]
    exact hperm.mem_iff.2 ha
  · have hhead := head_preferred ha
    rw [← hlast, hdialed] at hhead
    cases hdials : r.failed ++ r.reached.toList with
    | nil =>
      -- then no address was left to dial, though there is one
      obtain ⟨hfailed, hreached⟩ := List.append_eq_nil_iff.1 hdials
      have hnone : r.reached = none := Option.toList_eq_nil_iff.1 hreached
      have hmem' := hperm.mem_iff.2 ha
      rw [h.exhausted hnone, hfailed] at hmem'
      exact absurd hmem' List.not_mem_nil
    | cons b dials =>
      rw [hdials, hlast] at hhead
      exact hhead

theorem History.sound {endpoints : List Endpoint} {rounds : List Round}
    (h : History endpoints rounds) {later before : List Round} {r : Round}
    (hr : rounds = later ++ r :: before) : r.Sound endpoints before := by
  induction later generalizing rounds with
  | nil =>
    subst rounds
    exact h.1.sound
  | cons r' later ih =>
    subst rounds
    exact ih h.2 rfl

/-- **Rounds of dialing.** In every run, every round dials the addresses of the endpoints once each
    until one answers, the one that worked last first, and no earlier than the pause after the last
    round; the counters count the answers and the failures; and the agent reports a session exactly
    while one stands whose hello was acknowledged. -/
theorem rounds_sound (endpoints : List Endpoint) (s : Dialing)
    (hrun : Runs (Dialing.step endpoints) Always .start s) :
    (∀ later r before, s.rounds = later ++ r :: before → r.Sound endpoints before) ∧
      s.session_connects = (s.rounds.countP fun r => r.reached.isSome) ∧
      s.session_dial_errors = (s.rounds.map fun r => r.failed.length).sum + s.failedNow ∧
      (s.session_connected = true ↔
        ∃ peer, (s.phase = .serving peer ∨ s.phase = .regreeting peer) ∧ s.Reached peer) := by
  obtain ⟨hhistory, -, hconnects, herrors, hphase⟩ := Dialing.inv_of_runs hrun
  refine ⟨fun later r before hr => hhistory.sound hr, hconnects, herrors, ?_⟩
  cases hp : s.phase with
  | serving peer =>
    rw [hp] at hphase
    exact ⟨fun _ => ⟨peer, .inl rfl, hphase.2.2⟩, fun _ => hphase.1⟩
  | regreeting peer =>
    rw [hp] at hphase
    exact ⟨fun _ => ⟨peer, .inr rfl, hphase.2.2⟩, fun _ => hphase.1⟩
  | _ =>
    rw [hp] at hphase
    have hdown := hphase.1
    simp [hdown]

private def namedHub : List Endpoint := [⟨"hub", 9552⟩]

private def hubA : SocketAddr := ⟨.v4 [192, 0, 2, 1], 9552⟩

private def hubB : SocketAddr := ⟨.v4 [192, 0, 2, 2], 9552⟩

/-- One address does not answer, and the other does. -/
private def failover : Round := ⟨0, [(hubA, "hub"), (hubB, "hub")], [hubA], some hubB, 0⟩

private def failedOver : Dialing :=
  ⟨0, BACKOFF_MIN, some hubB, .serving hubB, 1, 1, true, [failover]⟩

private theorem failedOver_run : Runs (Dialing.step namedHub) Always .start failedOver := by
  have hname : IpAddr.parse "hub".toList = none := by
    simp
    decide
  have hlookup : resolveAll (fun _ => [hubA, hubB]) namedHub = [(hubA, "hub"), (hubB, "hub")] := by
    have haddresses : addresses (fun _ => [hubA, hubB]) ⟨"hub", 9552⟩ = [hubA, hubB] := by
      rw [addresses, hname]
      rfl
    simp only [resolveAll, namedHub, List.foldl_cons, List.foldl_nil, haddresses]
    rfl
  let resolved : Dialing := { Dialing.start with
    phase := .dialing 0 [(hubA, "hub"), (hubB, "hub")] [] [(hubA, "hub"), (hubB, "hub")] }
  have hresolve : Dialing.start.step namedHub (.resolve fun _ => [hubA, hubB]) = some resolved := by
    simp only [Dialing.step, Dialing.start, hlookup]
    rfl
  have hrest : Runs (Dialing.step namedHub) Always resolved failedOver :=
    Runs.of_exec [.dial false, .dial true, .hello true] rfl
  exact Runs.cons _ trivial hresolve hrest

theorem rounds_sound_failover :
    failover.Sound namedHub [] ∧ failedOver.session_connected = true :=
  have hsound := rounds_sound namedHub failedOver failedOver_run
  ⟨hsound.1 [] failover [] rfl, hsound.2.2.2.2 ⟨hubB, .inl rfl, failover, [], rfl, rfl, le_refl _⟩⟩

end Mielofon
