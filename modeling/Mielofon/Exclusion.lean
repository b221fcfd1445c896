import Mielofon.Fence
import Mielofon.Lib.Runs
import Mielofon.Tsdb.Database

namespace Mielofon

open Lib

/-!
# Mutual exclusion at the probe fence

The fence stores its leases under link ids, while what it excludes are nodes, in either role.
A run of the fence is a sequence of `acquire` and `release` calls, each acquire with its own
reading of the clock, which may lie before the previous one.  Tokens are drawn anew, so the run
carries the leases granted so far.

* `Fence.Call`, `Fence.Log`, `Fence.call` — the calls, the fence with the leases it granted,
  and one call on it;
* `Fence.Exclusive`, `exclusive_call` — no two stored leases share a node, and what every call
  keeps of that;
* `stays_call` — a call that neither releases a stored lease nor finds it expired keeps it;
* `Fence.mutual_exclusion` — the fence over every run.
-/

/-- Whether two leases occupy no common node. -/
def Lease.Apart (l l' : Lease) : Prop :=
  l.from ≠ l'.from ∧ l.from ≠ l'.to ∧ l.to ≠ l'.from ∧ l.to ≠ l'.to

/-- Whether an end of the lease is an end of the link. -/
def Lease.SharesNode (l : Lease) (link : LinkKey) : Prop :=
  (l.from = link.from ∨ l.from = link.to) ∨ l.to = link.from ∨ l.to = link.to

theorem Lease.Apart.symm {l l' : Lease} (h : l.Apart l') : l'.Apart l := by
  obtain ⟨hff, hft, htf, htt⟩ := h
  exact ⟨hff.symm, htf.symm, hft.symm, htt.symm⟩

theorem Lease.occupies_iff {l : Lease} {link : LinkKey} :
    l.occupies link = true ↔ l.SharesNode link := by
  simp [occupies, SharesNode]

/-- The lease of a test on a link has the ends of the link. -/
theorem Lease.apart_newLease_iff {l : Lease} {agent : String} {link : LinkKey}
    {ttl_secs now : ℕ} {token : String} :
    l.Apart (newLease agent link ttl_secs now token) ↔ ¬ l.SharesNode link := by
  simp only [Apart, SharesNode, newLease, not_or, and_assoc]

namespace Fence

/-- A call on the fence. -/
inductive Call where
  | acquire (agent : String) (link : LinkKey) (ttl_secs now : ℕ) (token : String)
  | release (link token : String)
deriving DecidableEq

/-- The fence, and the leases granted so far. -/
structure Log where
  fence : Fence
  granted : List Lease

/-- No call has been made. -/
def Log.new : Log := ⟨Fence.new, []⟩

/-- The lease an acquire grants. -/
def grantOf : Except Lease Lease → List Lease
  | .ok lease => [lease]
  | .error _ => []

/-- One call. -/
def call (s : Log) : Call → Option Log
  | .acquire agent link ttl_secs now token =>
    some ⟨(s.fence.acquire agent link ttl_secs now token).1,
      s.granted ++ grantOf (s.fence.acquire agent link ttl_secs now token).2⟩
  | .release link token => some ⟨(s.fence.release link token).1, s.granted⟩

theorem call_acquire {s s' : Log} {agent : String} {link : LinkKey} {ttl_secs now : ℕ}
    {token : String} (hs : call s (.acquire agent link ttl_secs now token) = some s') :
    s'.fence = (s.fence.acquire agent link ttl_secs now token).1 ∧
      s'.granted = s.granted ++ grantOf (s.fence.acquire agent link ttl_secs now token).2 := by
  rw [call, Option.some.injEq] at hs
  exact ⟨congrArg Log.fence hs.symm, congrArg Log.granted hs.symm⟩

/-- The token drawn is none drawn before, and the names of the nodes hold no `/`. -/
def Fresh (s : Log) : Call → Prop
  | .acquire _ link _ _ token => link.Plain ∧ token ∉ s.granted.map Lease.token
  | .release _ _ => True

instance (s : Log) (c : Call) : Decidable (Fresh s c) := by
  cases c <;> unfold Fresh <;> infer_instance

/-- The call releases the lease with its own token, or is an acquire that finds it expired. -/
def Call.Ends (l : Lease) : Call → Prop
  | .acquire _ _ _ now _ => l.expired now = true
  | .release link token => link = l.link ∧ token = l.token

instance (l : Lease) (c : Call) : Decidable (c.Ends l) := by
  cases c <;> unfold Call.Ends <;> infer_instance

/-- What every call keeps: stored leases were granted for links of plain names and lie under
    the ids of these; no two granted leases have one token; no two stored ones share a node. -/
structure Exclusive (s : Log) : Prop where
  stored : ∀ k l, s.fence.lease.get k = some l → l ∈ s.granted ∧ l.link = k ∧
    ∃ link : LinkKey, link.Plain ∧ link.id = k ∧ link.from = l.from ∧ link.to = l.to
  tokens : ∀ l ∈ s.granted, ∀ l' ∈ s.granted, l.token = l'.token → l = l'
  apart : ∀ k l k' l', s.fence.lease.get k = some l → s.fence.lease.get k' = some l' → k ≠ k' →
    l.Apart l'

theorem exclusive_new : Exclusive Log.new where
  stored k l h := absurd h (by simp [Log.new, Fence.new])
  tokens l h := absurd h (by simp [Log.new])
  apart k l k' l' h := absurd h (by simp [Log.new, Fence.new])

/-! ### One acquire -/

section Acquire

variable {f : Fence} {agent : String} {link : LinkKey} {ttl_secs now : ℕ} {token : String}

/-- What is stored after an acquire is the lease it granted or a live one of before. -/
theorem live_of_get_acquire {k : String} {l : Lease}
    (h : (f.acquire agent link ttl_secs now token).1.lease.get k = some l) :
    (f.lease.get k = some l ∧ l.expired now = false) ∨
      (k = link.id ∧ l = newLease agent link ttl_secs now token ∧
        (f.acquire agent link ttl_secs now token).2 = .ok l) := by
  have hlive : ∀ {l}, (f.lease.retain (fun _ l => !l.expired now)).get k = some l →
      f.lease.get k = some l ∧ l.expired now = false := by
    intro l hl
    rw [Map.get_retain, Option.filter_eq_some_iff] at hl
    exact ⟨hl.1, by simpa using hl.2⟩
  unfold acquire at h ⊢
  dsimp only at h ⊢
  split at h
  · exact Or.inl (hlive h)
  · rename_i hnone
    rw [Map.get_set] at h
    split at h
    · rename_i hk
      obtain rfl := Option.some.inj h
      exact Or.inr ⟨hk, rfl, rfl⟩
    · exact Or.inl (hlive h)

/-- A lease granted is the new one. -/
theorem eq_newLease_of_granted {lease : Lease}
    (hok : (f.acquire agent link ttl_secs now token).2 = .ok lease) :
    lease = newLease agent link ttl_secs now token := by
  unfold acquire at hok
  dsimp only at hok
  split at hok
  · exact absurd hok (by simp)
  · exact (Except.ok.inj hok).symm

/-- A lease is granted exactly when no live one shares a node with the link. -/
theorem granted_iff :
    (∃ lease, (f.acquire agent link ttl_secs now token).2 = .ok lease) ↔
      ∀ k l, f.lease.get k = some l → l.expired now = false → ¬ l.SharesNode link := by
  constructor
  · rintro ⟨lease, hok⟩ k l hl hlive hshares
    have hfree := (granted hok).1 k l hl hlive
    rw [Lease.occupies_iff.mpr hshares] at hfree
    exact absurd hfree (by simp)
  · intro hfree
    cases hres : (f.acquire agent link ttl_secs now token).2 with
    | ok lease => exact ⟨lease, rfl⟩
    | error busy =>
      exfalso
      unfold acquire at hres
      dsimp only at hres
      split at hres
      · rename_i l hfound
        -- the lease found is stored, live and occupies the link
        obtain ⟨e, he, rfl⟩ := List.mem_map.mp (List.mem_of_find?_eq_some hfound)
        have hget := Map.mem_pairs.mp he
        rw [Map.get_retain, Option.filter_eq_some_iff] at hget
        have hoccupies : e.2.occupies link = true := by simpa using List.find?_some hfound
        exact hfree e.1 e.2 hget.1 (by simpa using hget.2) (Lease.occupies_iff.mp hoccupies)
      · exact absurd hres (by simp)

end Acquire

/-! ### What a call keeps -/

/-- A token drawn anew is that of the new lease alone. -/
private theorem tokens_concat {s : Log} {token : String} {lease : Lease} (hI : Exclusive s)
    (hfresh : token ∉ s.granted.map Lease.token) (htoken : lease.token = token) :
    ∀ l ∈ s.granted ++ [lease], ∀ l' ∈ s.granted ++ [lease], l.token = l'.token → l = l' := by
  have hother : ∀ l ∈ s.granted, l.token ≠ lease.token := by
    intro l hl heq
    exact hfresh (List.mem_map.mpr ⟨l, hl, heq.trans htoken⟩)
  intro l hl l' hl' heq
  rcases List.mem_append.mp hl with hl | hl <;> rcases List.mem_append.mp hl' with hl' | hl'
  · exact hI.tokens l hl l' hl' heq
  · rw [List.mem_singleton.mp hl'] at heq
    exact absurd heq (hother l hl)
  · rw [List.mem_singleton.mp hl] at heq
    exact absurd heq.symm (hother l' hl')
  · rw [List.mem_singleton.mp hl, List.mem_singleton.mp hl']

theorem exclusive_acquire {s s' : Log} {agent : String} {link : LinkKey} {ttl_secs now : ℕ}
    {token : String} (hI : Exclusive s) (hfresh : Fresh s (.acquire agent link ttl_secs now token))
    (hs : call s (.acquire agent link ttl_secs now token) = some s') : Exclusive s' := by
  obtain ⟨hfence, hgranted⟩ := call_acquire hs
  refine ⟨fun k l hl => ?_, ?_, fun k l k' l' hl hl' hne => ?_⟩
  · rw [hgranted]
    rw [hfence] at hl
    obtain ⟨hold, -⟩ | ⟨hk, hnew, hok⟩ := live_of_get_acquire hl
    · obtain ⟨hmem, hlink⟩ := hI.stored k l hold
      exact ⟨List.mem_append_left _ hmem, hlink⟩
    · rw [hok, hk, hnew]
      exact ⟨List.mem_append_right _ (by simp [grantOf]), rfl, link, hfresh.1, rfl, rfl, rfl⟩
  · rw [hgranted]
    cases hres : (s.fence.acquire agent link ttl_secs now token).2 with
    | error busy =>
      rw [grantOf, List.append_nil]
      exact hI.tokens
    | ok lease =>
      exact tokens_concat hI hfresh.2 (by rw [eq_newLease_of_granted hres]; rfl)
  · rw [hfence] at hl hl'
    -- either is one of before, and a new one was granted next to none that lives
    obtain ⟨hold, hlive⟩ | ⟨hk, hnew, hok⟩ := live_of_get_acquire hl <;>
      obtain ⟨hold', hlive'⟩ | ⟨hk', hnew', hok'⟩ := live_of_get_acquire hl'
    · exact hI.apart k l k' l' hold hold' hne
    · rw [hnew']
      exact Lease.apart_newLease_iff.mpr (granted_iff.mp ⟨l', hok'⟩ k l hold hlive)
    · rw [hnew]
      exact (Lease.apart_newLease_iff.mpr (granted_iff.mp ⟨l, hok⟩ k' l' hold' hlive')).symm
    · exact absurd (hk.trans hk'.symm) hne

theorem exclusive_call {s s' : Log} {c : Call} (hI : Exclusive s) (hfresh : Fresh s c)
    (hs : call s c = some s') : Exclusive s' := by
  cases c with
  | acquire agent link ttl_secs now token => exact exclusive_acquire hI hfresh hs
  | release link token =>
    obtain rfl := Option.some.inj hs
    exact {
      stored := fun k l hl => hI.stored k l (get_of_get_release hl)
      tokens := hI.tokens
      apart := fun k l k' l' hl hl' =>
        hI.apart k l k' l' (get_of_get_release hl) (get_of_get_release hl') }

/-- A stored lease stays under a call that neither releases it nor finds it expired. -/
theorem stays_call {s s' : Log} {c : Call} {l : Lease} (hI : Exclusive s) (hfresh : Fresh s c)
    (hl : s.fence.lease.get l.link = some l) (hends : ¬ c.Ends l) (hs : call s c = some s') :
    s'.fence.lease.get l.link = some l := by
  cases c with
  | acquire agent link ttl_secs now token =>
    obtain rfl := Option.some.inj hs
    have hlive : l.expired now = false := by simpa [Call.Ends] using hends
    refine get_acquire_of_live hl hlive (fun hid => ?_)
    -- plain names: a link of the same id has the ends of the lease
    obtain ⟨-, -, link', hplain, hid', hfrom, -⟩ := hI.stored l.link l hl
    obtain rfl := hplain.eq_of_id_eq hfresh.1 (hid'.trans hid)
    exact Lease.occupies_iff.mpr (Or.inl (Or.inl hfrom.symm))
  | release link token =>
    obtain rfl := Option.some.inj hs
    show (s.fence.release link token).1.lease.get l.link = some l
    rw [get_release, if_neg, hl]
    rintro ⟨rfl, htoken⟩
    rw [hl] at htoken
    exact hends ⟨rfl, (Option.some.inj htoken).symm⟩

/-- A release with another token than the stored lease's changes nothing. -/
theorem release_eq_self {f : Fence} {link token : String}
    (h : ∀ l, f.lease.get link = some l → l.token ≠ token) :
    f.release link token = (f, false) := by
  unfold release
  cases hl : f.lease.get link with
  | none => rfl
  | some l => exact if_neg (h l hl)

/-- In every run with fresh tokens and plain names: no two stored leases share a node; a lease
    granted stays stored until it is released with its own token or an acquire finds it expired;
    an acquire is granted exactly when no stored lease that lives shares a node with its link; a
    release with a token other than the stored lease's changes nothing, and so the holder of an
    earlier lease never frees a later one. -/
theorem mutual_exclusion {s : Log} (hrun : Runs call Fresh Log.new s) :
    (∀ k l k' l', s.fence.lease.get k = some l → s.fence.lease.get k' = some l' → k ≠ k' →
      l.Apart l') ∧
    (∀ agent link ttl_secs now token lease s₁ s₂,
      (s.fence.acquire agent link ttl_secs now token).2 = .ok lease →
      Fresh s (.acquire agent link ttl_secs now token) →
      call s (.acquire agent link ttl_secs now token) = some s₁ →
      Runs call (fun s c => Fresh s c ∧ ¬ c.Ends lease) s₁ s₂ →
        s₂.fence.lease.get lease.link = some lease) ∧
    (∀ agent link ttl_secs now token,
      (∃ lease, (s.fence.acquire agent link ttl_secs now token).2 = .ok lease) ↔
        ∀ k l, s.fence.lease.get k = some l → l.expired now = false → ¬ l.SharesNode link) ∧
    (∀ link token, (∀ l, s.fence.lease.get link = some l → l.token ≠ token) →
      s.fence.release link token = (s.fence, false)) ∧
    ∀ l ∈ s.granted, ∀ l', s.fence.lease.get l.link = some l' → l' ≠ l →
      s.fence.release l.link l.token = (s.fence, false) := by
  have hI : Exclusive s :=
    hrun.invariant exclusive_new (fun t c t' ht hok hs => exclusive_call ht hok hs)
  refine ⟨hI.apart, ?_, fun agent link ttl_secs now token => granted_iff,
    fun link token h => release_eq_self h, fun l hl l' hl' hne => ?_⟩
  · intro agent link ttl_secs now token lease s₁ s₂ hok hfresh hcall hlater
    have hstored : s₁.fence.lease.get lease.link = some lease := by
      obtain rfl := Option.some.inj hcall
      rw [eq_newLease_of_granted hok]
      exact (granted hok).2
    -- the lease stays stored, and the run keeps what it is stored next to
    refine (hlater.invariant (I := fun t => Exclusive t ∧ t.fence.lease.get lease.link = some lease)
      ⟨exclusive_acquire hI hfresh hcall, hstored⟩ ?_).2
    rintro t c t' ⟨ht, hget⟩ ⟨hf, hends⟩ hs
    exact ⟨exclusive_call ht hf hs, stays_call ht hf hget hends hs⟩
  · -- the lease stored now has another token, as no two granted leases share one
    refine release_eq_self (fun l'' hl'' htoken => hne ?_)
    obtain rfl := Option.some.inj (hl'.symm.trans hl'')
    exact hI.tokens l' (hI.stored _ l' hl').1 l hl htoken

/-- A lease, and the next one of the same link, granted once the first had expired; between
    them another pair of nodes is tested, on a clock that has stepped back. -/
def expiredHolder : Lease := newLease "node-0" ⟨"node-0", "hub-a", "awg"⟩ 30 100 "t1"
def successor : Lease := newLease "node-0" ⟨"node-0", "hub-a", "awg"⟩ 30 140 "t3"

def takeoverCalls : List Call :=
  [.acquire "node-0" ⟨"node-0", "hub-a", "awg"⟩ 30 100 "t1",
    .acquire "hub-b" ⟨"hub-b", "hub-c", "awg"⟩ 30 90 "t2",
    .acquire "node-0" ⟨"node-0", "hub-a", "awg"⟩ 30 140 "t3"]

def takeover : Log := (exec call Fresh Log.new takeoverCalls).getD Log.new

theorem successor_stays_held :
    takeover.fence.lease.get successor.link = some successor ∧
      takeover.fence.release expiredHolder.link expiredHolder.token = (takeover.fence, false) := by
  have hstored : takeover.fence.lease.get successor.link = some successor := by decide
  have hrun : Runs call Fresh Log.new takeover := Runs.of_exec takeoverCalls (by rfl)
  exact ⟨hstored, (mutual_exclusion hrun).2.2.2.2 expiredHolder (by decide) successor hstored
    (by decide)⟩

end Fence

end Mielofon
