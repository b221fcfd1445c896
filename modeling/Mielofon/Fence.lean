import Mielofon.Lib.Map
import Mielofon.Proto

namespace Mielofon

open Lib

/-!
# The probe fence

A throughput test occupies both endpoints of its link (`fence.rs`).  A lease is granted only
when neither is in a live lease, and is stored under the id of its link until a reply releases
it by its token, or until it has expired and another lease is asked for.

* `Lease`, `Fence` — a lease, and those held, by link id;
* `Fence.acquire`, `Fence.release` — grant and give back;
* `granted`, `get_acquire`, `get_acquire_of_live`, `get_release` — what either leaves under each
  link id.
-/

/-- A throughput test's hold on the two nodes it occupies. -/
structure Lease where
  holder : String
  /-- Directed link id; the key the reply releases. -/
  link : String
  «from» : String
  «to» : String
  token : String
  issued_at : ℕ
  ttl_secs : ℕ
deriving DecidableEq, Repr

namespace Lease

def expired (l : Lease) (now : ℕ) : Bool := l.ttl_secs ≤ now - l.issued_at

/-- Whether a test on `link` would share a node with this lease. -/
def occupies (l : Lease) (link : LinkKey) : Bool :=
  [l.from, l.to].any (fun n => n = link.from ∨ n = link.to)

end Lease

/-- The lease of a test on `link`, with a token drawn by the caller. -/
def newLease (agent : String) (link : LinkKey) (ttl_secs now : ℕ) (token : String) : Lease :=
  ⟨agent, link.id, link.from, link.to, token, now, ttl_secs⟩

/-- The leases held, by link id. -/
structure Fence where
  lease : Map String Lease

namespace Fence

/-- No lease is held. -/
def new : Fence := ⟨∅⟩

/-- Attempt to acquire the fence for a throughput test on `link`, dropping expired leases on
    the way.  Returns the new lease, or the live lease that occupies one of the endpoints. -/
def acquire (f : Fence) (agent : String) (link : LinkKey) (ttl_secs now : ℕ) (token : String) :
    Fence × Except Lease Lease :=
  let live := f.lease.retain (fun _ l => !l.expired now)
  match (live.pairs.map Prod.snd).find? (fun l => l.occupies link) with
  | some busy => (⟨live⟩, .error busy)
  | none =>
    let lease := newLease agent link ttl_secs now token
    (⟨live.set lease.link lease⟩, .ok lease)

/-- Release a lease if the token matches. -/
def release (f : Fence) (link token : String) : Fence × Bool :=
  match f.lease.get link with
  | some l => if l.token = token then (⟨f.lease.erase link⟩, true) else (f, false)
  | none => (f, false)

/-- Dropping expired leases stores nothing. -/
theorem get_of_get_live {f : Fence} {now : ℕ} {k : String} {l : Lease}
    (h : (f.lease.retain (fun _ l => !l.expired now)).get k = some l) :
    f.lease.get k = some l := by
  rw [Map.get_retain, Option.filter_eq_some_iff] at h
  exact h.1

/-- A lease that was not granted stores nothing. -/
theorem get_acquire_of_error {f : Fence} {agent : String} {link : LinkKey} {ttl_secs now : ℕ}
    {token : String} {busy : Lease} (herr : (f.acquire agent link ttl_secs now token).2 = .error busy)
    {k : String} {l : Lease}
    (h : (f.acquire agent link ttl_secs now token).1.lease.get k = some l) :
    f.lease.get k = some l := by
  unfold acquire at h herr
  dsimp only at h herr
  split at h
  · exact get_of_get_live h
  · rename_i hnone
    rw [hnone] at herr
    exact absurd herr (by simp)

/-- Acquiring stores at most the new lease, under the id of its link. -/
theorem get_acquire {f : Fence} {agent : String} {link : LinkKey} {ttl_secs now : ℕ}
    {token : String} {k : String} {l : Lease}
    (h : (f.acquire agent link ttl_secs now token).1.lease.get k = some l) :
    f.lease.get k = some l ∨ (k = link.id ∧ l = newLease agent link ttl_secs now token) := by
  unfold acquire at h
  dsimp only at h
  split at h
  · exact Or.inl (get_of_get_live h)
  · rw [Map.get_set] at h
    split at h
    · rename_i hk
      exact Or.inr ⟨hk, (Option.some.inj h).symm⟩
    · exact Or.inl (get_of_get_live h)

/-- A lease that has not expired is not dropped. -/
private theorem get_live {f : Fence} {now : ℕ} {k : String} {l : Lease}
    (h : f.lease.get k = some l) (hlive : l.expired now = false) :
    (f.lease.retain (fun _ l => !l.expired now)).get k = some l := by
  rw [Map.get_retain, h, Option.filter_some, hlive]
  rfl

/-- A lease is granted next to no live one of the same nodes, and is then stored. -/
theorem granted {f : Fence} {agent : String} {link : LinkKey} {ttl_secs now : ℕ} {token : String}
    {lease : Lease} (hok : (f.acquire agent link ttl_secs now token).2 = .ok lease) :
    (∀ k l, f.lease.get k = some l → l.expired now = false → l.occupies link = false) ∧
      (f.acquire agent link ttl_secs now token).1.lease.get link.id =
        some (newLease agent link ttl_secs now token) := by
  unfold acquire at hok ⊢
  dsimp only at hok ⊢
  split at hok
  · exact absurd hok (by simp)
  · rename_i hnone
    constructor
    · intro k l hl hlive
      have hmem := List.mem_map_of_mem (f := Prod.snd) (Map.mem_pairs.mpr (get_live hl hlive))
      simpa using List.find?_eq_none.mp hnone l hmem
    · exact Map.get_set_self _ _ _

/-- Acquiring keeps the leases that live, unless it stores one over a lease of other nodes. -/
theorem get_acquire_of_live {f : Fence} {agent : String} {link : LinkKey} {ttl_secs now : ℕ}
    {token : String} {k : String} {l : Lease} (h : f.lease.get k = some l)
    (hlive : l.expired now = false) (hk : k = link.id → l.occupies link = true) :
    (f.acquire agent link ttl_secs now token).1.lease.get k = some l := by
  cases hres : (f.acquire agent link ttl_secs now token).2 with
  | error busy =>
    unfold acquire at hres ⊢
    dsimp only at hres ⊢
    split at hres
    · exact get_live h hlive
    · exact absurd hres (by simp)
  | ok lease =>
    have hapart := (granted hres).1 k l h hlive
    unfold acquire at hres ⊢
    dsimp only at hres ⊢
    split at hres
    · exact absurd hres (by simp)
    · dsimp only
      -- the id is another one: this lease does not occupy the link
      rw [Map.get_set, if_neg]
      · exact get_live h hlive
      · intro heq
        rw [hk heq] at hapart
        exact absurd hapart (by simp)

/-- A release removes the lease of its link id if it has the token, and nothing else. -/
theorem get_release (f : Fence) (link token k : String) :
    (f.release link token).1.lease.get k =
      if k = link ∧ (f.lease.get link).map Lease.token = some token then none
      else f.lease.get k := by
  unfold release
  cases h : f.lease.get link with
  | none => simp
  | some l =>
    dsimp only
    split
    · rename_i htok
      show Map.get (Map.erase _ link) k = _
      rw [Map.get_erase]
      simp [htok]
    · rename_i htok
      simp [htok]

theorem get_of_get_release {f : Fence} {link token k : String} {l : Lease}
    (h : (f.release link token).1.lease.get k = some l) : f.lease.get k = some l := by
  rw [get_release] at h
  split at h
  · exact absurd h (by simp)
  · exact h

end Fence

end Mielofon
