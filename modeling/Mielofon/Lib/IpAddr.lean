import Mathlib.Data.List.Basic
import Mathlib.Data.List.Count

namespace Lib

/-!
# Textual addresses

The reader of the standard library for IPv4 and IPv6 addresses: dotted octets, colon-separated
groups with one `::` for a run of zeros, and an IPv4 address in place of the last two groups.

* `readNumber`, `readOctets`, `readGroups` — what an address is put together of;
* `IpAddr.parse` — a whole text as an address;
* `parse_chars`, `parse_v4_chars`, `parse_v6_colons` — what is found in a text that is one.
-/

/-- An address: four octets, or eight groups of 16 bits. -/
inductive IpAddr where
  | v4 (octets : List ℕ)
  | v6 (groups : List ℕ)
deriving DecidableEq, Repr

/-- The value of a digit. -/
def digitOf (radix : ℕ) (c : Char) : Option ℕ :=
  let value :=
    if '0' ≤ c ∧ c ≤ '9' then some (c.toNat - 48)
    else if 'a' ≤ c ∧ c ≤ 'f' then some (c.toNat - 87)
    else if 'A' ≤ c ∧ c ≤ 'F' then some (c.toNat - 55)
    else none
  value.filter (· < radix)

/-- The digits a text starts with, and the rest. -/
def readDigits (radix : ℕ) : List Char → List ℕ × List Char
  | [] => ([], [])
  | c :: s =>
    match digitOf radix c with
    | some d => (d :: (readDigits radix s).1, (readDigits radix s).2)
    | none => ([], c :: s)

/-- A number below `bound` of at most `max` digits, which starts with a zero only where `zeros`
    says so. -/
def readNumber (radix max bound : ℕ) (zeros : Bool) (s : List Char) : Option (ℕ × List Char) :=
  let digits := (readDigits radix s).1
  if digits = [] ∨ max < digits.length ∨ (zeros = false ∧ 1 < digits.length ∧ digits.head? = some 0)
  then none
  else
    let n := digits.foldl (fun n d => n * radix + d) 0
    if n < bound then some (n, (readDigits radix s).2) else none

/-- The `i`-th of several parts, each but the first behind a separator. -/
def readSeparator {α : Type*} (sep : Char) (i : ℕ) (read : List Char → Option (α × List Char))
    (s : List Char) : Option (α × List Char) :=
  if i = 0 then read s
  else match s with
    | c :: s => if c = sep then read s else none
    | [] => none

/-- So many octets, from the `i`-th on. -/
def readOctets : ℕ → ℕ → List Char → Option (List ℕ × List Char)
  | 0, _, s => some ([], s)
  | left + 1, i, s =>
    (readSeparator '.' i (readNumber 10 3 256 false) s).bind fun p =>
      (readOctets left (i + 1) p.2).map fun q => (p.1 :: q.1, q.2)

def readIpv4 (s : List Char) : Option (List ℕ × List Char) := readOctets 4 0 s

/-- The two groups that four octets stand for. -/
def groupsOf : List ℕ → List ℕ
  | [a, b, c, d] => [a * 256 + b, c * 256 + d]
  | _ => []

/-- At most so many groups, from the `i`-th on, and whether they end with an IPv4 address. -/
def readGroups : ℕ → ℕ → List Char → List ℕ × Bool × List Char
  | 0, _, s => ([], false, s)
  | left + 1, i, s =>
    -- an IPv4 address takes the place of two groups
    match (if left = 0 then none else readSeparator ':' i readIpv4 s) with
    | some (octets, s) => (groupsOf octets, true, s)
    | none =>
      match readSeparator ':' i (readNumber 16 4 65536 true) s with
      | some (g, s) => (g :: (readGroups left (i + 1) s).1, (readGroups left (i + 1) s).2)
      | none => ([], false, s)

def readIpv6 (s : List Char) : Option (List ℕ × List Char) :=
  let head := readGroups 8 0 s
  if head.1.length = 8 then some (head.1, head.2.2)
  else if head.2.1 then none
  else match head.2.2 with
    | ':' :: ':' :: s =>
      let tail := readGroups (8 - (head.1.length + 1)) 0 s
      some (head.1 ++ List.replicate (8 - head.1.length - tail.1.length) 0 ++ tail.1, tail.2.2)
    | _ => none

def readIpAddr (s : List Char) : Option (IpAddr × List Char) :=
  match readIpv4 s with
  | some (octets, rest) => some (.v4 octets, rest)
  | none => (readIpv6 s).map (fun p => (.v6 p.1, p.2))

/-- A text as an address, if the whole of it is one. -/
def IpAddr.parse (s : List Char) : Option IpAddr :=
  (readIpAddr s).bind (fun p => if p.2 = [] then some p.1 else none)

example : IpAddr.parse "2001:db8::1".toList = some (.v6 [0x2001, 0xdb8, 0, 0, 0, 0, 0, 1]) := by decide
example : IpAddr.parse "::ffff:192.0.2.1".toList =
    some (.v6 [0, 0, 0, 0, 0, 0xffff, 0xc000, 0x201]) := by decide
example : IpAddr.parse "192.0.2.01".toList = none := by decide

/-! ### What an address is made of -/

section Chars

variable {α : Type*} {s rest : List Char}

/-- What a reader took off the front of a text, all of it of some characters. -/
def Takes (P : Char → Prop) (s rest : List Char) : Prop := ∃ used, s = used ++ rest ∧ ∀ c ∈ used, P c

theorem Takes.refl (P : Char → Prop) (s : List Char) : Takes P s s := ⟨[], rfl, by simp⟩

theorem Takes.trans {P : Char → Prop} {s t rest : List Char} (h : Takes P s t) (h' : Takes P t rest) :
    Takes P s rest := by
  obtain ⟨used, rfl, hused⟩ := h
  obtain ⟨used', rfl, hused'⟩ := h'
  refine ⟨used ++ used', by rw [List.append_assoc], fun c hc => ?_⟩
  exact (List.mem_append.mp hc).elim (hused c) (hused' c)

theorem Takes.cons {P : Char → Prop} {c : Char} (hc : P c) (h : Takes P s rest) :
    Takes P (c :: s) rest :=
  Takes.trans ⟨[c], rfl, by simpa using hc⟩ h

theorem Takes.mono {P Q : Char → Prop} (hPQ : ∀ c, P c → Q c) (h : Takes P s rest) :
    Takes Q s rest := by
  obtain ⟨used, rfl, hused⟩ := h
  exact ⟨used, rfl, fun c hc => hPQ c (hused c hc)⟩

theorem takes_readDigits (radix : ℕ) (s : List Char) :
    Takes (fun c => (digitOf radix c).isSome) s (readDigits radix s).2 := by
  induction s with
  | nil => exact Takes.refl _ _
  | cons c s ih =>
    rw [readDigits]
    split
    · rename_i d hd
      exact Takes.cons (by rw [hd]; rfl) ih
    · exact Takes.refl _ _

theorem takes_readNumber {radix max bound n : ℕ} {zeros : Bool}
    (h : readNumber radix max bound zeros s = some (n, rest)) :
    Takes (fun c => (digitOf radix c).isSome) s rest := by
  unfold readNumber at h
  dsimp only at h
  split at h
  · exact absurd h (by simp)
  · split at h
    · exact (Prod.mk.inj (Option.some.inj h)).2 ▸ takes_readDigits radix s
    · exact absurd h (by simp)

theorem takes_readSeparator {P : Char → Prop} {sep : Char} {i : ℕ}
    {read : List Char → Option (α × List Char)} {x : α} (hsep : P sep)
    (hread : ∀ {s rest x}, read s = some (x, rest) → Takes P s rest)
    (h : readSeparator sep i read s = some (x, rest)) : Takes P s rest := by
  unfold readSeparator at h
  split at h
  · exact hread h
  · split at h
    · split at h
      · rename_i hc
        exact Takes.cons (hc ▸ hsep) (hread h)
      · exact absurd h (by simp)
    · exact absurd h (by simp)

/-- Octets are digits and dots. -/
theorem takes_readOctets {left i : ℕ} {octets : List ℕ}
    (h : readOctets left i s = some (octets, rest)) :
    Takes (fun c => (digitOf 10 c).isSome ∨ c = '.') s rest := by
  induction left generalizing i s octets with
  | zero => exact (Prod.mk.inj (Option.some.inj h)).2 ▸ Takes.refl _ _
  | succ left ih =>
    obtain ⟨⟨n, t⟩, hfirst, h⟩ := Option.bind_eq_some_iff.mp h
    obtain ⟨⟨ns, t'⟩, hrest, heq⟩ := Option.map_eq_some_iff.mp h
    obtain ⟨-, rfl⟩ := Prod.mk.inj heq
    have htake := takes_readSeparator (P := fun c => (digitOf 10 c).isSome ∨ c = '.') (Or.inr rfl)
      (fun hread => (takes_readNumber hread).mono (fun _ => Or.inl)) hfirst
    exact htake.trans (ih hrest)

/-- A character that an address can have in it. -/
def AddrChar (c : Char) : Prop := (digitOf 16 c).isSome ∨ c = '.' ∨ c = ':'

instance (c : Char) : Decidable (AddrChar c) := inferInstanceAs (Decidable (_ ∨ _))

theorem digitOf_sixteen {c : Char} (h : (digitOf 10 c).isSome) : (digitOf 16 c).isSome := by
  unfold digitOf at h ⊢
  dsimp only at h ⊢
  obtain ⟨d, hd⟩ := Option.isSome_iff_exists.mp h
  obtain ⟨hvalue, hlt⟩ := Option.filter_eq_some_iff.mp hd
  rw [hvalue, Option.filter_some, if_pos (by simp at hlt ⊢; omega)]
  rfl

theorem takes_readIpv4 {octets : List ℕ} (h : readIpv4 s = some (octets, rest)) :
    Takes AddrChar s rest :=
  (takes_readOctets h).mono (fun _ hc => hc.imp digitOf_sixteen Or.inl)

/-- What is read behind a separator has the separator in it. -/
theorem readSeparator_colon {i : ℕ} {read : List Char → Option (α × List Char)} {x : α}
    (hread : ∀ {s rest x}, read s = some (x, rest) → Takes AddrChar s rest)
    (h : readSeparator ':' i read s = some (x, rest)) :
    ∃ used, s = used ++ rest ∧ (∀ c ∈ used, AddrChar c) ∧ (i = 0 ∨ 1 ≤ used.count ':') := by
  unfold readSeparator at h
  split at h
  · rename_i hi
    obtain ⟨used, hs, hused⟩ := hread h
    exact ⟨used, hs, hused, Or.inl hi⟩
  · split at h
    · split at h
      · rename_i hc
        obtain ⟨used, rfl, hused⟩ := hread h
        refine ⟨':' :: used, by rw [hc]; rfl, ?_, Or.inr (by simp)⟩
        exact List.forall_mem_cons.mpr ⟨Or.inr (Or.inr rfl), hused⟩
      · exact absurd h (by simp)
    · exact absurd h (by simp)

theorem length_groupsOf (octets : List ℕ) : (groupsOf octets).length ≤ 2 := by
  unfold groupsOf
  split <;> simp

/-- Between so many groups there are as many colons, but one less for the first group and one less
    for an address at the end. -/
theorem readGroups_colons (left i : ℕ) (s : List Char) :
    ∃ used, s = used ++ (readGroups left i s).2.2 ∧ (∀ c ∈ used, AddrChar c) ∧
      (readGroups left i s).1.length ≤
        used.count ':' + (if i = 0 then 1 else 0) + (if (readGroups left i s).2.1 then 1 else 0) := by
  induction left generalizing i s with
  | zero => exact ⟨[], rfl, by simp, Nat.zero_le _⟩
  | succ left ih =>
    rw [readGroups]
    split
    · -- an IPv4 address ends the groups
      rename_i octets t hsome
      split at hsome
      · exact absurd hsome (by simp)
      · obtain ⟨used, hs, hused, hcolon⟩ := readSeparator_colon takes_readIpv4 hsome
        refine ⟨used, hs, hused, ?_⟩
        have hlen := length_groupsOf octets
        rcases hcolon with hi | hcolon
        · simp only [hi, if_true]; omega
        · simp only [if_true]; omega
    · split
      · -- a group, and those behind it
        rename_i g t hsome
        obtain ⟨used, hs, hused, hcolon⟩ := readSeparator_colon
          (fun hread => (takes_readNumber hread).mono (fun _ => Or.inl)) hsome
        obtain ⟨used', ht, hused', hlen⟩ := ih (i + 1) t
        refine ⟨used ++ used', ?_, fun c hc => ?_, ?_⟩
        · rw [List.append_assoc, ← ht]
          exact hs
        · exact (List.mem_append.mp hc).elim (hused c) (hused' c)
        · rw [if_neg (Nat.succ_ne_zero i)] at hlen
          rw [List.count_append, List.length_cons]
          dsimp only
          rcases hcolon with hi | hcolon
          · rw [if_pos hi]; omega
          · omega
      · exact ⟨[], rfl, by simp, Nat.zero_le _⟩

theorem readIpv6_colons {groups : List ℕ} (h : readIpv6 s = some (groups, rest)) :
    ∃ used, s = used ++ rest ∧ (∀ c ∈ used, AddrChar c) ∧ 2 ≤ used.count ':' := by
  obtain ⟨used, hs, hused, hlen⟩ := readGroups_colons 8 0 s
  unfold readIpv6 at h
  dsimp only at h
  split at h
  · -- eight groups
    rename_i height
    obtain ⟨-, rfl⟩ := Prod.mk.inj (Option.some.inj h)
    refine ⟨used, hs, hused, ?_⟩
    rw [height, if_pos rfl] at hlen
    split at hlen <;> omega
  · split at h
    · exact absurd h (by simp)
    · split at h
      · -- the colons in place of the zeros
        rename_i t hcut
        have hrest := (Prod.mk.inj (Option.some.inj h)).2
        obtain ⟨used', ht, hused', -⟩ :=
          readGroups_colons (8 - ((readGroups 8 0 s).1.length + 1)) 0 t
        rw [hrest] at ht
        refine ⟨used ++ ':' :: ':' :: used', ?_, fun c hc => ?_, ?_⟩
        · rw [hs, hcut, ht]
          simp
        · rcases List.mem_append.mp hc with hc | hc
          · exact hused c hc
          · rcases List.mem_cons.mp hc with rfl | hc
            · exact Or.inr (Or.inr rfl)
            · rcases List.mem_cons.mp hc with rfl | hc
              · exact Or.inr (Or.inr rfl)
              · exact hused' c hc
        · simp
          omega
      · exact absurd h (by simp)

/-- A text that is an address was read to its end. -/
theorem parse_eq_some {a : IpAddr} (h : IpAddr.parse s = some a) : readIpAddr s = some (a, []) := by
  obtain ⟨⟨a', rest⟩, hread, h⟩ := Option.bind_eq_some_iff.mp h
  rw [Option.ite_none_right_eq_some] at h
  obtain ⟨rfl, h⟩ := h
  exact Option.some.inj h ▸ hread

/-- An IPv4 address has digits and dots in it. -/
theorem parse_v4_chars {octets : List ℕ} (h : IpAddr.parse s = some (.v4 octets)) :
    ∀ c ∈ s, (digitOf 10 c).isSome ∨ c = '.' := by
  have hread := parse_eq_some h
  unfold readIpAddr at hread
  split at hread
  · rename_i rest hsome
    obtain ⟨-, rfl⟩ := Prod.mk.inj (Option.some.inj hread)
    obtain ⟨used, rfl, hused⟩ := takes_readOctets hsome
    rwa [List.append_nil]
  · obtain ⟨p, -, heq⟩ := Option.map_eq_some_iff.mp hread
    exact absurd (Prod.mk.inj heq).1 (by simp)

/-- An IPv6 address has two colons in it at least. -/
theorem parse_v6_colons {groups : List ℕ} (h : IpAddr.parse s = some (.v6 groups)) :
    (∀ c ∈ s, AddrChar c) ∧ 2 ≤ s.count ':' := by
  have hread := parse_eq_some h
  unfold readIpAddr at hread
  split at hread
  · exact absurd (Prod.mk.inj (Option.some.inj hread)).1 (by simp)
  · obtain ⟨⟨groups', rest⟩, hsome, heq⟩ := Option.map_eq_some_iff.mp hread
    obtain ⟨-, rfl⟩ := Prod.mk.inj heq
    obtain ⟨used, rfl, hused⟩ := readIpv6_colons hsome
    rwa [List.append_nil]

theorem parse_chars {a : IpAddr} (h : IpAddr.parse s = some a) : ∀ c ∈ s, AddrChar c := by
  cases a with
  | v4 octets => exact fun c hc => (parse_v4_chars h c hc).imp digitOf_sixteen Or.inl
  | v6 groups => exact (parse_v6_colons h).1

end Chars

end Lib
