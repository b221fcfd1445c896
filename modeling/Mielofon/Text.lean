import Mathlib.Data.String.Basic
import Mathlib.Data.List.Basic

namespace Mielofon

/-!
# Texts

What the programs use of the standard library's functions on strings.

* `trim`, `stripPrefix`, `stripSuffix` — what is left of a text;
* `splitOnce`, `rsplitOnce` — a text cut at the first or at the last of a character;
* `parseU16` — a decimal number of 16 bits;
* `trim_eq_self_iff`, `splitOnce_append`, `parseU16_digits` — a text that has no blanks around it,
  one put together with a separator, and a number written out.
-/

/-- Unicode's `White_Space`. -/
def isWhitespace (c : Char) : Bool :=
  (9 ≤ c.toNat && c.toNat ≤ 13) || (0x2000 ≤ c.toNat && c.toNat ≤ 0x200A) ||
    c.toNat ∈ [0x20, 0x85, 0xA0, 0x1680, 0x2028, 0x2029, 0x202F, 0x205F, 0x3000]

def trim (s : String) : String :=
  String.ofList (((s.toList.dropWhile isWhitespace).reverse.dropWhile isWhitespace).reverse)

def stripPrefix (pre s : List Char) : Option (List Char) :=
  if pre.isPrefixOf s then some (s.drop pre.length) else none

def stripSuffix (suf s : List Char) : Option (List Char) :=
  if suf.isSuffixOf s then some (s.take (s.length - suf.length)) else none

/-- Cut a text at the first `c`. -/
def splitOnce (c : Char) : List Char → Option (List Char × List Char)
  | [] => none
  | d :: s => if d = c then some ([], s) else (splitOnce c s).map (fun p => (d :: p.1, p.2))

/-- Cut a text at the last `c`. -/
def rsplitOnce (c : Char) (s : List Char) : Option (List Char × List Char) :=
  (splitOnce c s.reverse).map (fun p => (p.2.reverse, p.1.reverse))

/-- The digits behind a plus sign, which must be followed by something. -/
def dropPlus : List Char → List Char
  | '+' :: c :: rest => c :: rest
  | s => s

/-- A decimal number below `2 ^ 16`, with a plus sign or without. -/
def parseU16 (s : List Char) : Option UInt16 :=
  let digits := dropPlus s
  if digits = [] ∨ ¬ digits.all Char.isDigit then none
  else if Nat.ofDigitChars 10 digits 0 < 65536 then
    some (UInt16.ofNat (Nat.ofDigitChars 10 digits 0))
  else none

/-! ### Blanks -/

/-- Neither end of the text is a blank. -/
def Trimmed (s : List Char) : Prop :=
  (∀ c ∈ s.head?, isWhitespace c = false) ∧ ∀ c ∈ s.getLast?, isWhitespace c = false

instance (s : List Char) : Decidable (Trimmed s) := inferInstanceAs (Decidable (_ ∧ _))

theorem dropWhile_of_head {s : List Char} (h : ∀ c ∈ s.head?, isWhitespace c = false) :
    s.dropWhile isWhitespace = s := by
  cases s with
  | nil => rfl
  | cons c s => rw [List.dropWhile_cons_of_neg (by simp [h c rfl])]

theorem head_dropWhile (s : List Char) :
    ∀ c ∈ (s.dropWhile isWhitespace).head?, isWhitespace c = false := by
  intro c hc
  have hnot := List.head?_dropWhile_not isWhitespace s
  rw [Option.mem_def.mp hc] at hnot
  simpa using hnot

/-- A trim takes the blanks off both ends. -/
theorem trimmed_trim (s : String) : Trimmed (trim s).toList := by
  rw [trim, String.toList_ofList, Trimmed, List.head?_reverse, List.getLast?_reverse]
  refine ⟨fun c hc => ?_, head_dropWhile _⟩
  -- what is left ends, reversed, where the text without the blanks at its front begins
  obtain ⟨pre, hpre⟩ :=
    List.dropWhile_suffix isWhitespace (l := (s.toList.dropWhile isWhitespace).reverse)
  refine head_dropWhile s.toList c ?_
  rw [← List.getLast?_reverse, ← hpre, List.getLast?_append, Option.mem_def.mp hc]
  rfl

theorem trim_eq_self_iff {s : String} : trim s = s ↔ Trimmed s.toList := by
  constructor
  · intro h
    rw [← h]
    exact trimmed_trim s
  · rintro ⟨hhead, hlast⟩
    have hback : ∀ c ∈ s.toList.reverse.head?, isWhitespace c = false := by
      rwa [List.head?_reverse]
    rw [trim, dropWhile_of_head hhead, dropWhile_of_head hback, List.reverse_reverse,
      String.ofList_toList]

/-! ### Separators -/

theorem stripPrefix_append (pre s : List Char) : stripPrefix pre (pre ++ s) = some s := by
  rw [stripPrefix, if_pos (List.isPrefixOf_iff_prefix.mpr (List.prefix_append pre s)),
    List.drop_left]

theorem splitOnce_append {c : Char} {a : List Char} (h : c ∉ a) (b : List Char) :
    splitOnce c (a ++ c :: b) = some (a, b) := by
  induction a with
  | nil => simp [splitOnce]
  | cons d a ih =>
    rw [List.mem_cons, not_or] at h
    rw [List.cons_append, splitOnce, if_neg (Ne.symm h.1), ih h.2]
    rfl

theorem splitOnce_eq_none_iff {c : Char} {s : List Char} : splitOnce c s = none ↔ c ∉ s := by
  induction s with
  | nil => simp [splitOnce]
  | cons d s ih =>
    by_cases hd : d = c
    · simp [splitOnce, hd]
    · simp [splitOnce, hd, ih, Ne.symm hd]

theorem splitOnce_eq_some {c : Char} {s a b : List Char} (h : splitOnce c s = some (a, b)) :
    s = a ++ c :: b ∧ c ∉ a := by
  induction s generalizing a with
  | nil => exact absurd h (by simp [splitOnce])
  | cons d s ih =>
    rw [splitOnce] at h
    split at h
    · rename_i hd
      obtain ⟨rfl, rfl⟩ := Prod.mk.inj (Option.some.inj h)
      exact ⟨by rw [hd]; rfl, List.not_mem_nil⟩
    · rename_i hd
      obtain ⟨⟨a', b'⟩, hcut, heq⟩ := Option.map_eq_some_iff.mp h
      obtain ⟨rfl, rfl⟩ := Prod.mk.inj heq
      obtain ⟨rfl, hnot⟩ := ih hcut
      exact ⟨rfl, fun hmem => (List.mem_cons.mp hmem).elim (fun hc => hd hc.symm) hnot⟩

theorem rsplitOnce_append {c : Char} {b : List Char} (h : c ∉ b) (a : List Char) :
    rsplitOnce c (a ++ c :: b) = some (a, b) := by
  rw [rsplitOnce, List.reverse_append, List.reverse_cons, List.append_assoc, List.singleton_append,
    splitOnce_append (by simpa using h)]
  simp

theorem rsplitOnce_eq_none_iff {c : Char} {s : List Char} : rsplitOnce c s = none ↔ c ∉ s := by
  rw [rsplitOnce, Option.map_eq_none_iff, splitOnce_eq_none_iff, List.mem_reverse]

theorem rsplitOnce_eq_some {c : Char} {s a b : List Char} (h : rsplitOnce c s = some (a, b)) :
    s = a ++ c :: b ∧ c ∉ b := by
  obtain ⟨⟨b', a'⟩, hcut, heq⟩ := Option.map_eq_some_iff.mp h
  obtain ⟨rfl, rfl⟩ := Prod.mk.inj heq
  obtain ⟨hs, hnot⟩ := splitOnce_eq_some hcut
  refine ⟨?_, by simpa using hnot⟩
  rw [← List.reverse_reverse s, hs]
  simp

/-! ### Numbers -/

theorem dropPlus_of_ne {s : List Char} (h : ∀ rest, s ≠ '+' :: rest) : dropPlus s = s := by
  unfold dropPlus
  split
  · exact absurd rfl (h _)
  · rfl

/-- What is read as a number has neither colons nor blanks in it. -/
theorem mem_of_parseU16 {s : List Char} {port : UInt16} (h : parseU16 s = some port) :
    ∀ c ∈ s, c = '+' ∨ c.isDigit := by
  unfold parseU16 at h
  dsimp only at h
  split at h
  · exact absurd h (by simp)
  · rename_i hdigits
    rw [not_or, not_not, List.all_eq_true] at hdigits
    intro c hc
    unfold dropPlus at hdigits
    split at hdigits
    · exact (List.mem_cons.mp hc).imp id (hdigits.2 c)
    · exact Or.inr (hdigits.2 c hc)

/-- A number written out is read back. -/
theorem parseU16_digits (port : UInt16) : parseU16 (Nat.toDigits 10 port.toNat) = some port := by
  have hdigit : ∀ c ∈ Nat.toDigits 10 port.toNat, c.isDigit := fun c hc =>
    Nat.isDigit_of_mem_toDigits (by decide) (by decide) hc
  have hplus : dropPlus (Nat.toDigits 10 port.toNat) = Nat.toDigits 10 port.toNat :=
    dropPlus_of_ne (fun rest heq => absurd (hdigit '+' (heq ▸ List.mem_cons_self)) (by decide))
  have hdigits : ¬ (Nat.toDigits 10 port.toNat = [] ∨
      ¬ (Nat.toDigits 10 port.toNat).all Char.isDigit = true) := by
    rw [not_or, not_not, List.all_eq_true]
    exact ⟨Nat.toDigits_ne_nil, hdigit⟩
  unfold parseU16
  rw [hplus, if_neg hdigits, Nat.ofDigitChars_ten_toDigits, if_pos port.toNat_lt]
  rw [UInt16.ofNat_toNat]

end Mielofon
