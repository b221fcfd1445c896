import Mathlib.Data.List.Basic

namespace Lib

/-!
# Words, quoted texts and symbols

A scanner of line-oriented texts, character by character: runs of word characters, texts in double
quotes with backslash escapes, comments from a hash to the end of their line, line ends, and single
characters for all else.  What it reads of a text that was put together from parts is put together
from what it reads of the parts.

* `Token`, `Scan`, `scanChar` — one character;
* `scan`, `lex` — a text; `scan_append` — two texts, one after the other;
* `scan_word`, `scan_escape` — a word, and a text that was escaped;
* `lines`, `readLines` — a text line by line.
-/

inductive Token where
  | word (w : List Char)
  | quoted (w : List Char)
  | symbol (c : Char)
  | newline
deriving DecidableEq, Repr

/-- Where the scanner is: between tokens, in a word, in quotes, behind a backslash, or in a
    comment. -/
inductive Scan where
  | between
  | word (w : List Char)
  | quote (w : List Char)
  | escape (w : List Char)
  | comment
deriving DecidableEq, Repr

section

variable (isWord : Char → Bool)

/-- A character between two tokens. -/
def beginToken (c : Char) : Scan × List Token :=
  if isWord c then (.word [c], [])
  else if c = '"' then (.quote [], [])
  else if c = '\n' then (.between, [.newline])
  else if c = ' ' then (.between, [])
  else if c = '#' then (.comment, [])
  else (.between, [.symbol c])

def scanChar : Scan → Char → Scan × List Token
  | .between, c => beginToken isWord c
  | .word w, c =>
    if isWord c then (.word (w ++ [c]), [])
    else ((beginToken isWord c).1, .word w :: (beginToken isWord c).2)
  | .quote w, c =>
    if c = '"' then (.between, [.quoted w])
    else if c = '\\' then (.escape w, [])
    else (.quote (w ++ [c]), [])
  | .escape w, c => (.quote (w ++ [if c = 'n' then '\n' else c]), [])
  | .comment, c => if c = '\n' then (.between, [.newline]) else (.comment, [])

/-- Where the scanner is after a text, and the tokens it has finished. -/
def scan : Scan → List Char → Scan × List Token
  | s, [] => (s, [])
  | s, c :: text =>
    ((scan (scanChar isWord s c).1 text).1,
      (scanChar isWord s c).2 ++ (scan (scanChar isWord s c).1 text).2)

/-- The tokens of a text that does not end within a token. -/
def lex (text : List Char) : Option (List Token) :=
  match scan isWord .between text with
  | (.between, tokens) => some tokens
  | _ => none

end

variable {isWord : Char → Bool}

/-- **Composition.** -/
theorem scan_append (s : Scan) (text text' : List Char) :
    scan isWord s (text ++ text') =
      ((scan isWord (scan isWord s text).1 text').1,
        (scan isWord s text).2 ++ (scan isWord (scan isWord s text).1 text').2) := by
  induction text generalizing s with
  | nil => rfl
  | cons c text ih =>
    rw [List.cons_append, scan, ih]
    simp only [scan, List.append_assoc]

/-- A text read from one place to another, and then a text read from there. -/
theorem scan_trans {s s' s'' : Scan} {text text' : List Char} {tokens tokens' : List Token}
    (h : scan isWord s text = (s', tokens)) (h' : scan isWord s' text' = (s'', tokens')) :
    scan isWord s (text ++ text') = (s'', tokens ++ tokens') := by
  rw [scan_append, h, h']

theorem scan_word_more {w w' : List Char} (h : ∀ c ∈ w', isWord c = true) :
    scan isWord (.word w) w' = (.word (w ++ w'), []) := by
  induction w' generalizing w with
  | nil => rw [List.append_nil]; rfl
  | cons c w' ih =>
    have hc : scanChar isWord (.word w) c = (.word (w ++ [c]), []) :=
      if_pos (h c List.mem_cons_self)
    rw [scan, hc, ih fun d hd => h d (List.mem_cons_of_mem _ hd), List.append_assoc]
    rfl

/-- A word is read as far as it goes. -/
theorem scan_word {w : List Char} (hne : w ≠ []) (h : ∀ c ∈ w, isWord c = true) :
    scan isWord .between w = (.word w, []) := by
  cases w with
  | nil => exact absurd rfl hne
  | cons c w =>
    have hc : scanChar isWord .between c = (.word [c], []) := if_pos (h c List.mem_cons_self)
    rw [scan, hc, scan_word_more fun d hd => h d (List.mem_cons_of_mem _ hd)]
    rfl

/-- A character that is no part of a word ends it, and then stands as between tokens. -/
theorem scan_word_end {w : List Char} {c : Char} (hc : isWord c = false) (text : List Char) :
    scan isWord (.word w) (c :: text) =
      ((scan isWord .between (c :: text)).1, .word w :: (scan isWord .between (c :: text)).2) := by
  simp [scan, scanChar, hc]

/-- A word, and what stands behind it. -/
theorem scan_word_then {w : List Char} (hne : w ≠ []) (h : ∀ c ∈ w, isWord c = true) {c : Char}
    (hc : isWord c = false) {text : List Char} {tokens : List Token}
    (htext : scan isWord .between (c :: text) = (.between, tokens)) :
    scan isWord .between (w ++ c :: text) = (.between, .word w :: tokens) := by
  have hend : scan isWord (.word w) (c :: text) = (.between, .word w :: tokens) := by
    rw [scan_word_end hc, htext]
  exact scan_trans (scan_word hne h) hend

/-! ### Escapes -/

/-- How a character stands between quotes. -/
def escapeChar (c : Char) : List Char :=
  if c = '\\' then ['\\', '\\'] else if c = '"' then ['\\', '"'] else if c = '\n' then ['\\', 'n']
  else [c]

theorem scan_escapeChar (w : List Char) (c : Char) :
    scan isWord (.quote w) (escapeChar c) = (.quote (w ++ [c]), []) := by
  unfold escapeChar
  split
  · subst c
    rfl
  split
  · subst c
    rfl
  split
  · subst c
    rfl
  · rename_i hback hquote _
    simp [scan, scanChar, hback, hquote]

/-- An escaped text is read as it was before. -/
theorem scan_escape (w s : List Char) :
    scan isWord (.quote w) (s.flatMap escapeChar) = (.quote (w ++ s), []) := by
  induction s generalizing w with
  | nil => rw [List.append_nil]; rfl
  | cons c s ih =>
    rw [List.flatMap_cons, scan_append, scan_escapeChar, ih, List.append_assoc]
    rfl

/-- A text in quotes is read as it was before it was escaped. -/
theorem scan_quoted (hquote : isWord '"' = false) (s : List Char) :
    scan isWord .between ('"' :: s.flatMap escapeChar ++ ['"']) = (.between, [.quoted s]) := by
  have hopen : scan isWord .between ['"'] = (.quote [], []) := by
    simp [scan, scanChar, beginToken, hquote]
  exact scan_trans (scan_trans hopen (scan_escape [] s)) rfl

/-- What needs no escape is not changed by it. -/
theorem flatMap_escapeChar {s : List Char} (h : ∀ c ∈ s, c ≠ '\\' ∧ c ≠ '"' ∧ c ≠ '\n') :
    s.flatMap escapeChar = s := by
  induction s with
  | nil => rfl
  | cons c s ih =>
    obtain ⟨hback, hquote, hline⟩ := h c List.mem_cons_self
    rw [List.flatMap_cons, ih fun d hd => h d (List.mem_cons_of_mem _ hd), escapeChar, if_neg hback,
      if_neg hquote, if_neg hline]
    rfl

/-- Nothing is read of a comment. -/
theorem scan_comment (hhash : isWord '#' = false) {text : List Char} (h : '\n' ∉ text) :
    scan isWord .between ('#' :: text ++ ['\n']) = (.between, [.newline]) := by
  have hopen : scan isWord .between ['#'] = (.comment, []) := by
    simp [scan, scanChar, beginToken, hhash]
  have hmore : scan isWord .comment text = (.comment, []) := by
    clear hopen
    induction text with
    | nil => rfl
    | cons c text ih =>
      have hne : c ≠ '\n' := fun he => h (he ▸ List.mem_cons_self)
      have hc : scanChar isWord .comment c = (.comment, []) := if_neg hne
      rw [scan, hc, ih fun hmem => h (List.mem_cons_of_mem _ hmem)]
      rfl
  exact scan_trans (scan_trans hopen hmore) rfl

/-! ### Lines -/

/-- The lines of a text, each of which is ended. -/
def lines (line : List Token) : List Token → Option (List (List Token))
  | [] => if line = [] then some [] else none
  | .newline :: tokens => (lines [] tokens).map (line :: ·)
  | token :: tokens => lines (line ++ [token]) tokens

theorem lines_newline {line line' : List Token} (h : .newline ∉ line') (tokens : List Token) :
    lines line (line' ++ .newline :: tokens) = (lines [] tokens).map ((line ++ line') :: ·) := by
  induction line' generalizing line with
  | nil => rw [List.append_nil, List.nil_append, lines]
  | cons token line' ih =>
    have hne : token ≠ .newline := fun he => h (he ▸ List.mem_cons_self)
    have hmore : .newline ∉ line' := fun hmem => h (List.mem_cons_of_mem _ hmem)
    have hrest : lines (line ++ [token]) (line' ++ .newline :: tokens) =
        (lines [] tokens).map ((line ++ [token] ++ line') :: ·) := ih hmore
    rw [List.append_assoc, List.singleton_append] at hrest
    cases token with
    | newline => exact absurd rfl hne
    | word w => exact hrest
    | quoted w => exact hrest
    | symbol c => exact hrest

/-- What is read of a text, line by line. -/
def readLines {α : Type*} (isWord : Char → Bool) (read : List Token → Option α) (text : List Char) :
    Option (List α) :=
  (lex isWord text).bind fun tokens => (lines [] tokens).bind fun ls => ls.mapM read

/-- **Line by line.** A text made of the lines of some values is read as these values. -/
theorem readLines_flatMap {α β : Type*} {read : List Token → Option α} {text : β → List Char}
    {tokens : β → List Token} {value : β → α} {bs : List β}
    (htext : ∀ b ∈ bs, scan isWord .between (text b) = (.between, tokens b ++ [.newline]))
    (hline : ∀ b ∈ bs, .newline ∉ tokens b) (hread : ∀ b ∈ bs, read (tokens b) = some (value b)) :
    readLines isWord read (bs.flatMap text) = some (bs.map value) := by
  have hscan : scan isWord .between (bs.flatMap text) =
      (.between, bs.flatMap fun b => tokens b ++ [.newline]) := by
    clear hline hread
    induction bs with
    | nil => rfl
    | cons b bs ih =>
      exact scan_trans (htext b List.mem_cons_self)
        (ih fun c hc => htext c (List.mem_cons_of_mem _ hc))
  have hlines : lines [] (bs.flatMap fun b => tokens b ++ [.newline]) = some (bs.map tokens) := by
    clear htext hread hscan
    induction bs with
    | nil => rfl
    | cons b bs ih =>
      rw [List.flatMap_cons, List.append_assoc, List.singleton_append,
        lines_newline (hline b List.mem_cons_self),
        ih fun c hc => hline c (List.mem_cons_of_mem _ hc)]
      rfl
  have hvalues : (bs.map tokens).mapM read = some (bs.map value) := by
    clear htext hline hscan hlines
    induction bs with
    | nil => rfl
    | cons b bs ih =>
      rw [List.map_cons, List.mapM_cons, hread b List.mem_cons_self,
        ih fun c hc => hread c (List.mem_cons_of_mem _ hc)]
      rfl
  rw [readLines, lex, hscan]
  dsimp only [Option.bind_some]
  rw [hlines, Option.bind_some, hvalues]

end Lib
