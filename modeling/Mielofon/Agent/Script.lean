import Mathlib
import Mielofon.Agent.Marker
import Mielofon.Lib.Lexer

namespace Mielofon

open Lib

/-!
# The text of a boundary script

The transaction of a block boundary goes to `nft` as a text (`nft.rs`).  Interface names are quoted
into element lists; a name that does not fit the grammar never reaches the text.

* `quoted`, `scriptText` — the text;
* `Statement`, `readScript` — a reader of such texts;
* `statement` — a command of `assertScript` as a statement about a table;
* `script_read` — the text is read as these commands.
-/

/-! ### Writing -/

/-- What an interface name is made of. -/
def nameChar (c : Char) : Bool := c.isAlphanum || c == '_' || c == '-' || c == '.'

/-- Quote an interface name for an element list. -/
def quoted (iface : String) : Option (List Char) :=
  if quotable iface then some ('"' :: iface.toList ++ ['"']) else none

/-- A line that adds elements to a set or a map. -/
def addElementLine (table set : List Char) (elems : List (List Char)) : List Char :=
  "add element ".toList ++ table ++ ' ' :: set ++ [' ', '{', ' '] ++
    ", ".toList.intercalate elems ++ [' ', '}', '\n']

def flushMapLine (table map : List Char) : List Char :=
  "flush map ".toList ++ table ++ ' ' :: map ++ ['\n']

def COLOUR_MAP : List Char := "mf_colour".toList

/-- The per-block assertion transaction, as a text. -/
def scriptText (table : List Char) (ifaces : List String) (colour : Colour) : List Char :=
  let names := ifaces.filterMap quoted
  let chain := "mielofon_".toList ++ colour.letter.toList
  (if names = [] then []
   else CounterSet.all.flatMap fun set => addElementLine table set.name.toList names) ++
  flushMapLine table COLOUR_MAP ++
  (if names = [] then []
   else addElementLine table COLOUR_MAP (names.map fun n => n ++ " : jump ".toList ++ chain))

/-! ### Reading -/

/-- A statement of a script; the elements of a map come with the chain they jump to. -/
inductive Statement where
  | addElement (family table set : List Char) (elems : List (List Char × Option (List Char)))
  | flushMap (family table map : List Char)
deriving DecidableEq, Repr

/-- The elements up to the closing brace. -/
def readElems : List Token → Option (List (List Char × Option (List Char)))
  | [.quoted n, .symbol '}'] => some [(n, none)]
  | .quoted n :: .symbol ',' :: rest => (readElems rest).map ((n, none) :: ·)
  | [.quoted n, .symbol ':', .word j, .word chain, .symbol '}'] =>
    if j = "jump".toList then some [(n, some chain)] else none
  | .quoted n :: .symbol ':' :: .word j :: .word chain :: .symbol ',' :: rest =>
    if j = "jump".toList then (readElems rest).map ((n, some chain) :: ·) else none
  | _ => none

def readStatement : List Token → Option Statement
  | .word a :: .word e :: .word family :: .word table :: .word set :: .symbol '{' :: rest =>
    if a = "add".toList ∧ e = "element".toList then
      (readElems rest).map (.addElement family table set)
    else none
  | [.word a, .word m, .word family, .word table, .word map] =>
    if a = "flush".toList ∧ m = "map".toList then some (.flushMap family table map) else none
  | _ => none

def readScript (text : List Char) : Option (List Statement) := readLines nameChar readStatement text

/-! ### Commands as statements -/

def colourChain (colour : Colour) : List Char := "mielofon_".toList ++ colour.letter.toList

/-- A command as a statement about a table. -/
def statement (family table : List Char) : NftCommand → Statement
  | .addElement set names =>
    .addElement family table set.name.toList (names.map fun n => (n.toList, none))
  | .flushMap => .flushMap family table COLOUR_MAP
  | .addColour names colour =>
    .addElement family table COLOUR_MAP
      (names.map fun n => (n.toList, some (colourChain colour)))

/-! ### Names -/

theorem nameChar_of_quotable {n : String} (h : quotable n = true) :
    ∀ c ∈ n.toList, nameChar c = true := by
  simp only [quotable, Bool.and_eq_true, List.all_eq_true] at h
  exact h.2

/-- A name goes into quotes as it is. -/
theorem scan_name {n : List Char} (h : ∀ c ∈ n, nameChar c = true) :
    scan nameChar .between ('"' :: n ++ ['"']) = (.between, [.quoted n]) := by
  have hplain : ∀ c ∈ n, c ≠ '\\' ∧ c ≠ '"' ∧ c ≠ '\n' := by
    intro c hc
    refine ⟨?_, ?_, ?_⟩ <;> rintro rfl <;> exact absurd (h _ hc) (by decide)
  have hscan : scan nameChar .between ('"' :: n.flatMap escapeChar ++ ['"']) =
      (.between, [.quoted n]) := scan_quoted rfl n
  rwa [flatMap_escapeChar hplain] at hscan

theorem filterMap_quoted (ifaces : List String) :
    ifaces.filterMap quoted = (ifaces.filter quotable).map fun n => '"' :: n.toList ++ ['"'] := by
  induction ifaces with
  | nil => rfl
  | cons n ifaces ih =>
    by_cases h : quotable n = true
    · simp [quoted, h, ih]
    · simp [quoted, h, ih]

/-! ### Elements -/

abbrev Elem := List Char × Option (List Char)

/-- One element as it is written. -/
def elemText (e : Elem) : List Char :=
  ('"' :: e.1 ++ ['"']) ++ (match e.2 with
    | none => []
    | some chain => " : jump ".toList ++ chain)

/-- The elements as they are written, up to the end of the line. -/
def elemsText (elems : List Elem) : List Char :=
  ", ".toList.intercalate (elems.map elemText) ++ [' ', '}', '\n']

def elemTokens (e : Elem) : List Token :=
  .quoted e.1 :: (match e.2 with
    | none => []
    | some chain => [.symbol ':', .word "jump".toList, .word chain])

def elemsTokens : List Elem → List Token
  | [] => [.symbol '}']
  | [e] => elemTokens e ++ [.symbol '}']
  | e :: e' :: elems => elemTokens e ++ .symbol ',' :: elemsTokens (e' :: elems)

/-- A name, and a chain if there is one, that the grammar has. -/
structure ElemFits (e : Elem) : Prop where
  name : ∀ c ∈ e.1, nameChar c = true
  chain : ∀ w ∈ e.2, w ≠ [] ∧ ∀ c ∈ w, nameChar c = true

theorem scan_elem {e : Elem} (h : ElemFits e) {c : Char} (hc : nameChar c = false)
    {text : List Char} {tokens : List Token}
    (htext : scan nameChar .between (c :: text) = (.between, tokens)) :
    scan nameChar .between (elemText e ++ c :: text) = (.between, elemTokens e ++ tokens) := by
  obtain ⟨n, none | chain⟩ := e
  · have hn := scan_trans (scan_name h.name) htext
    simpa [elemText, elemTokens] using hn
  · obtain ⟨hne, hchars⟩ := h.chain chain rfl
    have hjump : scan nameChar .between " : jump ".toList =
        (.between, [.symbol ':', .word "jump".toList]) := by
      simp
      rfl
    have hrest := scan_trans hjump (scan_word_then hne hchars hc htext)
    have hn := scan_trans (scan_name h.name) hrest
    simpa [elemText, elemTokens, List.append_assoc] using hn

theorem scan_elems {elems : List Elem} (hne : elems ≠ []) (h : ∀ e ∈ elems, ElemFits e) :
    scan nameChar .between (elemsText elems) = (.between, elemsTokens elems ++ [.newline]) := by
  induction elems with
  | nil => exact absurd rfl hne
  | cons e elems ih =>
    have he := h e List.mem_cons_self
    cases elems with
    | nil =>
      have hclose : scan nameChar .between [' ', '}', '\n'] = (.between, [.symbol '}', .newline]) :=
        rfl
      have hlast := scan_elem he rfl hclose
      simpa [elemsText, elemsTokens, List.intercalate] using hlast
    | cons e' elems =>
      have hrest := ih (List.cons_ne_nil _ _) fun d hd => h d (List.mem_cons_of_mem _ hd)
      have hcomma : scan nameChar .between [',', ' '] = (.between, [.symbol ',']) := rfl
      have hmore := scan_elem he rfl (scan_trans hcomma hrest)
      simpa [elemsText, elemsTokens, List.intercalate] using hmore

theorem readElems_elemsTokens {elems : List Elem} (hne : elems ≠ []) :
    readElems (elemsTokens elems) = some elems := by
  induction elems with
  | nil => exact absurd rfl hne
  | cons e elems ih =>
    cases elems with
    | nil =>
      obtain ⟨n, none | chain⟩ := e
      · rfl
      · exact if_pos rfl
    | cons e' elems =>
      have hrest := ih (List.cons_ne_nil _ _)
      obtain ⟨n, none | chain⟩ := e
      · simp [elemsTokens, elemTokens, readElems, hrest]
      · simp [elemsTokens, elemTokens, readElems, hrest]

theorem newline_notMem_elemsTokens (elems : List Elem) : .newline ∉ elemsTokens elems := by
  induction elems with
  | nil => simp [elemsTokens]
  | cons e elems ih =>
    cases elems with
    | nil => obtain ⟨n, none | chain⟩ := e <;> simp [elemsTokens, elemTokens]
    | cons e' elems => obtain ⟨n, none | chain⟩ := e <;> simp [elemsTokens, elemTokens, ih]

/-! ### Statements -/

/-- One statement as it is written. -/
def statementText : Statement → List Char
  | .addElement family table set elems =>
    addElementLine (family ++ ' ' :: table) set (elems.map elemText)
  | .flushMap family table map => flushMapLine (family ++ ' ' :: table) map

def statementTokens : Statement → List Token
  | .addElement family table set elems =>
    .word "add".toList :: .word "element".toList :: .word family :: .word table :: .word set ::
      .symbol '{' :: elemsTokens elems
  | .flushMap family table map =>
    [.word "flush".toList, .word "map".toList, .word family, .word table, .word map]

/-- A word of the grammar. -/
def IsName (w : List Char) : Prop := w ≠ [] ∧ ∀ c ∈ w, nameChar c = true

def StatementFits : Statement → Prop
  | .addElement family table set elems =>
    IsName family ∧ IsName table ∧ IsName set ∧ elems ≠ [] ∧ ∀ e ∈ elems, ElemFits e
  | .flushMap family table map => IsName family ∧ IsName table ∧ IsName map

theorem addElementLine_eq (family table set : List Char) (elems : List Elem) :
    addElementLine (family ++ ' ' :: table) set (elems.map elemText) =
      "add element ".toList ++
        (family ++ ' ' :: (table ++ ' ' :: (set ++ ' ' :: (['{', ' '] ++ elemsText elems)))) := by
  unfold addElementLine elemsText
  generalize "add element ".toList = line
  simp

theorem flushMapLine_eq (family table map : List Char) :
    flushMapLine (family ++ ' ' :: table) map =
      "flush map ".toList ++ (family ++ ' ' :: (table ++ ' ' :: (map ++ ['\n']))) := by
  unfold flushMapLine
  generalize "flush map ".toList = line
  simp

theorem scan_name_space {w text : List Char} {tokens : List Token} (hw : IsName w)
    (htext : scan nameChar .between text = (.between, tokens)) :
    scan nameChar .between (w ++ ' ' :: text) = (.between, .word w :: tokens) := by
  have hspace : scan nameChar .between [' '] = (.between, []) := rfl
  have hrest : scan nameChar .between (' ' :: text) = (.between, tokens) := scan_trans hspace htext
  exact scan_word_then hw.1 hw.2 rfl hrest

theorem scan_statement {st : Statement} (h : StatementFits st) :
    scan nameChar .between (statementText st) =
      (.between, statementTokens st ++ [.newline]) := by
  cases st with
  | addElement family table set elems =>
    obtain ⟨hfamily, htable, hset, hne, helems⟩ := h
    have hadd : scan nameChar .between "add element ".toList =
        (.between, [.word "add".toList, .word "element".toList]) := by
      simp
      rfl
    have hbrace : scan nameChar .between ['{', ' '] = (.between, [.symbol '{']) := rfl
    have helems' := scan_trans hbrace (scan_elems hne helems)
    have hwords := scan_name_space hfamily (scan_name_space htable (scan_name_space hset helems'))
    have hline := scan_trans hadd hwords
    rw [statementText, addElementLine_eq, hline]
    rfl
  | flushMap family table map =>
    obtain ⟨hfamily, htable, hmap⟩ := h
    have hflush : scan nameChar .between "flush map ".toList =
        (.between, [.word "flush".toList, .word "map".toList]) := by
      simp
      rfl
    have hend : scan nameChar .between ['\n'] = (.between, [.newline]) := rfl
    have hmap' := scan_word_then hmap.1 hmap.2 rfl hend
    have hline := scan_trans hflush (scan_name_space hfamily (scan_name_space htable hmap'))
    rw [statementText, flushMapLine_eq, hline]
    rfl

theorem readStatement_statementTokens {st : Statement} (h : StatementFits st) :
    readStatement (statementTokens st) = some st := by
  cases st with
  | addElement family table set elems =>
    obtain ⟨-, -, -, hne, -⟩ := h
    simp [statementTokens, readStatement, readElems_elemsTokens hne]
  | flushMap family table map => simp [statementTokens, readStatement]

theorem newline_notMem_statementTokens (st : Statement) : .newline ∉ statementTokens st := by
  cases st with
  | addElement family table set elems =>
    simp [statementTokens, newline_notMem_elemsTokens]
  | flushMap family table map => simp [statementTokens]

/-! ### Scripts -/

def inQuotes (n : String) : List Char := '"' :: n.toList ++ ['"']

theorem addElement_text (family table : List Char) (set : CounterSet) (names : List String) :
    statementText (statement family table (.addElement set names)) =
      addElementLine (family ++ ' ' :: table) set.name.toList (names.map inQuotes) := by
  have helems : (names.map fun n => ((n.toList, none) : Elem)).map elemText =
      names.map inQuotes := by
    rw [List.map_map]
    exact List.map_congr_left fun n _ => List.append_nil _
  rw [statement, statementText, helems]

theorem addColour_text (family table : List Char) (names : List String) (colour : Colour) :
    statementText (statement family table (.addColour names colour)) =
      addElementLine (family ++ ' ' :: table) COLOUR_MAP
        ((names.map inQuotes).map fun n => n ++ " : jump ".toList ++ colourChain colour) := by
  have helems : (names.map fun n => ((n.toList, some (colourChain colour)) : Elem)).map elemText =
      (names.map inQuotes).map fun n => n ++ " : jump ".toList ++ colourChain colour := by
    rw [List.map_map, List.map_map]
    exact List.map_congr_left fun n _ => (List.append_assoc _ _ _).symm
  rw [statement, statementText, helems]

/-- The text is that of the commands, one after the other. -/
theorem scriptText_eq (family table : List Char) (ifaces : List String) (colour : Colour) :
    scriptText (family ++ ' ' :: table) ifaces colour =
      (assertScript ifaces colour).flatMap fun c => statementText (statement family table c) := by
  have hflush : statementText (statement family table .flushMap) =
      flushMapLine (family ++ ' ' :: table) COLOUR_MAP := rfl
  have hnames : ifaces.filterMap quoted = (ifaces.filter quotable).map inQuotes :=
    filterMap_quoted ifaces
  rw [scriptText, assertScript, hnames]
  by_cases hnil : ifaces.filter quotable = []
  · simp only [hnil, List.map_nil, if_true, List.nil_append, List.append_nil,
      List.flatMap_singleton, hflush]
  · have hsome : (ifaces.filter quotable).map inQuotes ≠ [] := by
      simpa using hnil
    simp only [if_neg hnil, if_neg hsome, List.flatMap_append, List.flatMap_map,
      List.flatMap_singleton, addElement_text, addColour_text, hflush]
    rfl

theorem isName_append {w w' : List Char} (h : IsName w) (h' : IsName w') : IsName (w ++ w') := by
  refine ⟨fun he => h.1 (List.append_eq_nil_iff.1 he).1, fun c hc => ?_⟩
  rcases List.mem_append.1 hc with hc | hc
  · exact h.2 c hc
  · exact h'.2 c hc

theorem isName_letter (colour : Colour) : IsName colour.letter.toList := by
  cases colour <;> simp [IsName, Colour.letter, nameChar]

theorem isName_set (set : CounterSet) : IsName set.name.toList := by
  obtain ⟨direction, colour, band⟩ := set
  cases direction <;> cases colour <;> cases band <;>
    simp [IsName, CounterSet.name, Direction.name, Band.name, Colour.letter, nameChar]

theorem isName_map : IsName COLOUR_MAP := by
  unfold COLOUR_MAP
  simp [IsName, nameChar]

theorem assertScript_fits {family table : List Char} (hfamily : IsName family)
    (htable : IsName table) (ifaces : List String) (colour : Colour) :
    ∀ c ∈ assertScript ifaces colour, StatementFits (statement family table c) := by
  have hmap : IsName COLOUR_MAP := isName_map
  have hchain : IsName (colourChain colour) := by
    have hhead : IsName "mielofon_".toList := by simp [IsName, nameChar]
    unfold colourChain
    exact isName_append hhead (isName_letter colour)
  have hname : ∀ n ∈ ifaces.filter quotable, ∀ c ∈ n.toList, nameChar c = true :=
    fun n hn => nameChar_of_quotable (List.mem_filter.1 hn).2
  intro c hc
  unfold assertScript at hc
  by_cases hnil : ifaces.filter quotable = []
  · simp only [hnil, if_true, List.nil_append, List.append_nil, List.mem_singleton] at hc
    subst c
    exact ⟨hfamily, htable, hmap⟩
  · simp only [if_neg hnil, List.mem_append, List.mem_map, List.mem_singleton] at hc
    rcases hc with (⟨set, -, rfl⟩ | rfl) | rfl
    · refine ⟨hfamily, htable, isName_set set, by simpa using hnil, fun e he => ?_⟩
      obtain ⟨n, hn, rfl⟩ := List.mem_map.1 he
      exact ⟨hname n hn, fun w hw => absurd hw (by simp)⟩
    · exact ⟨hfamily, htable, hmap⟩
    · refine ⟨hfamily, htable, hmap, by simpa using hnil, fun e he => ?_⟩
      obtain ⟨n, hn, rfl⟩ := List.mem_map.1 he
      refine ⟨hname n hn, fun w hw => ?_⟩
      obtain rfl : colourChain colour = w := Option.some.inj hw
      exact hchain

/-- **Scripts.** Whatever the interfaces are called, the text of a boundary is read as the commands
    of the boundary: no name adds a statement, or changes one that is not its own. -/
theorem script_read (family table : List Char) (hfamily : IsName family) (htable : IsName table)
    (ifaces : List String) (colour : Colour) :
    readScript (scriptText (family ++ ' ' :: table) ifaces colour) =
      some ((assertScript ifaces colour).map (statement family table)) := by
  have hfits := assertScript_fits hfamily htable ifaces colour
  rw [scriptText_eq]
  exact readLines_flatMap (fun c hc => scan_statement (hfits c hc))
    (fun c _ => newline_notMem_statementTokens _)
    (fun c hc => readStatement_statementTokens (hfits c hc))

theorem script_read_fw4 :
    readScript (scriptText ("inet".toList ++ ' ' :: "fw4".toList) ["wg0", "wg 1"] .a) =
      some ((assertScript ["wg0", "wg 1"] .a).map (statement "inet".toList "fw4".toList)) :=
  script_read "inet".toList "fw4".toList (by simp [IsName, nameChar]) (by simp [IsName, nameChar])
    ["wg0", "wg 1"] .a

end Mielofon
