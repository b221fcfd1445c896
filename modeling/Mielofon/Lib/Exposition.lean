import Mathlib.Data.List.Nodup
import Mielofon.Lib.Lexer

namespace Lib

/-!
# Samples in a text

The exposition format of measured values: one sample a line, with the name of its series, labels in
braces, and a value; comments declare what a series is.  A page is a list of families, each with the
comments and the samples of one name.

* `Sample`, `lineText` — a sample and its line;
* `Family`, `pageText` — a page;
* `readPage` — its reader; `readPage_pageText` — what it reads of a page;
* `series` — the value of a series; `series_of_family`, `nodup_samples` — a series belongs to one
  family, and has one value;
* `tableRows`, `find_tableRows` — the rows of a table, and the row of a key;
* `replaceChar_escape` — escapes put in one after the other.
-/

/-- What a name or a number is made of. -/
def sampleChar (c : Char) : Bool :=
  c.isAlphanum || c == '_' || c == ':' || c == '.' || c == '-' || c == '+'

abbrev Label := List Char × List Char

structure Sample where
  name : List Char
  labels : List Label
  value : List Char
deriving DecidableEq, Repr

/-! ### Writing -/

/-- A label, with a value that has been escaped. -/
def labelText (l : Label) : List Char := l.1 ++ '=' :: '"' :: l.2 ++ ['"']

def labelsText (labels : List Label) : List Char := [','].intercalate (labels.map labelText)

/-- The line of a sample, with values that have been escaped. -/
def lineText (name : List Char) (labels : List Label) (value : List Char) : List Char :=
  name ++ (if labels = [] then [] else '{' :: labelsText labels ++ ['}']) ++ ' ' :: value ++ ['\n']

def escapeLabel (l : Label) : Label := (l.1, l.2.flatMap escapeChar)

def Sample.text (s : Sample) : List Char := lineText s.name (s.labels.map escapeLabel) s.value

/-- The samples of one name, under the comments that declare it. -/
structure Family where
  comments : List (List Char)
  name : List Char
  rows : List (List Label × List Char)

def Family.samples (f : Family) : List Sample := f.rows.map fun r => ⟨f.name, r.1, r.2⟩

def commentText (text : List Char) : List Char := '#' :: text ++ ['\n']

def Family.text (f : Family) : List Char :=
  f.comments.flatMap commentText ++ f.samples.flatMap Sample.text

def pageText (fs : List Family) : List Char := fs.flatMap Family.text

/-! ### Reading -/

/-- The labels up to the closing brace, and the value behind it. -/
def readLabels : List Token → Option (List Label × List Char)
  | [.word k, .symbol '=', .quoted v, .symbol '}', .word value] => some ([(k, v)], value)
  | .word k :: .symbol '=' :: .quoted v :: .symbol ',' :: rest =>
    (readLabels rest).map fun r => ((k, v) :: r.1, r.2)
  | _ => none

/-- A line: nothing is read of a comment. -/
def readSample : List Token → Option (Option Sample)
  | [] => some none
  | [.word name, .word value] => some (some ⟨name, [], value⟩)
  | .word name :: .symbol '{' :: rest =>
    (readLabels rest).map fun r => some ⟨name, r.1, r.2⟩
  | _ => none

def readPage (text : List Char) : Option (List Sample) :=
  (readLines sampleChar readSample text).map (List.filterMap id)

/-- The value of a series. -/
def series (samples : List Sample) (name : List Char) (labels : List Label) : Option (List Char) :=
  (samples.find? fun s => decide (s.name = name ∧ s.labels = labels)).map Sample.value

/-! ### Lines -/

/-- A name or a number. -/
def IsWord (w : List Char) : Prop := w ≠ [] ∧ ∀ c ∈ w, sampleChar c = true

/-- A sample that can be written; what the values of its labels are does not matter. -/
structure Sample.Fits (s : Sample) : Prop where
  name : IsWord s.name
  labels : ∀ l ∈ s.labels, IsWord l.1
  value : IsWord s.value

def labelsTokens : List Label → List Token
  | [] => []
  | [l] => [.word l.1, .symbol '=', .quoted l.2]
  | l :: l' :: labels =>
    .word l.1 :: .symbol '=' :: .quoted l.2 :: .symbol ',' :: labelsTokens (l' :: labels)

def sampleTokens (s : Sample) : List Token :=
  .word s.name ::
    ((if s.labels = [] then [] else .symbol '{' :: labelsTokens s.labels ++ [.symbol '}']) ++
      [.word s.value])

theorem scan_label {l : Label} (h : IsWord l.1) :
    scan sampleChar .between (labelText (escapeLabel l)) =
      (.between, [.word l.1, .symbol '=', .quoted l.2]) := by
  have hequals : scan sampleChar .between ['='] = (.between, [.symbol '=']) := rfl
  have hvalue := scan_trans hequals (scan_quoted rfl l.2)
  have hlabel := scan_word_then h.1 h.2 rfl hvalue
  simpa [labelText, escapeLabel] using hlabel

theorem scan_labels {labels : List Label} (hne : labels ≠ []) (h : ∀ l ∈ labels, IsWord l.1) :
    scan sampleChar .between (labelsText (labels.map escapeLabel)) =
      (.between, labelsTokens labels) := by
  induction labels with
  | nil => exact absurd rfl hne
  | cons l labels ih =>
    have hl := scan_label (h l List.mem_cons_self)
    cases labels with
    | nil => simpa [labelsText, labelsTokens, List.intercalate] using hl
    | cons l' labels =>
      have hrest := ih (List.cons_ne_nil _ _) fun d hd => h d (List.mem_cons_of_mem _ hd)
      have hcomma : scan sampleChar .between [','] = (.between, [.symbol ',']) := rfl
      have hmore := scan_trans hl (scan_trans hcomma hrest)
      simpa [labelsText, labelsTokens, List.intercalate] using hmore

theorem scan_sample {s : Sample} (h : s.Fits) :
    scan sampleChar .between s.text = (.between, sampleTokens s ++ [.newline]) := by
  have hspace : scan sampleChar .between [' '] = (.between, []) := rfl
  have hend : scan sampleChar .between ['\n'] = (.between, [.newline]) := rfl
  have hvalue := scan_trans hspace (scan_word_then h.value.1 h.value.2 rfl hend)
  by_cases hnil : s.labels = []
  · have hline := scan_word_then h.name.1 h.name.2 rfl hvalue
    simpa [Sample.text, lineText, sampleTokens, hnil] using hline
  · have hopen : scan sampleChar .between ['{'] = (.between, [.symbol '{']) := rfl
    have hclose : scan sampleChar .between ['}'] = (.between, [.symbol '}']) := rfl
    have hlabels := scan_trans hopen
      (scan_trans (scan_labels hnil h.labels) (scan_trans hclose hvalue))
    have hline := scan_word_then h.name.1 h.name.2 rfl hlabels
    simpa [Sample.text, lineText, sampleTokens, hnil] using hline

theorem readLabels_labelsTokens {labels : List Label} (hne : labels ≠ []) (value : List Char) :
    readLabels (labelsTokens labels ++ [.symbol '}', .word value]) = some (labels, value) := by
  induction labels with
  | nil => exact absurd rfl hne
  | cons l labels ih =>
    cases labels with
    | nil => rfl
    | cons l' labels =>
      have hrest := ih (List.cons_ne_nil _ _)
      rw [labelsTokens]
      exact congrArg (Option.map _) hrest

theorem readSample_sampleTokens (s : Sample) : readSample (sampleTokens s) = some (some s) := by
  obtain ⟨name, labels, value⟩ := s
  by_cases hnil : labels = []
  · subst labels
    rfl
  · have hlabels := readLabels_labelsTokens hnil value
    simp only [sampleTokens, if_neg hnil, List.cons_append, List.append_assoc, List.nil_append]
    exact congrArg (Option.map _) hlabels

theorem newline_notMem_labelsTokens (labels : List Label) : .newline ∉ labelsTokens labels := by
  induction labels with
  | nil => simp [labelsTokens]
  | cons l labels ih =>
    cases labels with
    | nil => simp [labelsTokens]
    | cons l' labels => simp [labelsTokens, ih]

theorem newline_notMem_sampleTokens (s : Sample) : .newline ∉ sampleTokens s := by
  unfold sampleTokens
  split
  · simp
  · simp [newline_notMem_labelsTokens]

/-! ### Pages -/

structure Family.Fits (f : Family) : Prop where
  comments : ∀ c ∈ f.comments, '\n' ∉ c
  name : IsWord f.name
  labels : ∀ r ∈ f.rows, ∀ l ∈ r.1, IsWord l.1
  values : ∀ r ∈ f.rows, IsWord r.2

/-- A line of a page. -/
inductive Line where
  | comment (text : List Char)
  | sample (s : Sample)

def Line.text : Line → List Char
  | .comment text => commentText text
  | .sample s => s.text

def Line.tokens : Line → List Token
  | .comment _ => []
  | .sample s => sampleTokens s

def Line.read : Line → Option Sample
  | .comment _ => none
  | .sample s => some s

def Family.lines (f : Family) : List Line := f.comments.map .comment ++ f.samples.map .sample

theorem Family.text_lines (f : Family) : f.text = f.lines.flatMap Line.text := by
  unfold Family.text Family.lines
  rw [List.flatMap_append, List.flatMap_map, List.flatMap_map]
  rfl

theorem Family.read_lines (f : Family) : f.lines.filterMap Line.read = f.samples := by
  have hcomments : (f.comments.map Line.comment).filterMap Line.read = [] := by
    simp [List.filterMap_map, Function.comp_def, Line.read]
  have hsamples : (f.samples.map Line.sample).filterMap Line.read = f.samples := by
    simp [List.filterMap_map, Function.comp_def, Line.read]
  rw [Family.lines, List.filterMap_append, hcomments, hsamples, List.nil_append]

theorem Family.Fits.sample {f : Family} (h : f.Fits) {s : Sample} (hs : s ∈ f.samples) :
    s.Fits := by
  obtain ⟨r, hr, rfl⟩ := List.mem_map.1 hs
  exact ⟨h.name, h.labels r hr, h.values r hr⟩

/-- **Round trip.** A page is read as its samples, whatever the values of their labels. -/
theorem readPage_pageText {fs : List Family} (h : ∀ f ∈ fs, f.Fits) :
    readPage (pageText fs) = some (fs.flatMap Family.samples) := by
  have hlines : ∀ line ∈ fs.flatMap Family.lines,
      scan sampleChar .between line.text = (.between, line.tokens ++ [.newline]) ∧
        .newline ∉ line.tokens ∧ readSample line.tokens = some line.read := by
    intro line hline
    obtain ⟨f, hf, hmem⟩ := List.mem_flatMap.1 hline
    rcases List.mem_append.1 hmem with hmem | hmem
    · obtain ⟨c, hc, rfl⟩ := List.mem_map.1 hmem
      exact ⟨scan_comment rfl ((h f hf).comments c hc), List.not_mem_nil, rfl⟩
    · obtain ⟨s, hs, rfl⟩ := List.mem_map.1 hmem
      exact ⟨scan_sample ((h f hf).sample hs), newline_notMem_sampleTokens s,
        readSample_sampleTokens s⟩
  have htext : pageText fs = (fs.flatMap Family.lines).flatMap Line.text := by
    rw [pageText, List.flatMap_assoc]
    exact List.flatMap_congr fun f _ => f.text_lines
  have hread : readLines sampleChar readSample (pageText fs) =
      some ((fs.flatMap Family.lines).map Line.read) := by
    rw [htext]
    exact readLines_flatMap (fun line hl => (hlines line hl).1)
      (fun line hl => (hlines line hl).2.1) (fun line hl => (hlines line hl).2.2)
  rw [readPage, hread, Option.map_some, List.filterMap_map, List.filterMap_flatMap]
  exact congrArg some (List.flatMap_congr fun f _ => f.read_lines)

/-! ### Series -/

theorem series_append (samples samples' : List Sample) (name : List Char) (labels : List Label) :
    series (samples ++ samples') name labels =
      (series samples name labels).or (series samples' name labels) := by
  rw [series, List.find?_append, Option.map_or]
  rfl

theorem Family.series_samples (f : Family) (labels : List Label) :
    series f.samples f.name labels =
      (f.rows.find? fun r => decide (r.1 = labels)).map Prod.snd := by
  have hfind : (fun s : Sample => decide (s.name = f.name ∧ s.labels = labels)) ∘
      (fun r : List Label × List Char => (⟨f.name, r.1, r.2⟩ : Sample)) =
        fun r => decide (r.1 = labels) := by
    funext r
    simp
  rw [series, Family.samples, List.find?_map, Option.map_map, hfind]
  rfl

theorem series_of_name_ne {samples : List Sample} {name : List Char}
    (h : ∀ s ∈ samples, s.name ≠ name) (labels : List Label) :
    series samples name labels = none := by
  rw [series, List.find?_eq_none.2 fun s hs => by simp [h s hs]]
  rfl

theorem Family.name_of_mem {f : Family} {s : Sample} (h : s ∈ f.samples) : s.name = f.name := by
  obtain ⟨r, -, rfl⟩ := List.mem_map.1 h
  rfl

/-- A series is in the family of its name. -/
theorem series_of_family {fs : List Family} (hnames : (fs.map Family.name).Nodup) {f : Family}
    (hf : f ∈ fs) (labels : List Label) :
    series (fs.flatMap Family.samples) f.name labels =
      (f.rows.find? fun r => decide (r.1 = labels)).map Prod.snd := by
  induction fs with
  | nil => exact absurd hf List.not_mem_nil
  | cons g fs ih =>
    obtain ⟨hg, hrest⟩ := List.nodup_cons.1 hnames
    rw [List.flatMap_cons, series_append]
    rcases List.mem_cons.1 hf with rfl | hf
    · have hnone : series (fs.flatMap Family.samples) f.name labels = none := by
        refine series_of_name_ne (fun s hs he => hg ?_) labels
        obtain ⟨g, hg, hmem⟩ := List.mem_flatMap.1 hs
        rw [← he, Family.name_of_mem hmem]
        exact List.mem_map_of_mem hg
      rw [hnone, Option.or_none, f.series_samples]
    · have hnone : series g.samples f.name labels = none := by
        refine series_of_name_ne (fun s hs he => hg ?_) labels
        rw [← Family.name_of_mem hs, he]
        exact List.mem_map_of_mem hf
      rw [hnone, Option.none_or, ih hrest hf]

/-- What a sample is identified by. -/
def Sample.key (s : Sample) : List Char × List Label := (s.name, s.labels)

/-- No series has two samples. -/
theorem nodup_samples {fs : List Family} (hnames : (fs.map Family.name).Nodup)
    (hrows : ∀ f ∈ fs, (f.rows.map Prod.fst).Nodup) :
    ((fs.flatMap Family.samples).map Sample.key).Nodup := by
  induction fs with
  | nil => exact List.nodup_nil
  | cons f fs ih =>
    obtain ⟨hf, hrest⟩ := List.nodup_cons.1 hnames
    rw [List.flatMap_cons, List.map_append]
    refine List.Nodup.append ?_ (ih hrest fun g hg => hrows g (List.mem_cons_of_mem _ hg)) ?_
    · have hkeys : f.samples.map Sample.key = (f.rows.map Prod.fst).map (Prod.mk f.name) := by
        simp [Family.samples, Sample.key]
      rw [hkeys]
      exact (hrows f List.mem_cons_self).map fun _ _ he => (Prod.mk.inj he).2
    · intro k hk hk'
      obtain ⟨s, hs, rfl⟩ := List.mem_map.1 hk
      obtain ⟨s', hs', he⟩ := List.mem_map.1 hk'
      obtain ⟨g, hg, hmem⟩ := List.mem_flatMap.1 hs'
      have hname : s'.name = s.name := congrArg Prod.fst he
      rw [Family.name_of_mem hmem, Family.name_of_mem hs] at hname
      exact hf (hname ▸ List.mem_map_of_mem hg)

/-! ### Rows of a table -/

/-- The rows of a table: those of each value, under the labels of its key. -/
def tableRows {κ ν : Type*} (label : κ → List Label) (rows : ν → List (List Label × List Char))
    (table : List (κ × ν)) : List (List Label × List Char) :=
  table.flatMap fun kv => (rows kv.2).map fun r => (label kv.1 ++ r.1, r.2)

section

variable {κ ν : Type*} {label : κ → List Label} {rows : ν → List (List Label × List Char)}
  {table : List (κ × ν)}

theorem mem_tableRows {labels : List Label} {w : List Char} :
    (labels, w) ∈ tableRows label rows table ↔
      ∃ k v e, (k, v) ∈ table ∧ (e, w) ∈ rows v ∧ label k ++ e = labels := by
  constructor
  · intro h
    obtain ⟨⟨k, v⟩, hkv, hr⟩ := List.mem_flatMap.1 h
    obtain ⟨⟨e, w'⟩, he, heq⟩ := List.mem_map.1 hr
    obtain ⟨rfl, rfl⟩ := Prod.mk.inj heq
    exact ⟨k, v, e, hkv, he, rfl⟩
  · rintro ⟨k, v, e, hkv, he, rfl⟩
    exact List.mem_flatMap.2 ⟨(k, v), hkv, List.mem_map.2 ⟨(e, w), he, rfl⟩⟩

/-- The lines of the rows of a table, value by value. -/
theorem samples_tableRows (comments : List (List Char)) (name : List Char) :
    (⟨comments, name, tableRows label rows table⟩ : Family).samples.flatMap Sample.text =
      table.flatMap fun kv => (rows kv.2).flatMap fun r =>
        lineText name ((label kv.1).map escapeLabel ++ r.1.map escapeLabel) r.2 := by
  simp only [Family.samples, tableRows, List.map_flatMap, List.flatMap_assoc, List.map_map,
    List.flatMap_map, Function.comp_def, Sample.text, List.map_append]

/-- The labels of a key can be told from what stands behind them. -/
def Separates (label : κ → List Label) : Prop :=
  ∀ k k' e e', label k ++ e = label k' ++ e' → k = k' ∧ e = e'

theorem nodup_tableRows (hlabel : Separates label) (htable : (table.map Prod.fst).Nodup)
    (hrows : ∀ v, ((rows v).map Prod.fst).Nodup) :
    ((tableRows label rows table).map Prod.fst).Nodup := by
  induction table with
  | nil => exact List.nodup_nil
  | cons kv table ih =>
    obtain ⟨hk, htable⟩ := List.nodup_cons.1 htable
    rw [tableRows, List.flatMap_cons, List.map_append]
    refine List.Nodup.append ?_ (ih htable) ?_
    · have hkeys : ((rows kv.2).map fun r => (label kv.1 ++ r.1, r.2)).map Prod.fst =
          ((rows kv.2).map Prod.fst).map (label kv.1 ++ ·) := by
        rw [List.map_map, List.map_map]
        rfl
      rw [hkeys]
      exact (hrows kv.2).map fun e e' he => (hlabel _ _ _ _ he).2
    · intro labels hl hl'
      obtain ⟨r, hr, rfl⟩ := List.mem_map.1 hl
      obtain ⟨e, -, rfl⟩ := List.mem_map.1 hr
      obtain ⟨r', hr', he⟩ := List.mem_map.1 hl'
      obtain ⟨k, v, e', hkv, -, he'⟩ := mem_tableRows.1 hr'
      obtain ⟨rfl, -⟩ := hlabel _ _ _ _ (he'.trans he)
      exact hk (List.mem_map.2 ⟨(kv.1, v), hkv, rfl⟩)

/-- The row of a key. -/
theorem find_tableRows (hlabel : Separates label) (htable : (table.map Prod.fst).Nodup)
    (hrows : ∀ v, ((rows v).map Prod.fst).Nodup) (k : κ) (e : List Label) (w : List Char) :
    ((tableRows label rows table).find? fun r => decide (r.1 = label k ++ e)).map Prod.snd = some w ↔
      ∃ v, (k, v) ∈ table ∧ (e, w) ∈ rows v := by
  have hkeys := nodup_tableRows hlabel htable hrows
  constructor
  · intro hfind
    obtain ⟨r, hr, rfl⟩ := Option.map_eq_some_iff.1 hfind
    obtain ⟨k', v, e', hkv, he, hl⟩ := mem_tableRows.1 (List.mem_of_find?_eq_some hr)
    have hkey : r.1 = label k ++ e := by simpa using List.find?_some hr
    obtain ⟨rfl, rfl⟩ := hlabel _ _ _ _ (hl.trans hkey)
    exact ⟨v, hkv, he⟩
  · rintro ⟨v, hkv, he⟩
    have hmem : (label k ++ e, w) ∈ tableRows label rows table := mem_tableRows.2 ⟨k, v, e, hkv, he, rfl⟩
    cases hr : (tableRows label rows table).find? fun r => decide (r.1 = label k ++ e) with
    | none => exact absurd hr fun hnone => by simpa using List.find?_eq_none.1 hnone _ hmem
    | some r =>
      have hkey : r.1 = label k ++ e := by simpa using List.find?_some hr
      have hsame : r = (label k ++ e, w) :=
        List.inj_on_of_nodup_map hkeys (List.mem_of_find?_eq_some hr) hmem hkey
      exact congrArg (fun r => some r.2) hsame

end

/-! ### Escapes one after the other -/

/-- One character replaced wherever it stands. -/
def replaceChar (c : Char) (new text : List Char) : List Char :=
  text.flatMap fun d => if d = c then new else [d]

/-- Backslashes are replaced first: those of the later escapes stay as they are. -/
theorem replaceChar_escape (text : List Char) :
    replaceChar '\n' ['\\', 'n'] (replaceChar '"' ['\\', '"']
      (replaceChar '\\' ['\\', '\\'] text)) = text.flatMap escapeChar := by
  unfold replaceChar
  rw [List.flatMap_assoc, List.flatMap_assoc]
  refine List.flatMap_congr fun c _ => ?_
  unfold escapeChar
  split
  · rfl
  split
  · subst c
    rfl
  split
  · subst c
    rfl
  · rename_i hback hquote hline
    simp [hquote, hline]

end Lib
