import Mathlib
import Mielofon.Agent.Discover
import Mielofon.Lib.Glob

namespace Mielofon

open Lib

/-!
# Globs and tokens

The tunnels of a node are named by convention, and its configuration has globs for their names
(`discover.rs`).  The first glob that matches a name selects the interface, and what its star stands
for names the peer, unless the glob has other wildcards.

* `wild`, `Selects` — what a glob means, byte by byte;
* `globGo_iff` — the matcher decides it;
* `HasToken`, `globToken_iff` — the token of a name;
* `token_of_globs` — the token of an interface under a list of globs.
-/

/-- The bytes of a text. -/
def bytes (s : String) : List UInt8 := s.toUTF8.data.toList

def wild (b : UInt8) : Wild UInt8 :=
  if b = 42 then .run else if b = 63 then .one else .lit b

/-- What a glob selects: `*` stands for any run, `?` for one byte. -/
def Selects (glob name : String) : Prop := bytes name ∈ denote ((bytes glob).map wild)

/-- **Matching.** The matcher decides the language of the pattern. -/
theorem globGo_iff (p n : List UInt8) : globGo p n = true ↔ n ∈ denote (p.map wild) := by
  induction p generalizing n with
  | nil => rw [List.map_nil, mem_denote_nil, globGo, List.isEmpty_iff]
  | cons c p ih =>
    rw [List.map_cons, globGo, wild]
    split
    · rw [mem_denote_run, List.any_eq_true]
      constructor
      · rintro ⟨k, hk, hmatch⟩
        exact ⟨k, Nat.lt_succ_iff.1 (List.mem_range.1 hk), (ih _).1 hmatch⟩
      · rintro ⟨k, hk, hmem⟩
        exact ⟨k, List.mem_range.2 (Nat.lt_succ_of_le hk), (ih _).2 hmem⟩
    split
    · rw [mem_denote_one]
      cases n with
      | nil => simp
      | cons b n => simp [ih]
    · rw [mem_denote_lit]
      cases n with
      | nil => simp
      | cons b n =>
        simp only [List.head?_cons, List.tail_cons, Bool.and_eq_true, beq_iff_eq, Option.some.injEq,
          ih, List.cons.injEq]
        constructor
        · rintro ⟨rfl, hmem⟩
          exact ⟨n, hmem, rfl, rfl⟩
        · rintro ⟨v, hmem, rfl, rfl⟩
          exact ⟨rfl, hmem⟩

theorem globMatch_iff (glob name : String) : globMatch glob name = true ↔ Selects glob name :=
  globGo_iff _ _

/-! ### Bytes -/

theorem bytes_append (s t : String) : bytes (s ++ t) = bytes s ++ bytes t := by
  simp [bytes]

theorem bytes_eq (s : String) : bytes s = s.toList.flatMap String.utf8EncodeChar := by
  rw [bytes, String.toUTF8_eq_toByteArray, ← String.utf8Encode_toList]
  simp [List.utf8Encode]

/-- A character outside ASCII has no byte of an ASCII character. -/
theorem le_of_mem_utf8EncodeChar {c : Char} (h : 128 ≤ c.val.toNat) :
    ∀ b ∈ String.utf8EncodeChar c, 128 ≤ b.toNat := by
  intro b hb
  have hlarge : ¬ c.val.toNat ≤ 127 := by omega
  unfold String.utf8EncodeChar at hb
  simp only [if_neg hlarge] at hb
  split at hb
  · simp only [List.mem_cons, List.not_mem_nil, or_false] at hb
    rcases hb with rfl | rfl <;> rw [UInt8.toNat_ofNat'] <;> omega
  split at hb
  · simp only [List.mem_cons, List.not_mem_nil, or_false] at hb
    rcases hb with rfl | rfl | rfl <;> rw [UInt8.toNat_ofNat'] <;> omega
  · simp only [List.mem_cons, List.not_mem_nil, or_false] at hb
    rcases hb with rfl | rfl | rfl | rfl <;> rw [UInt8.toNat_ofNat'] <;> omega

/-- The byte of an ASCII character is in no other character. -/
theorem eq_of_mem_utf8EncodeChar {c d : Char} (hd : d.val.toNat < 128)
    (h : UInt8.ofNat d.val.toNat ∈ String.utf8EncodeChar c) : c = d := by
  have hbyte : (UInt8.ofNat d.val.toNat).toNat = d.val.toNat := by
    rw [UInt8.toNat_ofNat']
    omega
  by_cases hc : 128 ≤ c.val.toNat
  · have hle := le_of_mem_utf8EncodeChar hc _ h
    omega
  · have hsmall : c.val.toNat ≤ 127 := by omega
    unfold String.utf8EncodeChar at h
    simp only [if_pos hsmall, List.mem_singleton] at h
    have hnat := congrArg UInt8.toNat h
    rw [hbyte, UInt8.toNat_ofNat'] at hnat
    refine Char.ext (UInt32.toNat_inj.1 ?_)
    omega

/-- A text with no wildcard in it. -/
def Literal (s : String) : Prop := '*' ∉ s.toList ∧ '?' ∉ s.toList

theorem wild_bytes {s : String} (h : Literal s) : (bytes s).map wild = (bytes s).map Wild.lit := by
  refine List.map_congr_left fun b hb => ?_
  rw [bytes_eq] at hb
  obtain ⟨c, hc, hbc⟩ := List.mem_flatMap.1 hb
  have hstar : b ≠ 42 := by
    rintro rfl
    exact h.1 (eq_of_mem_utf8EncodeChar (d := '*') (by decide) hbc ▸ hc)
  have hquery : b ≠ 63 := by
    rintro rfl
    exact h.2 (eq_of_mem_utf8EncodeChar (d := '?') (by decide) hbc ▸ hc)
  rw [wild, if_neg hstar, if_neg hquery]

/-! ### Tokens -/

/-- What the star of a glob stands for in a name, when the glob has no other wildcard. -/
def HasToken (glob name token : String) : Prop :=
  ∃ pre suf, Literal pre ∧ Literal suf ∧ glob = pre ++ "*" ++ suf ∧ name = pre ++ token ++ suf ∧
    token ≠ ""

theorem HasToken.selects {glob name token : String} (h : HasToken glob name token) :
    Selects glob name := by
  obtain ⟨pre, suf, hpre, hsuf, rfl, rfl, -⟩ := h
  have hstar : (bytes "*").map wild = [.run] := by
    have hchars : "*".toList = ['*'] := by simp
    rw [bytes_eq, hchars]
    rfl
  have hglob : (bytes (pre ++ "*" ++ suf)).map wild =
      (bytes pre).map Wild.lit ++ .run :: (bytes suf).map Wild.lit := by
    rw [bytes_append, bytes_append, List.map_append, List.map_append, wild_bytes hpre,
      wild_bytes hsuf, hstar, List.append_assoc, List.singleton_append]
  rw [Selects, hglob, bytes_append, bytes_append]
  exact append_mem_denote _ _ _

theorem eq_of_stripPrefix {pre s t : List Char} (h : stripPrefix pre s = some t) :
    s = pre ++ t := by
  unfold stripPrefix at h
  split at h
  · rename_i hpre
    obtain ⟨rest, rfl⟩ := List.isPrefixOf_iff_prefix.1 hpre
    rw [List.drop_left] at h
    rw [Option.some.inj h]
  · exact absurd h (by simp)

theorem eq_of_stripSuffix {suf s t : List Char} (h : stripSuffix suf s = some t) :
    s = t ++ suf := by
  unfold stripSuffix at h
  split at h
  · rename_i hsuf
    obtain ⟨rest, rfl⟩ := List.isSuffixOf_iff_suffix.1 hsuf
    rw [List.length_append, Nat.add_sub_cancel, List.take_left] at h
    rw [Option.some.inj h]
  · exact absurd h (by simp)

theorem stripSuffix_append (s suf : List Char) : stripSuffix suf (s ++ suf) = some s := by
  rw [stripSuffix, if_pos (List.isSuffixOf_iff_suffix.2 (List.suffix_append s suf)),
    List.length_append, Nat.add_sub_cancel, List.take_left]

/-- A glob, at its first star. -/
theorem span_star {pre : List Char} (h : '*' ∉ pre) (suf : List Char) :
    (pre ++ '*' :: suf).span (fun c => c ≠ '*') = (pre, '*' :: suf) := by
  have hall : ∀ c ∈ pre, decide (c ≠ '*') = true :=
    fun c hc => decide_eq_true fun he => h (he ▸ hc)
  rw [List.span_eq_takeWhile_dropWhile, List.takeWhile_append_of_pos hall,
    List.dropWhile_append_of_pos hall]
  simp

theorem exists_of_span {l pre suf : List Char} {c : Char}
    (h : l.span (fun c => c ≠ '*') = (pre, c :: suf)) :
    c = '*' ∧ '*' ∉ pre ∧ l = pre ++ '*' :: suf := by
  rw [List.span_eq_takeWhile_dropWhile, Prod.mk.injEq] at h
  obtain ⟨rfl, hdrop⟩ := h
  have hc : c = '*' := by
    have hne : l.dropWhile (fun c => decide (c ≠ '*')) ≠ [] := by
      rw [hdrop]
      exact List.cons_ne_nil _ _
    have hnot := List.head_dropWhile_not (fun c => decide (c ≠ '*')) hne
    simpa only [hdrop, List.head_cons, decide_eq_false_iff_not, ne_eq, not_not] using hnot
  subst hc
  refine ⟨rfl, fun hmem => ?_, ?_⟩
  · simpa using List.mem_takeWhile_imp hmem
  · rw [← hdrop, List.takeWhile_append_dropWhile]

theorem globToken_iff (glob name token : String) :
    globToken glob name = some token ↔ HasToken glob name token := by
  constructor
  · intro h
    unfold globToken at h
    split at h
    · exact absurd h (by simp)
    · rename_i pre c suf hspan
      obtain ⟨rfl, hstar, hglob⟩ := exists_of_span hspan
      split at h
      · exact absurd h (by simp)
      · rename_i hwild
        simp only [not_or] at hwild
        obtain ⟨mid, hmid, htoken⟩ := Option.bind_eq_some_iff.1 h
        obtain ⟨rest, hrest, hsuffix⟩ := Option.bind_eq_some_iff.1 hmid
        split at htoken
        · exact absurd htoken (by simp)
        · rename_i hne
          have hname : name.toList = pre ++ mid ++ suf := by
            rw [eq_of_stripPrefix hrest, eq_of_stripSuffix hsuffix, List.append_assoc]
          obtain rfl := Option.some.inj htoken
          refine ⟨String.ofList pre, String.ofList suf, ⟨?_, ?_⟩, ⟨?_, ?_⟩, ?_, ?_, ?_⟩
          · simpa using hstar
          · simpa using hwild.2.1
          · simpa using hwild.1
          · simpa using hwild.2.2
          · rw [← String.toList_inj, hglob]
            simp
          · rw [← String.toList_inj, hname]
            simp
          · simpa using hne
  · rintro ⟨pre, suf, hpre, hsuf, rfl, rfl, hne⟩
    have hglob : (pre ++ "*" ++ suf).toList = pre.toList ++ '*' :: suf.toList := by simp
    have hname : (pre ++ token ++ suf).toList = pre.toList ++ (token.toList ++ suf.toList) := by
      simp
    have hwild : ¬ ('*' ∈ suf.toList ∨ '?' ∈ pre.toList ∨ '?' ∈ suf.toList) := by
      simp [hpre.2, hsuf.1, hsuf.2]
    have htoken : token.toList ≠ [] := by simpa using hne
    unfold globToken
    rw [hglob, span_star hpre.1, hname]
    simp only [if_neg hwild, stripPrefix_append, Option.bind_some, stripSuffix_append,
      if_neg htoken, String.ofList_toList]

/-- **Tokens.** An interface has a token under a list of globs exactly if the first glob that
    selects its name has one star and no other wildcard, and the star stands for the token. -/
theorem token_of_globs (iface : String) (globs : List String) (token : String) :
    (∀ g, globMatch g iface = true ↔ Selects g iface) ∧
    (ifaceToken iface globs = some token ↔
      ∃ before g after, globs = before ++ g :: after ∧ (∀ b ∈ before, ¬ Selects b iface) ∧
        HasToken g iface token) := by
  refine ⟨fun g => globMatch_iff g iface, ?_⟩
  unfold ifaceToken
  constructor
  · intro h
    obtain ⟨g, hfind, htoken⟩ := Option.bind_eq_some_iff.1 h
    obtain ⟨-, before, after, rfl, hbefore⟩ := List.find?_eq_some_iff_append.1 hfind
    refine ⟨before, g, after, rfl, fun b hb hselects => ?_, (globToken_iff g iface token).1 htoken⟩
    exact absurd ((globMatch_iff b iface).2 hselects) (by simpa using hbefore b hb)
  · rintro ⟨before, g, after, rfl, hbefore, htoken⟩
    have hfind : (before ++ g :: after).find? (fun g => globMatch g iface) = some g := by
      refine List.find?_eq_some_iff_append.2 ⟨(globMatch_iff g iface).2 htoken.selects, before,
        after, rfl, fun b hb => ?_⟩
      have hnot : ¬ globMatch b iface = true := fun h => hbefore b hb ((globMatch_iff b iface).1 h)
      simpa using hnot
    rw [hfind, Option.bind_some]
    exact (globToken_iff g iface token).2 htoken

end Mielofon
