import Mielofon.Lib.IpAddr
import Mielofon.Text

namespace Mielofon

open Lib

/-!
# Endpoints

A node is configured with the endpoints of its controllers: names or literal addresses, with a
port or without (`resolve.rs`).

* `parseEndpoint` — an entry of the configuration as an endpoint;
* `Accepts` — what an accepted entry looks like, case by case;
* `hostText`, `Endpoint.text` — how an endpoint is written;
* `SoundFor` — what is accepted has a host, and is read back as it is written;
* `endpoint_round_trip` — every written form is accepted, and which entries are read soundly.
-/

/-- One configured endpoint: a DNS name or a literal address, and a port. -/
structure Endpoint where
  host : String
  port : UInt16
deriving DecidableEq, Repr

/-- What follows the opening bracket of an IPv6 literal. -/
def parseLiteral (entry : String) (rest : List Char) (default_port : UInt16) :
    Except String Endpoint :=
  match splitOnce ']' rest with
  | none => .error (entry ++ ": unterminated IPv6 literal")
  | some (host, tail) =>
    match IpAddr.parse host with
    | none => .error (entry ++ ": bad IPv6 literal")
    | some _ =>
      match stripPrefix [':'] tail with
      | some p =>
        match parseU16 p with
        | some port => .ok ⟨String.ofList host, port⟩
        | none => .error (entry ++ ": bad port")
      | none =>
        if tail = [] then .ok ⟨String.ofList host, default_port⟩
        else .error (entry ++ ": junk after IPv6 literal")

/-- Parse `host:port`, `[v6]:port`, `v4:port` or `name:port`.  A bare name or address takes
    `default_port`. -/
def parseEndpoint (entry : String) (default_port : UInt16) : Except String Endpoint :=
  let entry := trim entry
  if entry = "" then .error "empty endpoint"
  else match stripPrefix ['['] entry.toList with
    | some rest => parseLiteral entry rest default_port
    | none =>
      -- a bare IPv6 literal has several colons
      if 1 < entry.toList.count ':' then
        match IpAddr.parse entry.toList with
        | none => .error (entry ++ ": bad IPv6 literal (use [addr]:port)")
        | some _ => .ok ⟨entry, default_port⟩
      else match rsplitOnce ':' entry.toList with
        | some (host, port) =>
          match parseU16 port with
          | some port => .ok ⟨String.ofList host, port⟩
          | none => .error (entry ++ ": bad port")
        | none => .ok ⟨entry, default_port⟩

example : parseEndpoint "[2001:db8::1]:1234" 9552 = .ok ⟨"2001:db8::1", 1234⟩ := by decide
example : parseEndpoint "2001:db8::1" 9552 = .ok ⟨"2001:db8::1", 9552⟩ := by decide
example : parseEndpoint "host:port" 1 = .error "host:port: bad port" := by decide

/-! ### What is accepted -/

/-- How an accepted entry, without the blanks around it, becomes an endpoint. -/
inductive Accepts (entry : List Char) (default_port : UInt16) : Endpoint → Prop
  | literal {host : List Char} {a : IpAddr} {port : UInt16} (hhost : IpAddr.parse host = some a) :
    Accepts entry default_port ⟨String.ofList host, port⟩
  | address {a : IpAddr} (hhost : IpAddr.parse entry = some a) :
    Accepts entry default_port ⟨String.ofList entry, default_port⟩
  | named {host digits : List Char} {port : UInt16} (hentry : entry = host ++ ':' :: digits)
    (hcolon : ':' ∉ host) (hbracket : host.head? ≠ some '[') (hport : parseU16 digits = some port) :
    Accepts entry default_port ⟨String.ofList host, port⟩
  | name (hne : entry ≠ []) (hcolon : ':' ∉ entry) (hbracket : entry.head? ≠ some '[') :
    Accepts entry default_port ⟨String.ofList entry, default_port⟩

theorem stripPrefix_singleton (c : Char) (s : List Char) :
    stripPrefix [c] s = if s.head? = some c then some s.tail else none := by
  cases s with
  | nil => simp [stripPrefix]
  | cons d s =>
    by_cases hd : c = d
    · simp [stripPrefix, hd]
    · simp [stripPrefix, hd, Ne.symm hd]

theorem accepts_of_parseLiteral {entry : String} {t rest : List Char} {d : UInt16} {e : Endpoint}
    (h : parseLiteral entry rest d = .ok e) : Accepts t d e := by
  unfold parseLiteral at h
  split at h
  · exact absurd h (by simp)
  · split at h
    · exact absurd h (by simp)
    · rename_i a hhost
      split at h
      · split at h
        · exact Except.ok.inj h ▸ .literal hhost
        · exact absurd h (by simp)
      · split at h
        · exact Except.ok.inj h ▸ .literal hhost
        · exact absurd h (by simp)

theorem accepts_of_parseEndpoint {entry : String} {d : UInt16} {e : Endpoint}
    (h : parseEndpoint entry d = .ok e) : Accepts (trim entry).toList d e := by
  unfold parseEndpoint at h
  dsimp only at h
  generalize trim entry = t at h ⊢
  split at h
  · exact absurd h (by simp)
  rename_i hne
  rw [stripPrefix_singleton] at h
  split at h
  · exact accepts_of_parseLiteral h
  rename_i hstrip
  have hbracket : t.toList.head? ≠ some '[' := fun hhead => by
    rw [if_pos hhead] at hstrip
    exact absurd hstrip (by simp)
  split at h
  · -- a bare IPv6 literal
    split at h
    · exact absurd h (by simp)
    · rename_i a haddr
      have hok : Accepts t.toList d _ := Accepts.address haddr
      rw [String.ofList_toList] at hok
      exact Except.ok.inj h ▸ hok
  · rename_i hcount
    split at h
    · rename_i host port hcut
      obtain ⟨hentry, hlast⟩ := rsplitOnce_eq_some hcut
      split at h
      · rename_i n hport
        refine Except.ok.inj h ▸ .named hentry (fun hcolon => ?_) (fun hhead => ?_) hport
        · -- a colon in the host would be a second one
          have hpos := List.count_pos_iff.mpr hcolon
          rw [hentry, List.count_append, List.count_cons_self] at hcount
          omega
        · rw [hentry] at hbracket
          cases host with
          | nil => exact absurd hhead (by simp)
          | cons c host => exact hbracket hhead
      · exact absurd h (by simp)
    · -- no colon at all
      rename_i hcut
      have hok : Accepts t.toList d _ := Accepts.name
        (fun hnil => hne (String.toList_eq_nil_iff.mp hnil)) (rsplitOnce_eq_none_iff.mp hcut) hbracket
      rw [String.ofList_toList] at hok
      exact Except.ok.inj h ▸ hok

/-! ### Written forms -/

/-- A host as it stands in front of a port: with brackets around a literal with colons. -/
def hostText (host : String) : String := if ':' ∈ host.toList then "[" ++ host ++ "]" else host

/-- A host and a port. -/
def withPort (host : String) (port : UInt16) : String :=
  hostText host ++ ":" ++ String.ofList (Nat.toDigits 10 port.toNat)

/-- An endpoint, written out. -/
def Endpoint.text (e : Endpoint) : String := withPort e.host e.port

/-- A digit is not a blank. -/
theorem isWhitespace_of_isDigit {c : Char} (h : c.isDigit) : isWhitespace c = false := by
  rw [Char.isDigit_iff_toNat] at h
  have h1 : 48 ≤ c.toNat := h.1
  have h2 : c.toNat ≤ 57 := h.2
  simp only [isWhitespace, List.mem_cons, List.not_mem_nil, or_false, Bool.or_eq_false_iff,
    Bool.and_eq_false_iff, decide_eq_false_iff_not]
  omega

/-- No character of an address is a blank. -/
theorem isWhitespace_of_addrChar {c : Char} (h : AddrChar c) : isWhitespace c = false := by
  rcases h with h | rfl | rfl
  · obtain ⟨d, hd⟩ := Option.isSome_iff_exists.mp h
    have hvalue := (Option.filter_eq_some_iff.mp hd).1
    -- a digit, or a letter of either case
    have hrange : 48 ≤ c.toNat ∧ c.toNat ≤ 102 := by
      split at hvalue
      · rename_i hc
        have hle : c.toNat ≤ 57 := hc.2
        exact ⟨hc.1, by omega⟩
      · split at hvalue
        · rename_i hc
          have hge : 97 ≤ c.toNat := hc.1
          exact ⟨by omega, hc.2⟩
        · split at hvalue
          · rename_i hc
            have hge : 65 ≤ c.toNat := hc.1
            have hle : c.toNat ≤ 70 := hc.2
            exact ⟨by omega, by omega⟩
          · exact absurd hvalue (by simp)
    simp only [isWhitespace, List.mem_cons, List.not_mem_nil, or_false, Bool.or_eq_false_iff,
      Bool.and_eq_false_iff, decide_eq_false_iff_not]
    omega
  · decide
  · decide

/-- A text that starts with something else than a blank and ends with a port has no blanks around
    it. -/
theorem trimmed_append_digits {s : List Char} (hne : s ≠ [])
    (hs : ∀ c ∈ s.head?, isWhitespace c = false) (port : UInt16) :
    Trimmed (s ++ Nat.toDigits 10 port.toNat) := by
  refine ⟨fun c hc => hs c ?_, fun c hc => ?_⟩
  · rwa [List.head?_append_of_ne_nil _ hne] at hc
  · rw [List.getLast?_append_of_ne_nil _ Nat.toDigits_ne_nil] at hc
    exact isWhitespace_of_isDigit
      (Nat.isDigit_of_mem_toDigits (by decide) (by decide) (List.mem_of_getLast? hc))

/-- A host and a port with one colon between them. -/
theorem parseEndpoint_named {entry : String} {host digits : List Char} {port : UInt16} (d : UInt16)
    (hentry : (trim entry).toList = host ++ ':' :: digits) (hcolon : ':' ∉ host)
    (hbracket : host.head? ≠ some '[') (hport : parseU16 digits = some port) :
    parseEndpoint entry d = .ok ⟨String.ofList host, port⟩ := by
  have hdigits : ':' ∉ digits := fun hmem =>
    absurd (mem_of_parseU16 hport ':' hmem) (by decide)
  have hne : trim entry ≠ "" := fun h => by
    rw [h] at hentry
    exact absurd hentry (by simp)
  have hhead : (host ++ ':' :: digits).head? ≠ some '[' := by
    cases host with
    | nil => simp
    | cons c host => exact hbracket
  -- one colon, so that the entry is not taken for an address
  have hcount : (host ++ ':' :: digits).count ':' = 1 := by
    rw [List.count_append, List.count_eq_zero.mpr hcolon, List.count_cons_self,
      List.count_eq_zero.mpr hdigits]
  unfold parseEndpoint
  dsimp only
  rw [if_neg hne, hentry, stripPrefix_singleton, if_neg hhead]
  dsimp only
  rw [if_neg (by omega), rsplitOnce_append hdigits]
  simp only [hport]

/-- A name without a port. -/
theorem parseEndpoint_name {host : String} (d : UInt16) (hne : host ≠ "")
    (htrim : Trimmed host.toList) (hcolon : ':' ∉ host.toList)
    (hbracket : host.toList.head? ≠ some '[') : parseEndpoint host d = .ok ⟨host, d⟩ := by
  unfold parseEndpoint
  dsimp only
  rw [trim_eq_self_iff.mpr htrim, if_neg hne, stripPrefix_singleton, if_neg hbracket]
  dsimp only
  rw [if_neg (by rw [List.count_eq_zero.mpr hcolon]; omega), rsplitOnce_eq_none_iff.mpr hcolon]

/-- An address in brackets, and what follows it. -/
theorem parseEndpoint_literal {entry : String} {host tail : List Char} {a : IpAddr} (d : UInt16)
    (hentry : entry.toList = '[' :: (host ++ ']' :: tail)) (htrim : Trimmed entry.toList)
    (hhost : IpAddr.parse host = some a) :
    parseEndpoint entry d =
      match stripPrefix [':'] tail with
      | some p =>
        match parseU16 p with
        | some port => .ok ⟨String.ofList host, port⟩
        | none => .error (entry ++ ": bad port")
      | none =>
        if tail = [] then .ok ⟨String.ofList host, d⟩
        else .error (entry ++ ": junk after IPv6 literal") := by
  have hne : entry ≠ "" := fun h => by
    rw [h] at hentry
    exact absurd hentry (by simp)
  -- the first closing bracket is the one that ends the host
  have hclose : ']' ∉ host := fun hmem => absurd (parse_chars hhost ']' hmem) (by decide)
  unfold parseEndpoint
  dsimp only
  rw [trim_eq_self_iff.mpr htrim, if_neg hne, hentry, stripPrefix_singleton,
    List.head?_cons, if_pos rfl]
  dsimp only [List.tail_cons]
  unfold parseLiteral
  rw [splitOnce_append hclose]
  simp only [hhost]

/-! ### Hosts that are read back -/

/-- The host is read back as it is written, with a port and without one. -/
def ReadsBack (host : String) : Prop :=
  ∀ port d, parseEndpoint (hostText host) d = .ok ⟨host, d⟩ ∧
    parseEndpoint (withPort host port) d = .ok ⟨host, port⟩

/-- A host without colons, written with a port, is read back. -/
theorem parseEndpoint_withPort {host : String} (port d : UInt16) (hcolon : ':' ∉ host.toList)
    (hbracket : host.toList.head? ≠ some '[')
    (hhead : ∀ c ∈ host.toList.head?, isWhitespace c = false) :
    parseEndpoint (withPort host port) d = .ok ⟨host, port⟩ := by
  have hentry : (withPort host port).toList =
      host.toList ++ [':'] ++ Nat.toDigits 10 port.toNat := by
    simp [withPort, hostText, hcolon, String.toList_append]
  have htrim : Trimmed (withPort host port).toList := by
    rw [hentry]
    refine trimmed_append_digits (by simp) (fun c hc => ?_) port
    -- the first character is that of the host, or the colon
    cases hh : host.toList with
    | nil =>
      rw [hh] at hc
      obtain rfl := Option.some.inj hc
      decide
    | cons x xs =>
      rw [hh] at hc
      exact hhead c (by rw [hh]; exact hc)
  have hread : parseEndpoint (withPort host port) d = _ := parseEndpoint_named d
    (by rw [trim_eq_self_iff.mpr htrim, hentry, List.append_assoc]; rfl) hcolon hbracket
    (parseU16_digits port)
  rwa [String.ofList_toList] at hread

theorem readsBack_of_name {host : String} (hne : host ≠ "") (htrim : Trimmed host.toList)
    (hcolon : ':' ∉ host.toList) (hbracket : host.toList.head? ≠ some '[') : ReadsBack host := by
  intro port d
  have htext : hostText host = host := if_neg hcolon
  rw [htext]
  exact ⟨parseEndpoint_name d hne htrim hcolon hbracket,
    parseEndpoint_withPort port d hcolon hbracket htrim.1⟩

/-- An address in brackets is read back. -/
theorem readsBack_of_literal {host : String} {a : IpAddr} (h : IpAddr.parse host.toList = some a)
    (hcolon : ':' ∈ host.toList) : ReadsBack host := by
  intro port d
  constructor
  · have hentry : (hostText host).toList = '[' :: (host.toList ++ ']' :: []) := by
      simp [hostText, hcolon, String.toList_append]
    have htrim : Trimmed (hostText host).toList := by
      rw [hentry]
      refine ⟨fun c hc => ?_, fun c hc => ?_⟩
      · obtain rfl := Option.some.inj hc
        decide
      · rw [← List.cons_append, List.getLast?_concat] at hc
        obtain rfl := Option.some.inj hc
        decide
    rw [parseEndpoint_literal d hentry htrim h]
    simp [stripPrefix]
  · have hentry : (withPort host port).toList =
        '[' :: (host.toList ++ ']' :: (':' :: Nat.toDigits 10 port.toNat)) := by
      simp [withPort, hostText, hcolon, String.toList_append]
    have htrim : Trimmed (withPort host port).toList := by
      have hends := trimmed_append_digits (s := '[' :: (host.toList ++ [']', ':'])) (by simp)
        (by simp; decide) port
      rw [hentry]
      simpa using hends
    rw [parseEndpoint_literal d hentry htrim h, stripPrefix_singleton, List.head?_cons, if_pos rfl]
    simp only [List.tail_cons, parseU16_digits, String.ofList_toList]

theorem readsBack_of_address {host : String} {a : IpAddr} (h : IpAddr.parse host.toList = some a) :
    ReadsBack host ∧ ∀ d, parseEndpoint host d = .ok ⟨host, d⟩ := by
  have hne : host ≠ "" := by
    rintro rfl
    have hnil : IpAddr.parse "".toList = none := by decide
    rw [hnil] at h
    exact absurd h (by simp)
  have hchars := parse_chars h
  have htrim : Trimmed host.toList :=
    ⟨fun c hc => isWhitespace_of_addrChar (hchars c (List.mem_of_head? hc)),
      fun c hc => isWhitespace_of_addrChar (hchars c (List.mem_of_getLast? hc))⟩
  have hbracket : host.toList.head? ≠ some '[' := fun hhead =>
    absurd (hchars '[' (List.mem_of_head? hhead)) (by decide)
  cases a with
  | v4 octets =>
    -- no colon in it, like in a name
    have hcolon : ':' ∉ host.toList := fun hmem =>
      absurd (parse_v4_chars h ':' hmem) (by decide)
    exact ⟨readsBack_of_name hne htrim hcolon hbracket,
      fun d => parseEndpoint_name d hne htrim hcolon hbracket⟩
  | v6 groups =>
    have hcount := (parse_v6_colons h).2
    refine ⟨readsBack_of_literal h (List.count_pos_iff.mp (by omega)), fun d => ?_⟩
    unfold parseEndpoint
    dsimp only
    rw [trim_eq_self_iff.mpr htrim, if_neg hne, stripPrefix_singleton, if_neg hbracket]
    dsimp only
    rw [if_pos (by omega), h]

/-- The endpoint has a host, with colons only if it is an IPv6 address, and is read back as it is
    written. -/
def Endpoint.Sound (e : Endpoint) : Prop :=
  e.host ≠ "" ∧
  (':' ∈ e.host.toList → ∃ groups, IpAddr.parse e.host.toList = some (.v6 groups)) ∧
  ∀ d, parseEndpoint e.text d = .ok e

/-- What the entry is read as, if anything, is sound. -/
def SoundFor (entry : String) (d : UInt16) : Prop := ∀ e, parseEndpoint entry d = .ok e → e.Sound

theorem sound_of_address {host : List Char} {a : IpAddr} (h : IpAddr.parse host = some a)
    (port : UInt16) : Endpoint.Sound ⟨String.ofList host, port⟩ := by
  have hhost : IpAddr.parse (String.ofList host).toList = some a := by rwa [String.toList_ofList]
  refine ⟨?_, fun hcolon => ?_, fun d => ((readsBack_of_address hhost).1 port d).2⟩
  · rintro hnil
    have hempty : IpAddr.parse "".toList = none := by decide
    rw [show (String.ofList host) = "" from hnil, hempty] at hhost
    exact absurd hhost (by simp)
  · cases a with
    | v4 octets => exact absurd (parse_v4_chars hhost ':' hcolon) (by decide)
    | v6 groups => exact ⟨groups, hhost⟩

theorem sound_of_name {host : List Char} (hne : host ≠ []) (hcolon : ':' ∉ host)
    (hbracket : host.head? ≠ some '[') (hhead : ∀ c ∈ host.head?, isWhitespace c = false)
    (port : UInt16) : Endpoint.Sound ⟨String.ofList host, port⟩ := by
  have hlist : (String.ofList host).toList = host := String.toList_ofList
  refine ⟨fun hnil => ?_, fun hmem => ?_, fun d => ?_⟩
  · rw [show (String.ofList host) = "" from hnil] at hlist
    exact hne hlist.symm
  · rw [hlist] at hmem
    exact absurd hmem hcolon
  · exact parseEndpoint_withPort port d (by rwa [hlist]) (by rwa [hlist]) (by rwa [hlist])

/-- **Endpoints go there and back.** Every name and every address, with a port and without, is read
    as it is written.  What an entry is read as has a host and is read back exactly for the entries
    that are not a port alone. -/
theorem endpoint_round_trip (host entry : String) (d : UInt16) :
    (host ≠ "" → ':' ∉ host.toList → '[' ∉ host.toList → trim host = host → ReadsBack host) ∧
    (∀ a, IpAddr.parse host.toList = some a →
      ReadsBack host ∧ ∀ d, parseEndpoint host d = .ok ⟨host, d⟩) ∧
    (SoundFor entry d ↔
      ¬ ∃ p port, (trim entry).toList = ':' :: p ∧ parseU16 p = some port) := by
  refine ⟨fun hne hcolon hbracket htrim => ?_, fun a h => readsBack_of_address h,
    ⟨?_, fun hport e he => ?_⟩⟩
  · exact readsBack_of_name hne (trim_eq_self_iff.mp htrim) hcolon
      (fun hhead => hbracket (List.mem_of_head? hhead))
  · -- a port alone is read as an endpoint without a host
    rintro hsound ⟨p, port, hentry, hp⟩
    have hread : parseEndpoint entry d = .ok ⟨String.ofList [], port⟩ :=
      parseEndpoint_named d hentry List.not_mem_nil (by simp) hp
    exact (hsound _ hread).1 rfl
  · have htrim := (trimmed_trim entry).1
    cases accepts_of_parseEndpoint he with
    | literal hhost => exact sound_of_address hhost _
    | address hhost => exact sound_of_address hhost _
    | @named host digits port hentry hcolon hbracket hp =>
      have hne : host ≠ [] := fun hnil => hport ⟨digits, port, by rw [hentry, hnil]; rfl, hp⟩
      obtain ⟨c, host, rfl⟩ := List.exists_cons_of_ne_nil hne
      rw [hentry] at htrim
      exact sound_of_name hne hcolon hbracket htrim port
    | name hne hcolon hbracket => exact sound_of_name hne hcolon hbracket htrim d

/-- `:9552` is read as an endpoint without a host. -/
theorem port_alone_has_no_host : ¬ SoundFor ":9552" 9552 := fun h =>
  (h ⟨"", 9552⟩ (by decide)).1 rfl

end Mielofon
