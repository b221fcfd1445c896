import Mathlib.Data.List.Perm.Basic
import Mathlib.Data.List.Nodup
import Mielofon.Lib.Doc

namespace Lib

/-!
# Codecs of types as documents

How a type is written as a document and read back, put together from its fields.  A codec states what
becomes of each value on the way (`arrive`), and carries the proof.  A record reads the members of its
own keys, each at most once, in any order, and passes over all others.

* `Codec` — a type; `Codec.option`, `Codec.list`, `Codec.pair`, `Codec.enum` and the plain ones;
* `Record` — the fields of an object: `field`, `default`, `and`, `map`;
* `Record.read_of_perm` — other members and another order change nothing;
* `Variants` — an enumeration whose variants carry fields: `one`, `or`, `map`;
* `Codec.tagged` — the object of such an enumeration, which names its variant under a tag;
* `Codec.Carries` — what the object of a value is read as, in whatever company.
-/

variable {T : Type*} {α β : Type*}

/-- A type as documents, and what a value is read back as. -/
structure Codec (T α : Type*) where
  write : α → Doc T
  read : Doc T → Option α
  arrive : α → Option α
  read_write : ∀ a, read (write a) = arrive a

namespace Codec

def str : Codec T String where
  write := .str
  read := Doc.as_str
  arrive := some
  read_write := fun _ => rfl

def bool : Codec T Bool where
  write := .bool
  read
    | .bool b => some b
    | _ => none
  arrive := some
  read_write := fun _ => rfl

/-- Natural numbers below a bound. -/
def nat (bound : ℕ) : Codec T ℕ where
  write n := .int n
  read
    | .int z => if 0 ≤ z ∧ z < bound then some z.toNat else none
    | _ => none
  arrive n := if n < bound then some n else none
  read_write n := by
    by_cases h : n < bound
    · simp [h]
    · simp [h]

/-- Integers from `-bound` to before `bound`. -/
def int (bound : ℕ) : Codec T ℤ where
  write := .int
  read
    | .int z => if -bound ≤ z ∧ z < bound then some z else none
    | _ => none
  arrive z := if -bound ≤ z ∧ z < bound then some z else none
  read_write := fun _ => rfl

/-- A type with a null: a value whose document is null is read as none. -/
def option (c : Codec T α) : Codec T (Option α) where
  write
    | none => .null
    | some a => c.write a
  read
    | .null => some none
    | d => (c.read d).map some
  arrive
    | none => some none
    | some a => match c.write a with
      | .null => some none
      | _ => (c.arrive a).map some
  read_write
    | none => rfl
    | some a => by
      have hread := c.read_write a
      simp only
      cases h : c.write a <;> rw [h] at hread <;> simp only [hread]

def list (c : Codec T α) : Codec T (List α) where
  write as := .arr (as.map c.write)
  read
    | .arr items => items.mapM c.read
    | _ => none
  arrive as := as.mapM c.arrive
  read_write as := by
    have hcomp : c.read ∘ c.write = c.arrive := funext c.read_write
    show (as.map c.write).mapM c.read = _
    rw [List.mapM_map, hcomp]

/-- A pair is an array of two. -/
def pair (c : Codec T α) (d : Codec T β) : Codec T (α × β) where
  write p := .arr [c.write p.1, d.write p.2]
  read
    | .arr [x, y] => (c.read x).bind fun a => (d.read y).map fun b => (a, b)
    | _ => none
  arrive p := (c.arrive p.1).bind fun a => (d.arrive p.2).map fun b => (a, b)
  read_write p := by simp only [c.read_write, d.read_write]

/-- An enumeration without fields, by the names of its values. -/
def enum (name : α → String) (all : List α)
    (hall : ∀ a, all.find? (fun b => name b = name a) = some a) : Codec T α where
  write a := .str (name a)
  read
    | .str s => all.find? (fun b => name b = s)
    | _ => none
  arrive := some
  read_write := hall

@[simp] theorem str_arrive (s : String) : (str : Codec T String).arrive s = some s := rfl

@[simp] theorem bool_arrive (b : Bool) : (bool : Codec T Bool).arrive b = some b := rfl

theorem nat_arrive {bound n : ℕ} (h : n < bound) : (nat bound : Codec T ℕ).arrive n = some n :=
  if_pos h

theorem int_arrive {bound : ℕ} {z : ℤ} (h : -bound ≤ z ∧ z < bound) :
    (int bound : Codec T ℤ).arrive z = some z :=
  if_pos h

@[simp] theorem enum_arrive (name : α → String) (all : List α)
    (hall : ∀ a, all.find? (fun b => name b = name a) = some a) (a : α) :
    (enum name all hall : Codec T α).arrive a = some a := rfl

@[simp] theorem option_str_arrive (o : Option String) :
    (str : Codec T String).option.arrive o = some o := by
  cases o <;> rfl

theorem option_nat_arrive {bound : ℕ} {o : Option ℕ} (h : ∀ n ∈ o, n < bound) :
    (nat bound : Codec T ℕ).option.arrive o = some o := by
  cases o with
  | none => rfl
  | some n => exact congrArg (Option.map some) (nat_arrive (T := T) (h n rfl))

theorem list_arrive_congr {c : Codec T α} {as : List α} {f : α → Option α}
    (h : ∀ a ∈ as, c.arrive a = f a) : c.list.arrive as = as.mapM f := by
  show as.mapM c.arrive = as.mapM f
  induction as with
  | nil => rfl
  | cons a as ih =>
    rw [List.mapM_cons, List.mapM_cons, h a List.mem_cons_self,
      ih fun b hb => h b (List.mem_cons_of_mem _ hb)]

theorem list_arrive {c : Codec T α} {as : List α} (h : ∀ a ∈ as, c.arrive a = some a) :
    c.list.arrive as = some as := by
  have hpure : as.mapM (fun a => (pure a : Option α)) = some as := by
    rw [List.mapM_pure, List.map_id']
    rfl
  exact (list_arrive_congr h).trans hpure

@[simp] theorem pair_arrive (c : Codec T α) (d : Codec T β) (a : α) (b : β) :
    (c.pair d).arrive (a, b) = (c.arrive a).bind fun a => (d.arrive b).map fun b => (a, b) := rfl

/-- A list of any elements is not null. -/
theorem option_list_arrive {c : Codec T α} {o : Option (List α)}
    (h : ∀ as ∈ o, ∀ a ∈ as, c.arrive a = some a) : c.list.option.arrive o = some o := by
  cases o with
  | none => rfl
  | some as => exact congrArg (Option.map some) (list_arrive (h as rfl))

/-- A list that is read element by element is read unless one of them is not. -/
theorem isSome_mapM {f : α → Option β} {as : List α} :
    (as.mapM f).isSome ↔ ∀ a ∈ as, (f a).isSome := by
  induction as with
  | nil => simp
  | cons a as ih =>
    rw [List.mapM_cons, List.forall_mem_cons, ← ih]
    cases f a with
    | none => simp
    | some b => cases as.mapM f <;> simp

end Codec

/-! ### Members of an object -/

/-- The documents an object has under a key. -/
def members (key : String) (fields : List (String × Doc T)) : List (Doc T) :=
  (fields.filter (fun e => e.1 = key)).map Prod.snd

theorem members_append (key : String) (l l' : List (String × Doc T)) :
    members key (l ++ l') = members key l ++ members key l' := by
  rw [members, List.filter_append, List.map_append]
  rfl

theorem members_eq_nil {key : String} {l : List (String × Doc T)} (h : ∀ e ∈ l, e.1 ≠ key) :
    members key l = [] := by
  rw [members, List.map_eq_nil_iff, List.filter_eq_nil_iff]
  exact fun e he => by simpa using h e he

@[simp] theorem members_singleton (key : String) (d : Doc T) : members key [(key, d)] = [d] := by
  simp [members]

/-- Members of other keys may go. -/
theorem members_filter {key tag : String} (h : key ≠ tag) (l : List (String × Doc T)) :
    members key (l.filter (fun e => e.1 ≠ tag)) = members key l := by
  rw [members, members, List.filter_filter]
  congr 1
  apply List.filter_congr
  intro e _
  by_cases he : e.1 = key
  · simp [he, h]
  · simp [he]

/-- An object without repeated keys has at most one member of a key. -/
theorem length_members_le {key : String} {l : List (String × Doc T)}
    (h : (l.map Prod.fst).Nodup) : (members key l).length ≤ 1 := by
  induction l with
  | nil => exact Nat.zero_le _
  | cons e l ih =>
    rw [List.map_cons, List.nodup_cons] at h
    rw [members, List.filter_cons]
    split
    · rename_i he
      have hnone : members key l = [] := members_eq_nil fun e' he' heq =>
        h.1 (List.mem_map.mpr ⟨e', he', heq.trans (of_decide_eq_true he).symm⟩)
      rw [members, List.map_eq_nil_iff] at hnone
      simp [hnone]
    · exact ih h.2

/-- Lists of at most one element are equal when they are permutations. -/
theorem eq_of_perm_of_length_le {l l' : List α} (h : l.Perm l') (hlen : l'.length ≤ 1) : l = l' := by
  match l', hlen with
  | [], _ => exact h.eq_nil
  | [a], _ => exact List.perm_singleton.mp h

/-- No name of the first list is among the second. -/
def apart (l l' : List String) : Bool := l.all (fun k => !l'.contains k)

theorem not_mem_of_apart {l l' : List String} (h : apart l l' = true) {k : String} (hk : k ∈ l) :
    k ∉ l' := by
  simpa using List.all_eq_true.mp h k hk

/-! ### Records -/

/-- The fields of an object: the keys, what is written under them, and what is read. -/
structure Record (T α : Type*) where
  keys : List String
  write : α → List (String × Doc T)
  read : List (String × Doc T) → Option α
  arrive : α → Option α
  nodup : keys.Nodup
  write_keys : ∀ a, ((write a).map Prod.fst).Sublist keys
  read_congr : ∀ l l', (∀ k ∈ keys, members k l = members k l') → read l = read l'
  read_write : ∀ a, read (write a) = arrive a

namespace Record

theorem key_mem (r : Record T α) {a : α} {e : String × Doc T} (h : e ∈ r.write a) : e.1 ∈ r.keys :=
  (r.write_keys a).subset (List.mem_map_of_mem h)

/-- A field that has to be there. -/
def field (key : String) (c : Codec T α) : Record T α where
  keys := [key]
  write a := [(key, c.write a)]
  read l := match members key l with
    | [d] => c.read d
    | _ => none
  arrive := c.arrive
  nodup := List.nodup_singleton key
  write_keys _ := List.Sublist.refl _
  read_congr l l' h := by rw [h key (List.mem_singleton.mpr rfl)]
  read_write a := by simp only [members_singleton, c.read_write]

/-- A field with a default; it is not written where `skip` says so. -/
def default (key : String) (c : Codec T α) (d : α) (skip : α → Bool)
    (hskip : ∀ a, skip a = true → a = d) : Record T α where
  keys := [key]
  write a := if skip a then [] else [(key, c.write a)]
  read l := match members key l with
    | [] => some d
    | [x] => c.read x
    | _ => none
  arrive a := if skip a then some a else c.arrive a
  nodup := List.nodup_singleton key
  write_keys a := by
    split
    · exact List.nil_sublist _
    · exact List.Sublist.refl _
  read_congr l l' h := by rw [h key (List.mem_singleton.mpr rfl)]
  read_write a := by
    by_cases h : skip a = true
    · rw [if_pos h, if_pos h, hskip a h]
      rfl
    · rw [if_neg h, if_neg h]
      simp only [members_singleton, c.read_write]

/-- The fields of two records with different keys. -/
def and (r : Record T α) (s : Record T β)
    (hapart : apart r.keys s.keys = true := by exact id rfl) : Record T (α × β) where
  keys := r.keys ++ s.keys
  write p := r.write p.1 ++ s.write p.2
  read l := (r.read l).bind fun a => (s.read l).map fun b => (a, b)
  arrive p := (r.arrive p.1).bind fun a => (s.arrive p.2).map fun b => (a, b)
  nodup := List.nodup_append.mpr
    ⟨r.nodup, s.nodup, fun _ hk _ hk' heq => not_mem_of_apart hapart hk (heq ▸ hk')⟩
  write_keys p := by
    rw [List.map_append]
    exact (r.write_keys p.1).append (s.write_keys p.2)
  read_congr l l' hl := by
    rw [r.read_congr l l' fun k hk => hl k (List.mem_append_left _ hk),
      s.read_congr l l' fun k hk => hl k (List.mem_append_right _ hk)]
  read_write p := by
    -- each record sees its own members alone
    have hr : r.read (r.write p.1 ++ s.write p.2) = r.read (r.write p.1) :=
      r.read_congr _ _ fun k hk => by
        rw [members_append, members_eq_nil (l := s.write p.2), List.append_nil]
        exact fun e he heq => not_mem_of_apart hapart hk (heq ▸ s.key_mem he)
    have hs : s.read (r.write p.1 ++ s.write p.2) = s.read (s.write p.2) :=
      s.read_congr _ _ fun k hk => by
        rw [members_append, members_eq_nil (l := r.write p.1), List.nil_append]
        exact fun e he heq => not_mem_of_apart hapart (r.key_mem he) (heq ▸ hk)
    rw [hr, hs, r.read_write, s.read_write]

/-- The fields of a type, through the tuple of their values. -/
def map (r : Record T α) (f : α → β) (g : β → α) : Record T β where
  keys := r.keys
  write b := r.write (g b)
  read l := (r.read l).map f
  arrive b := (r.arrive (g b)).map f
  nodup := r.nodup
  write_keys b := r.write_keys (g b)
  read_congr l l' h := by rw [r.read_congr l l' h]
  read_write b := by rw [r.read_write]

@[simp] theorem field_arrive (key : String) (c : Codec T α) (a : α) :
    (field key c).arrive a = c.arrive a := rfl

theorem default_arrive {key : String} {c : Codec T α} {d : α} {skip : α → Bool}
    {hskip : ∀ a, skip a = true → a = d} {a b : α} (hc : c.arrive a = some b)
    (hsame : skip a = true → b = a) : (default key c d skip hskip).arrive a = some b := by
  show (if skip a then some a else c.arrive a) = some b
  by_cases h : skip a = true
  · rw [if_pos h, hsame h]
  · rw [if_neg h, hc]

@[simp] theorem and_arrive (r : Record T α) (s : Record T β) (hapart : apart r.keys s.keys = true)
    (a : α) (b : β) :
    (r.and s hapart).arrive (a, b) = (r.arrive a).bind fun a => (s.arrive b).map fun b => (a, b) :=
  rfl

@[simp] theorem map_arrive (r : Record T α) (f : α → β) (g : β → α) (b : β) :
    (r.map f g).arrive b = (r.arrive (g b)).map f := rfl

/-- **Compatibility.** Members of other keys, and another order, change nothing. -/
theorem read_of_perm (r : Record T α) {a : α} {l extra : List (String × Doc T)}
    (hextra : ∀ e ∈ extra, e.1 ∉ r.keys) (hperm : l.Perm (r.write a ++ extra)) :
    r.read l = r.arrive a := by
  rw [← r.read_write]
  apply r.read_congr
  intro k hk
  have hnodup : ((r.write a).map Prod.fst).Nodup := r.nodup.sublist (r.write_keys a)
  have hmembers : members k (r.write a ++ extra) = members k (r.write a) := by
    rw [members_append, members_eq_nil (l := extra), List.append_nil]
    exact fun e he heq => hextra e he (heq ▸ hk)
  have hsame : (members k l).Perm (members k (r.write a)) :=
    hmembers ▸ (hperm.filter _).map _
  exact eq_of_perm_of_length_le hsame (length_members_le hnodup)

end Record

/-- The object of a record. -/
def Codec.record (r : Record T α) : Codec T α where
  write a := .obj (r.write a)
  read
    | .obj l => r.read l
    | _ => none
  arrive := r.arrive
  read_write := r.read_write

@[simp] theorem Codec.record_arrive (r : Record T α) (a : α) :
    (Codec.record r).arrive a = r.arrive a := rfl

/-! ### Variants -/

/-- An enumeration whose variants carry fields: the name of a value's variant and its fields. -/
structure Variants (T α : Type*) where
  names : List String
  keys : String → List String
  write : α → String × List (String × Doc T)
  read : String → List (String × Doc T) → Option α
  arrive : α → Option α
  name_mem : ∀ a, (write a).1 ∈ names
  read_of_perm : ∀ a l extra, (∀ e ∈ extra, e.1 ∉ keys (write a).1) →
    l.Perm ((write a).2 ++ extra) → read (write a).1 l = arrive a
  write_keys : ∀ a, ∀ e ∈ (write a).2, e.1 ∈ keys (write a).1

namespace Variants

/-- One variant. -/
def one (name : String) (r : Record T α) : Variants T α where
  names := [name]
  keys _ := r.keys
  write a := (name, r.write a)
  read s l := if s = name then r.read l else none
  arrive := r.arrive
  name_mem _ := List.mem_singleton.mpr rfl
  read_of_perm a l extra hextra hperm := by
    rw [if_pos rfl]
    exact r.read_of_perm hextra hperm
  write_keys _ _ he := r.key_mem he

@[simp] theorem one_arrive (name : String) (r : Record T α) (a : α) :
    (one name r).arrive a = r.arrive a := rfl

/-- The variants of two enumerations under different names. -/
def or (v : Variants T α) (w : Variants T β)
    (hapart : apart v.names w.names = true := by exact id rfl) : Variants T (α ⊕ β) where
  names := v.names ++ w.names
  keys n := if n ∈ v.names then v.keys n else w.keys n
  write
    | .inl a => v.write a
    | .inr b => w.write b
  read n l := if n ∈ v.names then (v.read n l).map .inl else (w.read n l).map .inr
  arrive
    | .inl a => (v.arrive a).map .inl
    | .inr b => (w.arrive b).map .inr
  name_mem
    | .inl a => List.mem_append_left _ (v.name_mem a)
    | .inr b => List.mem_append_right _ (w.name_mem b)
  read_of_perm
    | .inl a, l, extra, hextra, hperm => by
      have hmem := v.name_mem a
      rw [if_pos hmem] at hextra ⊢
      rw [v.read_of_perm a l extra hextra hperm]
    | .inr b, l, extra, hextra, hperm => by
      have hnot : (w.write b).1 ∉ v.names := fun hmem => not_mem_of_apart hapart hmem (w.name_mem b)
      rw [if_neg hnot] at hextra ⊢
      rw [w.read_of_perm b l extra hextra hperm]
  write_keys
    | .inl a, e, he => by
      rw [if_pos (v.name_mem a)]
      exact v.write_keys a e he
    | .inr b, e, he => by
      rw [if_neg fun hmem => not_mem_of_apart hapart hmem (w.name_mem b)]
      exact w.write_keys b e he

@[simp] theorem or_arrive_inl (v : Variants T α) (w : Variants T β)
    (hapart : apart v.names w.names = true) (a : α) :
    (v.or w hapart).arrive (.inl a) = (v.arrive a).map .inl := rfl

@[simp] theorem or_arrive_inr (v : Variants T α) (w : Variants T β)
    (hapart : apart v.names w.names = true) (b : β) :
    (v.or w hapart).arrive (.inr b) = (w.arrive b).map .inr := rfl

/-- The variants of a type, through the sum of their fields. -/
def map (v : Variants T α) (f : α → β) (g : β → α) : Variants T β where
  names := v.names
  keys := v.keys
  write b := v.write (g b)
  read n l := (v.read n l).map f
  arrive b := (v.arrive (g b)).map f
  name_mem b := v.name_mem (g b)
  read_of_perm b l extra hextra hperm := by rw [v.read_of_perm (g b) l extra hextra hperm]
  write_keys b := v.write_keys (g b)

@[simp] theorem map_arrive (v : Variants T α) (f : α → β) (g : β → α) (b : β) :
    (v.map f g).arrive b = (v.arrive (g b)).map f := rfl

end Variants

/-- Read an object that names its variant under a tag, once. -/
def readTagged (tag : String) (v : Variants T α) : Doc T → Option α
  | .obj l => match members tag l with
    | [.str name] => v.read name (l.filter (fun e => e.1 ≠ tag))
    | _ => none
  | _ => none

/-- **Compatibility.** Members of other keys, and another order, change nothing. -/
theorem readTagged_of_perm {tag : String} {v : Variants T α}
    (htag : (v.names.all fun n => apart [tag] (v.keys n)) = true)
    {a : α} {l extra : List (String × Doc T)}
    (hextra : ∀ e ∈ extra, e.1 ≠ tag ∧ e.1 ∉ v.keys (v.write a).1)
    (hperm : l.Perm ((tag, .str (v.write a).1) :: ((v.write a).2 ++ extra))) :
    readTagged tag v (.obj l) = v.arrive a := by
  have hothers : ∀ e ∈ (v.write a).2 ++ extra, e.1 ≠ tag := by
    intro e he
    rcases List.mem_append.mp he with he | he
    · have hapart := List.all_eq_true.mp htag _ (v.name_mem a)
      exact fun heq => not_mem_of_apart hapart (List.mem_singleton.mpr heq) (v.write_keys a e he)
    · exact (hextra e he).1
  have hcons : members tag ((tag, Doc.str (v.write a).1) :: ((v.write a).2 ++ extra)) =
      [.str (v.write a).1] := by
    rw [← List.singleton_append, members_append, members_singleton, members_eq_nil hothers]
    rfl
  have hname : members tag l = [.str (v.write a).1] :=
    eq_of_perm_of_length_le (hcons ▸ (hperm.filter _).map _) (le_refl 1)
  have hrest : (l.filter (fun e => e.1 ≠ tag)).Perm ((v.write a).2 ++ extra) := by
    refine (hperm.filter _).trans ?_
    rw [List.filter_cons_of_neg (by simp), List.filter_eq_self.mpr]
    exact fun e he => by simpa using hothers e he
  simp only [readTagged, hname]
  exact v.read_of_perm a _ extra (fun e he => (hextra e he).2) hrest

/-- An enumeration whose object names the variant under a tag, before its fields. -/
def Codec.tagged (tag : String) (v : Variants T α)
    (htag : (v.names.all fun n => apart [tag] (v.keys n)) = true := by exact id rfl) : Codec T α where
  write a := .obj ((tag, .str (v.write a).1) :: (v.write a).2)
  read := readTagged tag v
  arrive := v.arrive
  read_write a := readTagged_of_perm htag
    (fun e (he : e ∈ ([] : List (String × Doc T))) => absurd he List.not_mem_nil)
    (by rw [List.append_nil])

@[simp] theorem Codec.tagged_arrive (tag : String) (v : Variants T α)
    (htag : (v.names.all fun n => apart [tag] (v.keys n)) = true) (a : α) :
    (Codec.tagged tag v htag).arrive a = v.arrive a := rfl

/-! ### What arrives -/

/-- `a` is written as an object that is read as `b`, also beside members of unknown keys and in
    another order. -/
def Codec.Carries (c : Codec T α) (known : List String) (a : α) (b : Option α) : Prop :=
  ∃ w, c.write a = .obj w ∧
    ∀ l extra, (∀ e ∈ extra, e.1 ∉ known) → l.Perm (w ++ extra) → c.read (.obj l) = b

theorem Codec.carries_record (r : Record T α) (a : α) :
    (Codec.record r).Carries r.keys a (r.arrive a) :=
  ⟨r.write a, rfl, fun _ _ hextra hperm => r.read_of_perm hextra hperm⟩

/-- The keys an object of `a` may have: the tag and the fields of its variant. -/
def Variants.known (v : Variants T α) (tag : String) (a : α) : List String :=
  tag :: v.keys (v.write a).1

theorem Codec.carries_tagged (tag : String) (v : Variants T α)
    (htag : (v.names.all fun n => apart [tag] (v.keys n)) = true) (a : α) :
    (Codec.tagged tag v htag).Carries (v.known tag a) a (v.arrive a) :=
  ⟨_, rfl, fun _ _ hextra hperm => readTagged_of_perm htag
    (fun e he => ⟨fun heq => hextra e he (heq ▸ List.mem_cons_self),
      fun hmem => hextra e he (List.mem_cons_of_mem _ hmem)⟩) hperm⟩

end Lib
