import Mathlib.Algebra.Field.Basic
import Mathlib.Data.List.Basic

namespace Lib

/-!
# JSON documents

A document as its text has it: an object keeps the order of its members, and may repeat a key.
Numbers are integers, or of a type `F` when they are written with a fraction or an exponent.

* `Doc` — a document;
* `Doc.index` — the member of an object that a reader of values sees, the last one of its key;
* `Doc.as_str`, `Doc.is_number`, `Doc.as_f64` — what a value is.
-/

inductive Doc (F : Type*) where
  | null
  | bool (b : Bool)
  | int (z : ℤ)
  | float (x : F)
  | str (s : String)
  | arr (items : List (Doc F))
  | obj (fields : List (String × Doc F))

namespace Doc

variable {F : Type*}

/-- The member `key`, the last one if it is repeated; null when there is none. -/
def index (doc : Doc F) (key : String) : Doc F :=
  match doc with
  | obj fields => (fields.reverse.lookup key).getD null
  | _ => null

def as_str : Doc F → Option String
  | str s => some s
  | _ => none

def is_number : Doc F → Bool
  | int _ => true
  | float _ => true
  | _ => false

def as_f64 [IntCast F] : Doc F → Option F
  | int z => some z
  | float x => some x
  | _ => none

theorem as_f64_isSome [IntCast F] (doc : Doc F) : doc.as_f64.isSome = doc.is_number := by
  cases doc <;> rfl

end Doc

end Lib
