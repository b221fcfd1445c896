import Mathlib.Data.Nat.Notation

namespace Mielofon

/-!
# JSON

The answers of `nft` and of the node's bus, as far as the agent reads them: objects, arrays,
strings and natural numbers.

* `Json` — a value, and its readers `get`, `as_array`, `as_str`, `as_u64`;
* `Json.index`, `Json.items` — a field, and the elements of an array, where there are none too.
-/

/-- A JSON value.  A number that is no natural one is of no use to the reader. -/
inductive Json where
  | null
  | bool (b : Bool)
  | nat (n : ℕ)
  | number
  | str (s : String)
  | arr (items : List Json)
  | obj (fields : List (String × Json))

namespace Json

def get (j : Json) (key : String) : Option Json :=
  match j with
  | obj fields => fields.lookup key
  | _ => none

def as_array : Json → Option (List Json)
  | arr items => some items
  | _ => none

def as_str : Json → Option String
  | str s => some s
  | _ => none

def as_u64 : Json → Option ℕ
  | nat n => some n
  | _ => none

/-- The field `key`; null when there is none. -/
def index (j : Json) (key : String) : Json := (j.get key).getD .null

/-- The elements of an array; none of anything else. -/
def items (j : Json) : List Json := j.as_array.getD []

end Json

end Mielofon
