/-!
# JSON values

## Main definitions

* `Netlist.Json`: the values, as far as documents can tell them apart.
* `Netlist.Json.Token`: the tokens of a text.
* `Netlist.Json.record?`: the parts of a value that stands for a record with named fields.
-/

namespace Netlist

/-- A JSON value. -/
inductive Json where
  | null
  | bool (b : Bool)
  /-- A number, if it is written as a natural number: without sign, fraction and exponent. -/
  | number (value : Option Nat)
  /-- A text, if there is one: an escape may stand for half a surrogate pair. -/
  | string (content : Option String)
  | array (elements : List Json)
  /-- Members in order; a name may occur twice. -/
  | object (members : List (Option String × Json))
deriving Inhabited

namespace Json

/-- A text. -/
def text (s : String) : Json :=
  string (some s)

/-- An object with given names. -/
def ofMembers (members : List (String × Json)) : Json :=
  object (members.map fun m => (some m.1, m.2))

/-- The tokens of a text. -/
inductive Token where
  | openArray
  | closeArray
  | openObject
  | closeObject
  | comma
  | colon
  | null
  | bool (b : Bool)
  | number (value : Option Nat)
  | string (content : Option String)
deriving DecidableEq, Repr

/-! ### Looking into values -/

/-- The text of a value, if it is one. -/
def text? : Json → Option String
  | string content => content
  | _ => none

/-- The truth value of a value, if it is one. -/
def bool? : Json → Option Bool
  | bool b => some b
  | _ => none

/-- The elements of a value, if it is an array. -/
def elements? : Json → Option (List Json)
  | array elements => some elements
  | _ => none

/-- The members of an object whose names are all texts. -/
def members? : Json → Option (List (String × Json))
  | object members => members.mapM fun m => m.1.map (·, m.2)
  | _ => none

/-- What each field of a record is given as, by the members of an object: each field at most
once. Other members are skipped. -/
def fieldsOfMembers? (fields : List String) (members : List (String × Json)) :
    Option (List (Option Json)) :=
  fields.mapM fun field =>
    match members.filter fun m => m.1 = field with
    | [] => some none
    | [m] => some (some m.2)
    | _ => none

/-- What each field of a record is given as, by the elements of an array: the first ones, in
order. -/
def fieldsOfElements? (fields : List String) (elements : List Json) :
    Option (List (Option Json)) :=
  if elements.length ≤ fields.length then
    some (elements.map some ++ List.replicate (fields.length - elements.length) none)
  else none

/-- What each field of a record is given as. A record is written as an object or as an array of
its fields in order; fields may be missing. -/
def record? (fields : List String) (j : Json) : Option (List (Option Json)) :=
  match j with
  | array elements => fieldsOfElements? fields elements
  | object _ => j.members?.bind (fieldsOfMembers? fields)
  | _ => none

end Json

end Netlist
