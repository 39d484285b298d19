/-!
# TOML values

## Main definitions

* `Netlist.Toml.Value`: the values of a TOML document.
* `Netlist.Toml.Value.table?`, `Netlist.Toml.Value.fields?`: the entries of a table and the parts of
  a record with named fields.
-/

namespace Netlist.Toml

/-- A TOML value. -/
inductive Value where
  | string (s : String)
  | integer (n : Int)
  /-- A floating-point number; no use is made of its value. -/
  | real
  | bool (b : Bool)
  /-- A date, a time or both, in the standard notation. -/
  | date (text : String)
  | array (elements : List Value)
  /-- Entries in order, with distinct keys. -/
  | table (entries : List (String × Value))
deriving Inhabited

namespace Value

/-- The text of a value, if it is one. -/
def text? : Value → Option String
  | string s => some s
  | _ => none

/-- The elements of a value, if it is an array. -/
def elements? : Value → Option (List Value)
  | array elements => some elements
  | _ => none

/-- The reserved key under which a date holds its text where a table is asked for. -/
def dateKey : String :=
  "$__toml_private_datetime"

/-- The entries of a value, if it can be taken for a table. A date can: it has one entry. -/
def table? : Value → Option (List (String × Value))
  | table entries => some entries
  | date text => some [(dateKey, string text)]
  | _ => none

/-- What each field of a record is given as. A record is a table, or an array of its fields in
order, of which the last ones may be missing and which may be followed by others. If the record is
`closed`, a table must have no other keys. -/
def fields? (closed : Bool) (fields : List String) (v : Value) : Option (List (Option Value)) :=
  match v with
  | array elements => some (fields.mapIdx fun n _ => elements[n]?)
  | _ => do
    let entries ← v.table?
    if closed && entries.any fun e => e.1 ∉ fields then none
    return fields.map fun field => entries.lookup field

end Value

end Netlist.Toml
