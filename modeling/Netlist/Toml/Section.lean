import Netlist.Toml.Basic

/-!
# Tables from sections

A document is a list of assignments and headers. A header names the table to which the
assignments behind it belong; dotted keys reach into tables below it. Each table may be defined
once: by a header, by dotted keys or as a value. A table that headers only pass through may still
get a header of its own.

## Main definitions

* `Netlist.Toml.Assignment`, `Netlist.Toml.Section`: the parts of a document.
* `Netlist.Toml.tableOfAssignments?`: the table that assignments alone define.
* `Netlist.Toml.tableOfSections?`: the table that a document defines.
-/

namespace Netlist.Toml

/-- A value under a dotted key: the names of the tables on the way, and the key itself. -/
structure Assignment where
  path : List String
  key : String
  value : Value

/-- The kinds of headers. -/
inductive HeaderKind where
  /-- A table. -/
  | table
  /-- One more table of an array of tables. -/
  | element

/-- A header and the assignments behind it. -/
structure Section where
  kind : HeaderKind
  path : List String
  key : String
  body : List Assignment

/-- How a table came to be. -/
inductive Origin where
  /-- Headers pass through it. -/
  | passed
  /-- A header names it. -/
  | header
  /-- Dotted keys reach into it. -/
  | dotted
deriving DecidableEq

/-- A part of a document under construction. -/
inductive Node where
  | value (v : Value)
  | table (origin : Origin) (entries : List (String × Node))
  /-- An array of tables; the last one may still grow. -/
  | tables (before : List (List (String × Node))) (last : List (String × Node))

/-- Replace the node under a key, which must be there, or add one at the end. -/
def putNode (entries : List (String × Node)) (key : String) (node : Node) :
    List (String × Node) :=
  match entries with
  | [] => [(key, node)]
  | e :: es => if e.1 = key then (key, node) :: es else e :: putNode es key node

/-- Assign a value in the table with the given entries, which has the given origin. Dotted keys do
not reach into tables that a header names, and end in tables that dotted keys made. -/
def assign (entries : List (String × Node)) (origin : Origin) (key : String) (value : Value)
    (direct : Bool) : List String → Option (List (String × Node))
  | [] =>
    if (direct || origin = .dotted) && (entries.lookup key).isNone then
      some (entries ++ [(key, .value value)])
    else none
  | name :: path =>
    match entries.lookup name with
    | none =>
      (assign [] .dotted key value false path).map fun es =>
        putNode entries name (.table .dotted es)
    | some (.value _) => none
    | some (.tables before last) =>
      (assign last .header key value false path).map fun last =>
        putNode entries name (.tables before last)
    | some (.table below es) =>
      if below = .header then none
      else (assign es below key value false path).map fun es =>
        putNode entries name (.table below es)

/-- Make several assignments in a table. -/
def assignAll (entries : List (String × Node)) (body : List Assignment) :
    Option (List (String × Node)) :=
  body.foldlM (fun es a => assign es .header a.key a.value true a.path) entries

/-- Change the table that the names of a header lead to. -/
def within (f : List (String × Node) → Option (List (String × Node)))
    (entries : List (String × Node)) : List String → Option (List (String × Node))
  | [] => f entries
  | name :: path =>
    match entries.lookup name with
    | none => (within f [] path).map fun es => putNode entries name (.table .passed es)
    | some (.value _) => none
    | some (.tables before last) =>
      (within f last path).map fun last => putNode entries name (.tables before last)
    | some (.table origin es) =>
      (within f es path).map fun es => putNode entries name (.table origin es)

/-- Put the table of a section under its key. A header may name a table that headers passed
through before, and may add a table to an array of tables. -/
def putSection (s : Section) (entries : List (String × Node)) : Option (List (String × Node)) :=
  match s.kind, entries.lookup s.key with
  | .table, none => (assignAll [] s.body).map fun es => putNode entries s.key (.table .header es)
  | .table, some (.table .passed es) =>
    (assignAll es s.body).map fun es => putNode entries s.key (.table .header es)
  | .element, none => (assignAll [] s.body).map fun es => putNode entries s.key (.tables [] es)
  | .element, some (.tables before last) =>
    (assignAll [] s.body).map fun es => putNode entries s.key (.tables (before ++ [last]) es)
  | _, _ => none

/-- Add a section to a document. -/
def addSection (root : List (String × Node)) (s : Section) : Option (List (String × Node)) :=
  within (putSection s) root s.path

mutual

/-- The value of a finished part. -/
def Node.finish : Node → Value
  | .value v => v
  | .table _ entries => .table (finishEntries entries)
  | .tables before last => .array (finishTables before ++ [.table (finishEntries last)])

/-- The values of finished entries. -/
def finishEntries : List (String × Node) → List (String × Value)
  | [] => []
  | (key, node) :: es => (key, node.finish) :: finishEntries es

/-- The values of finished tables. -/
def finishTables : List (List (String × Node)) → List Value
  | [] => []
  | es :: ts => .table (finishEntries es) :: finishTables ts

end

/-- The table that assignments alone define. -/
def tableOfAssignments? (body : List Assignment) : Option Value :=
  (assignAll [] body).map fun entries => .table (finishEntries entries)

/-- The table that a document defines: the assignments in front of the first header, and the
sections. -/
def tableOfSections? (body : List Assignment) (sections : List Section) : Option Value := do
  let root ← assignAll [] body
  return .table (finishEntries (← sections.foldlM addSection root))

end Netlist.Toml
