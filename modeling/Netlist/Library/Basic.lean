import Netlist.Assembly
import Netlist.Description.Reader
import Netlist.Library.Order

/-!
# Libraries of descriptions

A library holds descriptions of composites by name. A composite is assembled when it is asked for,
after the composites that it needs.

## Main definitions

* `Netlist.Library`: the descriptions; `Netlist.Library.ofDescriptions` and `Netlist.Library.scan`
  collect them.
* `Netlist.Library.buildOrder`: the composites to assemble for a given one, in order.
* `Netlist.Library.build`, `Netlist.Library.loadAll`, `Netlist.Library.load`: assemble composites.
* `Netlist.Library.instantiate`: add an instance, and assemble its module if need be.
-/

namespace Netlist

/-- A description and the file it comes from, if it comes from one. -/
structure Library.Entry where
  description : Description
  path : Option String
deriving DecidableEq

/-- Descriptions by name. -/
structure Library where
  /-- The names at the boundary of the composites. -/
  boundary : Boundary
  entries : OrderedMap Library.Entry

namespace Library

/-- The library without descriptions. -/
def empty (b : Boundary) : Library :=
  ⟨b, .empty⟩

/-- The names of the described composites in order. -/
def names (l : Library) : List String :=
  l.entries.keys

/-- Whether a composite is described. -/
def contains (l : Library) (name : String) : Bool :=
  l.entries.contains name

/-- The description of a composite. -/
def description? (l : Library) (name : String) : Option Description :=
  (l.entries.get? name).map Entry.description

/-- The file that a description comes from. -/
def path? (l : Library) (name : String) : Option String :=
  (l.entries.get? name).bind Entry.path

/-! ### Collecting descriptions -/

/-- Add a description of a composite that is not described yet. -/
def insert (l : Library) (d : Description) (path : Option String) : Except Error Library :=
  match l.entries.get? d.name with
  | none => .ok { l with entries := l.entries.insert d.name ⟨d, path⟩ }
  | some e =>
    match e.path, path with
    | some first, some second => .error (.descriptorLoadFailure second (.definedIn d.name first))
    | _, _ => .error (.descriptorLoadFailure d.name .describedTwice)

/-- The library of several descriptions. -/
def ofDescriptions (b : Boundary) (ds : List Description) : Except Error Library :=
  ds.foldlM (fun l d => l.insert d none) (empty b)

/-- Add the description in a file. -/
def insertFile (files : FileTree) (l : Library) (path : String) : Except Error Library := do
  let failure (cause : LoadFailure) : Error := .descriptorLoadFailure path cause
  let text ← (files.read path).mapError fun e => failure (.unreadable e)
  let d ← (Description.ofText text).mapError fun e => failure (.description e)
  l.insert d (some path)

/-- The library of the descriptions in a directory, in the order of their files' names. If there
is no directory, it is empty. -/
def scan (files : FileTree) (dir : String) (b : Boundary) : Except Error Library :=
  (files.filesIn dir ["toml"]).foldlM (insertFile files) (empty b)

/-! ### The order of assembly -/

/-- Those of several modules that are not registered. All of them must be described. -/
def missing (c : Catalog) (l : Library) : List String → Except Error (List String)
  | [] => .ok []
  | m :: ms =>
    if c.contains m then missing c l ms
    else if l.contains m then (missing c l ms).map (m :: ·)
    else .error (.moduleNotFound m)

/-- The modules that a described composite instantiates and that are not registered. All of them
must be described. -/
def prerequisites (c : Catalog) (l : Library) (name : String) : Except Error (List String) :=
  match l.description? name with
  | none => .ok []
  | some d => l.missing c d.dependencies

/-- The prerequisites of a composite, or none if one of them is not described. -/
def needs (c : Catalog) (l : Library) (name : String) : List String :=
  match l.prerequisites c name with
  | .ok ms => ms
  | .error _ => []

theorem mem_names_of_description? {l : Library} {name : String} {d : Description}
    (h : l.description? name = some d) : name ∈ l.names := by
  obtain ⟨e, he, _⟩ := Option.map_eq_some_iff.1 h
  exact OrderedMap.mem_keys_of_get? he

/-- The names in `found` and all that are reached over prerequisites from those in `pending`, in
the order in which they are taken from there, the last one added first. -/
def closure (c : Catalog) (l : Library) (found : List String) (pending : List String) :
    Except Error (List String) :=
  match pending with
  | [] => .ok found
  | m :: ms =>
    if m ∈ found then closure c l found ms
    else match _h : l.description? m with
      | none => closure c l (found ++ [m]) ms
      | some d =>
        match l.missing c d.dependencies with
        | .error e => .error e
        | .ok needs =>
          closure c l (found ++ [m]) ((needs.filter (· ∉ found ++ [m])).reverse ++ ms)
termination_by (unvisited l.names found, pending.length)
decreasing_by
  · exact Prod.Lex.right _ (by simp)
  · by_cases hm : m ∈ l.names
    · exact Prod.Lex.left _ _ (unvisited_append_lt hm (by assumption))
    · rw [unvisited_append_of_not_mem hm]
      exact Prod.Lex.right _ (by simp)
  · exact Prod.Lex.left _ _ (unvisited_append_lt (mem_names_of_description? _h) (by assumption))

/-- The composites to assemble for a given one, each behind those that it needs. -/
def buildOrder (c : Catalog) (l : Library) (name : String) : Except Error (List String) := do
  if c.contains name then return []
  if !l.contains name then .error (.moduleNotFound name)
  let members ← l.closure c [] [name]
  let needs := l.needs c
  match members.find? fun m => m ∈ needs m with
  | some m => .error (.cyclicContainment [m, m])
  | none =>
    let order := Order.candidate members needs
    match Order.misplaced? needs [] order with
    | none => return order
    | some m =>
      .error (.cyclicContainment
        ((Order.firstCycle? members needs (m :: members)).getD [m, m]))

/-! ### Assembling -/

open Catalog (Edit)

/-- The graph inside a described composite, without its boundary. -/
def inside (c : Catalog) (d : Description) : Except Error Graph := do
  let g ← d.cells.foldlM (fun g i => g.instantiate c i.name i.module) Graph.empty
  d.connections.foldlM
    (fun g l => g.connect c l.source l.dest (l.ports.pairs.map fun p => ⟨p.1, p.2⟩)) g

/-- What a described composite is made of, apart from the graph inside it. -/
def assembly (d : Description) (g : Graph) : Assembly where
  name := d.name
  inputs := d.inputs
  outputs := d.outputs
  inside := g
  inputSinks := d.inputSinks
  outputSources := d.outputSources
  feedThrough := d.feedThrough

/-- Assemble one composite. -/
def buildOne (b : Boundary) (d : Description) : Edit Unit := do
  let g ← Edit.query fun c => inside c d
  (assembly d g).register b

/-- Assemble a composite after those that it needs; the answer lists them. If one cannot be
assembled, those before it stay registered. -/
def build (l : Library) (name : String) : Edit (List String) := do
  let order ← Edit.query fun c => l.buildOrder c name
  order.forM fun m =>
    match l.description? m with
    | some d => buildOne l.boundary d
    | none => pure ()
  return order

/-- Assemble each of several composites that is not registered yet; the answer is the number of
those that were assembled. -/
def buildAll (l : Library) : List String → Edit Nat
  | [] => return 0
  | name :: names => do
    if (← get).contains name then buildAll l names
    else
      let built ← l.build name
      return built.length + (← buildAll l names)

/-- Assemble every described composite that is not registered yet. -/
def loadAll (l : Library) : Edit Nat :=
  l.buildAll l.names

/-- Assemble a composite if it is described; the answer tells whether it is. -/
def load (l : Library) (name : String) : Edit Bool := do
  if l.contains name then
    let _ ← l.build name
    return true
  else return false

/-- Add an instance to a graph. If its module is not registered, it is assembled first. -/
def instantiate (l : Library) (g : Graph) (name module : String) : Edit Graph := do
  if g.contains name then throw (.instanceExists name)
  if !(← get).contains module then
    let _ ← l.load module
  Edit.query fun c => g.instantiate c name module

end Library

end Netlist
