import Netlist.Document.Graph
import Netlist.Wiring

/-!
# Documents of catalogs

A catalog is kept with its types and modules in order; the inside of a composite is kept as the
document of a graph. A catalog that is read back is checked as a whole: types may refer to later
ones, and graphs to later modules.

## Main definitions

* `Netlist.CatalogDocument`: the document; `Netlist.CatalogDocument.toJson` and
  `Netlist.CatalogDocument.ofJson?` give it its written form.
* `Netlist.Catalog.toDocument`, `Netlist.Catalog.ofDocument`: between catalogs and documents.
* `Netlist.Catalog.toText`, `Netlist.Catalog.ofText`: between catalogs and texts.
-/

namespace Netlist

/-- The entry of a module. -/
structure ModuleRecord where
  inputs : Ports
  outputs : Ports
  isLeaf : Bool
  /-- The inside of a composite. -/
  body : Option GraphDocument
deriving DecidableEq

/-- The document of a catalog. -/
structure CatalogDocument where
  types : TypeTable
  modules : OrderedMap ModuleRecord
deriving DecidableEq

/-! ### Catalogs and documents -/

namespace Catalog

/-- The document of a catalog. -/
def toDocument (c : Catalog) : CatalogDocument where
  types := c.types
  modules := c.modules.map fun m => ⟨m.inputs, m.outputs, m.isLeaf, m.body.map Graph.toDocument⟩

/-- The inside of a module, which exactly the composites have. -/
def bodyOfRecord (name : String) (r : ModuleRecord) : Except Error (Option Graph) :=
  match r.isLeaf, r.body with
  | true, none => .ok none
  | false, some d => (Graph.ofDocument d).map some
  | true, some _ => .error (.malformedDocument (.leafWithGraph name))
  | false, none => .error (.malformedDocument (.compositeWithoutGraph name))

/-- Add the module of an entry. Its ports must be legal; its inside is not looked at. -/
def addRecord (c : Catalog) : String × ModuleRecord → Except Error Catalog
  | (name, r) => do
    let body ← bodyOfRecord name r
    if c.contains name then .error (.duplicateModule name)
    checkPorts c.types name r.inputs r.outputs
    return c.put name ⟨r.inputs, r.outputs, body⟩

/-- The insides of the composites, with their names. -/
def bodies (c : Catalog) : List (String × Graph) :=
  c.modules.entries.filterMap fun e => e.2.body.map (e.1, ·)

/-- The catalog of a document: first the types must be valid, then each module must be legal,
then the inside of every composite must be sound, and last no composite may contain itself. -/
def ofDocument (d : CatalogDocument) : Except Error Catalog := do
  d.types.validate
  let c ← d.modules.entries.foldlM addRecord (ofTypes d.types)
  c.bodies.forM fun b => b.2.validate c
  c.bodies.forM fun b => c.checkBody b.1 b.2
  return c

end Catalog

/-! ### Documents and values -/

/-- A port type as a value: its width or its name. -/
def PortType.toJson : PortType → Json
  | bits width => .number (some width.toNat)
  | named name => .text name

/-- The port type that a value stands for. -/
def PortType.ofJson? : Json → Option PortType
  | .number (some n) => if n < UInt32.size then some (bits (UInt32.ofNat n)) else none
  | .string (some name) => some (named name)
  | _ => none

namespace OrderedMap

variable {α : Type}

/-- A map as a value. -/
def toJson (f : α → Json) (m : OrderedMap α) : Json :=
  .ofMembers (m.entries.map fun e => (e.1, f e.2))

/-- The map that a value stands for. A later member replaces an earlier one of its name. -/
def ofJson? (f : Json → Option α) (j : Json) : Option (OrderedMap α) := do
  let es ← (← j.members?).mapM fun m => (f m.2).map (m.1, ·)
  return ofList es

end OrderedMap

namespace CatalogDocument

/-- Ports as a value. -/
def portsToJson (ports : Ports) : Json :=
  ports.toJson PortType.toJson

/-- The ports that a value stands for. -/
def portsOfJson? (j : Json) : Option Ports :=
  OrderedMap.ofJson? PortType.ofJson? j

/-- Named types as a value. -/
def typesToJson (types : TypeTable) : Json :=
  types.toJson portsToJson

/-- The named types that a value stands for. -/
def typesOfJson? (j : Json) : Option TypeTable :=
  OrderedMap.ofJson? portsOfJson? j

/-- A module as a value. -/
def moduleToJson (r : ModuleRecord) : Json :=
  .ofMembers
    [("input_ports", portsToJson r.inputs), ("output_ports", portsToJson r.outputs),
      ("is_leaf", .bool r.isLeaf),
      ("internal_graph", match r.body with
        | some d => d.toJson
        | none => .null)]

/-- A document as a value. -/
def toJson (d : CatalogDocument) : Json :=
  .ofMembers [("types", typesToJson d.types), ("modules", d.modules.toJson moduleToJson)]

/-- The module that a value stands for. The inside may be missing or null. -/
def moduleOfJson? (j : Json) : Option ModuleRecord := do
  match ← j.record? ["input_ports", "output_ports", "is_leaf", "internal_graph"] with
  | [some inputs, some outputs, some isLeaf, body] =>
    let body ← match body with
      | none | some .null => some none
      | some body => (GraphDocument.ofJson? body).map some
    return ⟨← portsOfJson? inputs, ← portsOfJson? outputs, ← isLeaf.bool?, body⟩
  | _ => none

/-- The document that a value stands for. The types may be missing. -/
def ofJson? (j : Json) : Option CatalogDocument := do
  match ← j.record? ["types", "modules"] with
  | [types, some modules] =>
    let types ← match types with
      | some types => typesOfJson? types
      | none => some .empty
    return ⟨types, ← OrderedMap.ofJson? moduleOfJson? modules⟩
  | _ => none

end CatalogDocument

/-! ### Texts -/

/-- The named types that a text stands for, not validated. -/
def TypeTable.ofText (s : String) : Except Error TypeTable :=
  match (Json.parse? s).bind CatalogDocument.typesOfJson? with
  | some t => .ok t
  | none => .error .notADocument

/-- The port type that a text stands for. -/
def PortType.ofText (s : String) : Except Error PortType :=
  match (Json.parse? s).bind PortType.ofJson? with
  | some t => .ok t
  | none => .error .notADocument

namespace Catalog

/-- The text of a catalog. -/
def toText (c : Catalog) : String :=
  c.toDocument.toJson.pretty

/-- The catalog that a text stands for. -/
def ofText (s : String) : Except Error Catalog :=
  match (Json.parse? s).bind CatalogDocument.ofJson? with
  | some d => ofDocument d
  | none => .error .notADocument

end Catalog

end Netlist
