import Netlist.Graph.Change
import Netlist.Json.Printer
import Netlist.Json.Reader

/-!
# Documents of graphs

A graph is kept as a list of nodes and a list of links. The document tells nothing of slots: a
graph that is read back has its links in slots without gaps.

## Main definitions

* `Netlist.GraphDocument`: the document; `Netlist.GraphDocument.toJson` and
  `Netlist.GraphDocument.ofJson?` give it its written form.
* `Netlist.Graph.toDocument`, `Netlist.Graph.ofDocument`: between graphs and documents.
* `Netlist.Graph.toText`, `Netlist.Graph.ofText`: between graphs and texts.
-/

namespace Netlist

/-- The document of a graph. -/
structure GraphDocument where
  /-- Whether links have a direction. -/
  directed : Bool
  nodes : List Instance
  links : List Bundle
deriving DecidableEq, Repr

/-! ### Graphs and documents -/

namespace Graph

/-- The document of a graph: its instances in order and its links by slot. -/
def toDocument (g : Graph) : GraphDocument where
  directed := true
  nodes := g.instances
  links := g.connections.map Link.toBundle

/-- Add the links of a document. A link must bind some ports, and its ends must be nodes. -/
def addLinks (g : Graph) : List Bundle → Except Error Graph
  | [] => .ok g
  | l :: ls =>
    if l.bindings = [] then .error (.malformedDocument (.emptyLink l.source l.dest))
    else match g.connectUntyped l.source l.dest l.bindings with
      | .ok g => addLinks g ls
      | .error (.instanceNotFound name) => .error (.malformedDocument (.unknownNode name))
      | .error e => .error e

/-- The graph of a document, if links are directed, names are unique, links lead from node to
node and no port has two drivers. -/
def ofDocument (d : GraphDocument) : Except Error Graph := do
  if !d.directed then .error (.malformedDocument .undirected)
  (← d.nodes.foldlM insert empty).addLinks d.links

end Graph

/-! ### Documents and values -/

/-- The name of a role. -/
def Role.text : Role → String
  | cell => "cell"
  | inputBoundary => "input_boundary"
  | outputBoundary => "output_boundary"

/-- The role with a given name. -/
def Role.ofText? (s : String) : Option Role :=
  [cell, inputBoundary, outputBoundary].find? fun r => r.text = s

/-- The role that a value stands for: a name, or an object whose only member has that name and
no value. -/
def Role.ofJson? (j : Json) : Option Role :=
  match j with
  | .string (some name) => ofText? name
  | .object [(some name, .null)] => ofText? name
  | _ => none

namespace GraphDocument

/-- A node as a value. -/
def nodeToJson (i : Instance) : Json :=
  .ofMembers
    [("id", .text i.name), ("module_name", .text i.module), ("role", .text i.role.text)]

/-- The bindings of a link as a value. -/
def bindingsToJson (bs : List Binding) : Json :=
  .array (bs.map fun b => .array [.text b.source, .text b.dest])

/-- A link as a value. -/
def linkToJson (l : Bundle) : Json :=
  .ofMembers
    [("source", .text l.source), ("target", .text l.dest),
      ("port_connections", bindingsToJson l.bindings)]

/-- A document as a value. -/
def toJson (d : GraphDocument) : Json :=
  .ofMembers
    [("directed", .bool d.directed), ("nodes", .array (d.nodes.map nodeToJson)),
      ("links", .array (d.links.map linkToJson))]

/-- The node that a value stands for. Without a role it is a cell. -/
def nodeOfJson? (j : Json) : Option Instance := do
  match ← j.record? ["id", "module_name", "role"] with
  | [some name, some module, role] =>
    let role ← match role with
      | some role => Role.ofJson? role
      | none => some .cell
    return ⟨← name.text?, ← module.text?, role⟩
  | _ => none

/-- The binding that a value stands for: two texts. -/
def bindingOfJson? : Json → Option Binding
  | .array [source, dest] => do return ⟨← source.text?, ← dest.text?⟩
  | _ => none

/-- The link that a value stands for. -/
def linkOfJson? (j : Json) : Option Bundle := do
  match ← j.record? ["source", "target", "port_connections"] with
  | [some source, some dest, some bindings] =>
    return ⟨← source.text?, ← dest.text?, ← (← bindings.elements?).mapM bindingOfJson?⟩
  | _ => none

/-- The document that a value stands for. -/
def ofJson? (j : Json) : Option GraphDocument := do
  match ← j.record? ["directed", "nodes", "links"] with
  | [some directed, some nodes, some links] =>
    return ⟨← directed.bool?, ← (← nodes.elements?).mapM nodeOfJson?,
      ← (← links.elements?).mapM linkOfJson?⟩
  | _ => none

end GraphDocument

/-! ### Texts -/

namespace Graph

/-- The text of a graph. -/
def toText (g : Graph) : String :=
  g.toDocument.toJson.pretty

/-- The graph that a text stands for. -/
def ofText (s : String) : Except Error Graph :=
  match (Json.parse? s).bind GraphDocument.ofJson? with
  | some d => ofDocument d
  | none => .error .notADocument

end Graph

end Netlist
