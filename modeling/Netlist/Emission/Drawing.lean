import Netlist.Document.Graph
import Netlist.Wiring

/-!
# Drawings of graphs

A drawing shows each instance with all ports that its role lets it use, and each link with its
wires, both labelled with types.

## Main definitions

* `Netlist.Drawing`: the drawing; `Netlist.Drawing.toText` is its written form.
* `Netlist.Graph.draw`: the drawing of a graph.
-/

namespace Netlist

namespace Drawing

/-- A port at a node. -/
structure Port where
  name : String
  /-- The direction in which the port is used in the graph. -/
  direction : Direction
  label : String
deriving DecidableEq, Repr

/-- An instance with its ports, inputs first. -/
structure Node where
  name : String
  module : String
  role : Role
  ports : List Port
deriving DecidableEq, Repr

/-- A wire, labelled with the type of its source. -/
structure Wire where
  source : String
  dest : String
  label : String
deriving DecidableEq, Repr

/-- A link with its wires. -/
structure Edge where
  source : String
  dest : String
  wires : List Wire
deriving DecidableEq, Repr

end Drawing

/-- The drawing of a graph. -/
structure Drawing where
  nodes : List Drawing.Node
  edges : List Drawing.Edge
deriving DecidableEq, Repr

namespace Graph

/-- The ports that an instance lets be used in a direction. -/
def drawPorts (m : Module) (role : Role) (used : Direction) : List Drawing.Port :=
  match role.declared? used with
  | none => []
  | some d => (m.ports d).entries.map fun e => ⟨e.1, used, e.2.text⟩

/-- The node of an instance. Its module must be registered. -/
def drawNode (c : Catalog) (i : Instance) : Except Error Drawing.Node :=
  match c.module? i.module with
  | none => .error (.moduleNotFound i.module)
  | some m =>
    .ok ⟨i.name, i.module, i.role, drawPorts m i.role .input ++ drawPorts m i.role .output⟩

/-- The edge of a link. The ports where its wires begin must exist. -/
def drawEdge (c : Catalog) (g : Graph) (l : Link) : Except Error Drawing.Edge := do
  let source ← g.find l.source
  let wires ← l.bindings.mapM fun b => do
    let type ← portType c source b.source .output
    return (⟨b.source, b.dest, type.text⟩ : Drawing.Wire)
  return ⟨l.source, l.dest, wires⟩

/-- The drawing of a graph. -/
def draw (c : Catalog) (g : Graph) : Except Error Drawing := do
  let nodes ← g.instances.mapM (drawNode c)
  let edges ← g.connections.mapM (drawEdge c g)
  return ⟨nodes, edges⟩

end Graph

/-! ### The written form -/

namespace Drawing

/-- A port as a value. -/
def portToJson (p : Port) : Json :=
  .ofMembers
    [("name", .text p.name), ("direction", .text p.direction.text),
      ("type_label", .text p.label)]

/-- A node as a value. -/
def nodeToJson (n : Node) : Json :=
  .ofMembers
    [("instance", .text n.name), ("module", .text n.module), ("role", .text n.role.text),
      ("ports", .array (n.ports.map portToJson))]

/-- A wire as a value. -/
def wireToJson (w : Wire) : Json :=
  .ofMembers
    [("source_port", .text w.source), ("dest_port", .text w.dest), ("type_label", .text w.label)]

/-- An edge as a value. -/
def edgeToJson (e : Edge) : Json :=
  .ofMembers
    [("source", .text e.source), ("dest", .text e.dest),
      ("wires", .array (e.wires.map wireToJson))]

/-- A drawing as a value. -/
def toJson (d : Drawing) : Json :=
  .ofMembers
    [("nodes", .array (d.nodes.map nodeToJson)), ("edges", .array (d.edges.map edgeToJson))]

/-- The text of a drawing. -/
def toText (d : Drawing) : String :=
  d.toJson.pretty

end Drawing

end Netlist
