import Netlist.Catalog.Basic
import Netlist.Graph.Change

/-!
# Wiring instances of catalogued modules

A graph is sound with respect to a catalog if its instances are bound to registered modules and
every wire leads from an output port to an input port of a type with the same shape, each as seen
through the role of its instance, and no input port has two drivers. The changes of this module
keep a graph sound; `Netlist.Graph.validate` tests it.

## Main definitions

* `Netlist.Graph.portType`: the type of a port as an instance offers it.
* `Netlist.Graph.instantiate`, `Netlist.Graph.connect`: checked changes.
* `Netlist.Graph.validate`: the test of a whole graph.
-/

namespace Netlist.Graph

/-- The type of a port of an instance that is used in a direction. -/
def portType (c : Catalog) (i : Instance) (port : String) (used : Direction) :
    Except Error PortType :=
  match c.module? i.module with
  | none => .error (.moduleNotFound i.module)
  | some m =>
    match (i.role.declared? used).bind (m.port? port) with
    | some type => .ok type
    | none => .error (.portNotFound ⟨i.name, port⟩ i.module used)

/-- The two ports of a binding exist and have types of the same shape. -/
def checkBinding (c : Catalog) (source dest : Instance) (b : Binding) : Except Error Unit := do
  let sourceType ← portType c source b.source .output
  let destType ← portType c dest b.dest .input
  if c.types.Alike sourceType destType then .ok ()
  else
    .error (.portTypeMismatch ⟨source.name, b.source⟩ sourceType ⟨dest.name, b.dest⟩ destType)

/-- Add an instance of a registered module under a new name. -/
def instantiate (c : Catalog) (g : Graph) (name module : String) : Except Error Graph :=
  if g.contains name then .error (.instanceExists name)
  else if c.contains module then .ok (g.push ⟨name, module, .cell⟩)
  else .error (.moduleNotFound module)

/-- Each binding is sound, and the port where it ends has no driver in the graph and none among
the bindings before it, which are `seen`. -/
def checkBindings (c : Catalog) (g : Graph) (source dest : Instance) (seen : List Binding) :
    List Binding → Except Error Unit
  | [] => .ok ()
  | b :: bs => do
    checkBinding c source dest b
    match g.driver? dest.name b.dest with
    | some driver => .error (.portAlreadyDriven ⟨dest.name, b.dest⟩ driver)
    | none =>
      match seen.find? fun s => s.dest = b.dest with
      | some s => .error (.portAlreadyDriven ⟨dest.name, b.dest⟩ ⟨source.name, s.source⟩)
      | none => checkBindings c g source dest (seen ++ [b]) bs

/-- Connect output ports of one instance to input ports of another. -/
def connect (c : Catalog) (g : Graph) (source dest : String) (bindings : List Binding) :
    Except Error Graph := do
  let from_ ← g.find source
  let to_ ← g.find dest
  checkBindings c g from_ to_ [] bindings
  return g.bind source dest bindings

/-! ### The test of a whole graph -/

/-- Each wire is sound, and the port where it ends is not among those `driven`. The answer is
`driven` with the ports where the wires end. -/
def checkWires (c : Catalog) (source dest : Instance) (driven : List Endpoint) :
    List Binding → Except Error (List Endpoint)
  | [] => .ok driven
  | b :: bs => do
    checkBinding c source dest b
    if ⟨dest.name, b.dest⟩ ∈ driven then
      .error (.portAlreadyDriven ⟨dest.name, b.dest⟩ ⟨source.name, b.source⟩)
    else checkWires c source dest (⟨dest.name, b.dest⟩ :: driven) bs

/-- The wires of all links are sound. -/
def checkLinks (c : Catalog) (g : Graph) (driven : List Endpoint) :
    List Link → Except Error Unit
  | [] => .ok ()
  | l :: ls => do
    let source ← g.find l.source
    let dest ← g.find l.dest
    let driven ← checkWires c source dest driven l.bindings
    checkLinks c g driven ls

/-- Every instance is bound to a registered module, and every wire is sound. -/
def validate (c : Catalog) (g : Graph) : Except Error Unit := do
  g.instances.forM fun i =>
    if c.contains i.module then .ok () else .error (.moduleNotFound i.module)
  checkLinks c g [] g.connections

end Netlist.Graph
