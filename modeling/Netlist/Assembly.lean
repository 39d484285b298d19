import Netlist.Boundary
import Netlist.Catalog.Edit
import Netlist.Wiring

/-!
# Assembling composites

A composite is assembled from a graph of instances and a list of wires between its own ports and
theirs. Two instances are added for its ports; while they are wired they are bound to modules that
exist for this purpose only, so that each wire is checked like any other.

## Main definitions

* `Netlist.Assembly`: what a composite is made of.
* `Netlist.Assembly.wire`: the inside of the composite, while the two modules exist.
* `Netlist.Assembly.register`: register the composite.
-/

namespace Netlist

/-- What a composite is made of. -/
structure Assembly where
  /-- The module's name. -/
  name : String
  /-- The module's input ports. -/
  inputs : Ports
  /-- The module's output ports. -/
  outputs : Ports
  /-- The instances inside and their wiring. -/
  inside : Graph
  /-- For an input, the ports inside that it drives. -/
  inputSinks : OrderedMap (List Endpoint)
  /-- For an output, the port inside that drives it. -/
  outputSources : OrderedMap Endpoint
  /-- For an input, the output that it is handed through to. -/
  feedThrough : OrderedMap String

namespace Assembly

/-- The module that a boundary instance of a composite is bound to while it is wired. -/
def scaffold (a : Assembly) (block : String) : String :=
  a.name ++ "::" ++ block

/-- The wires that touch the boundary: those of the inputs, of the outputs and from inputs to
outputs. -/
def boundaryWires (b : Boundary) (a : Assembly) : List Wire :=
  (a.inputSinks.entries.flatMap fun e => e.2.map fun sink => ⟨⟨b.inputBlock, e.1⟩, sink⟩) ++
    (a.outputSources.entries.map fun e => ⟨e.2, ⟨b.outputBlock, e.1⟩⟩) ++
    a.feedThrough.entries.map fun e => ⟨⟨b.inputBlock, e.1⟩, ⟨b.outputBlock, e.2⟩⟩

/-- Add one wire. -/
def addWire (c : Catalog) (g : Graph) (w : Wire) : Except Error Graph :=
  g.connect c w.source.owner w.dest.owner [⟨w.source.port, w.dest.port⟩]

/-- The inside of the composite with its boundary instances, which are still bound to the modules
that exist for this purpose. -/
def wire (c : Catalog) (b : Boundary) (a : Assembly) : Except Error Graph := do
  let g ← a.inside.instantiate c b.inputBlock (a.scaffold b.inputBlock)
  let g ← g.instantiate c b.outputBlock (a.scaffold b.outputBlock)
  (a.boundaryWires b).foldlM (addWire c) g

/-- The inside of the composite, with its boundary instances bound to the composite itself. -/
def settle (b : Boundary) (a : Assembly) (g : Graph) : Except Error Graph := do
  let g ← g.relabel b.inputBlock a.name .inputBoundary
  g.relabel b.outputBlock a.name .outputBoundary

/-- The composite's name is new, and the instances in it have identifiers for names. -/
def check (c : Catalog) (a : Assembly) : Except Error Unit :=
  if c.contains a.name then .error (.duplicateModule a.name)
  else match a.inside.instances.find? fun i => !isIdentifier i.name with
    | some i => .error (.invalidInstanceName i.name)
    | none => .ok ()

open Catalog (Edit)

/-- Register the composite. The modules that its boundary instances are bound to for a while are
taken out again, whether or not the wiring succeeds. -/
def register (b : Boundary) (a : Assembly) : Edit Unit := do
  Edit.query fun c => a.check c
  Edit.add (a.scaffold b.inputBlock) ⟨.empty, a.inputs, none⟩
  try
    Edit.add (a.scaffold b.outputBlock) ⟨a.outputs, .empty, none⟩
  catch e =>
    let _ ← Edit.delete (a.scaffold b.inputBlock)
    throw e
  let wired ← Edit.query fun c => .ok (a.wire c b)
  let _ ← Edit.delete (a.scaffold b.inputBlock)
  let _ ← Edit.delete (a.scaffold b.outputBlock)
  let g ← liftExcept wired
  let g ← liftExcept (a.settle b g)
  Edit.add a.name ⟨a.inputs, a.outputs, some g⟩

end Assembly

end Netlist
