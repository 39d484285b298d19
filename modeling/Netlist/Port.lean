import Netlist.OrderedMap

/-!
# Ports

A port is a named connection point of a module with a direction and a type. Its type is a bit
vector or a reference to a named record type.

## Main definitions

* `Netlist.Direction`, `Netlist.PortType`, `Netlist.Ports`.
* `Netlist.Interface`: a module's name with its declared ports.
* `Netlist.Endpoint`, `Netlist.Wire`: a port of an instance, and a wire between two of them.
-/

namespace Netlist

/-- The way data flows through a port, seen from the module that declares it. -/
inductive Direction where
  | input
  | output
deriving DecidableEq, Repr

namespace Direction

/-- The other direction. -/
def flip : Direction → Direction
  | input => output
  | output => input

/-- The keyword of a direction. -/
def text : Direction → String
  | input => "input"
  | output => "output"

@[simp] theorem flip_flip (d : Direction) : d.flip.flip = d := by
  cases d <;> rfl

end Direction

/-- The declared type of a port or of a field of a record type. -/
inductive PortType where
  /-- A bit vector; its width is legal if it is not zero. -/
  | bits (width : UInt32)
  /-- A reference to a named type. -/
  | named (name : String)
deriving DecidableEq, Repr

namespace PortType

/-- The name that a type refers to, if it is a reference. -/
def name? : PortType → Option String
  | bits _ => none
  | named name => some name

/-- A bit vector is written as a packed range, a reference by its name. A width of zero is
written like a width of one. -/
def text : PortType → String
  | bits width => s!"[{width.toNat - 1}:0]"
  | named name => name

end PortType

/-- Ports, or fields of a record, by name. -/
abbrev Ports := OrderedMap PortType

/-- The outside of a module: its name and the ports it declares. -/
structure Interface where
  /-- The module's name. -/
  name : String
  /-- The input ports in order of declaration. -/
  inputs : Ports
  /-- The output ports in order of declaration. -/
  outputs : Ports
deriving DecidableEq

/-- The ports with one direction. -/
def Interface.ports (i : Interface) : Direction → Ports
  | .input => i.inputs
  | .output => i.outputs

/-! ### Ends of wires -/

/-- A port of an instance. -/
structure Endpoint where
  /-- The name of the instance. -/
  owner : String
  /-- The name of the port. -/
  port : String
deriving DecidableEq, Repr

/-- An instance and a port, joined by a dot. -/
def Endpoint.text (e : Endpoint) : String :=
  s!"{e.owner}.{e.port}"

/-- A wire from an output port of one instance to an input port of another. -/
structure Wire where
  source : Endpoint
  dest : Endpoint
deriving DecidableEq, Repr

end Netlist
