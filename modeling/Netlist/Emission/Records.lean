import Netlist.Graph.Basic

/-!
# Cells with their wiring

A writer of hardware descriptions prints one statement for each cell, with what each of its ports
is wired to.

## Main definitions

* `Netlist.CellRecord`: a cell and the peers of its ports.
* `Netlist.Graph.records`: the cells of a graph.
-/

namespace Netlist

/-- What a port of a cell is wired to. -/
inductive Peer where
  /-- A port of another cell. -/
  | cell (port : Endpoint)
  /-- A port of the enclosing module. -/
  | modulePort (port : String)
deriving DecidableEq, Repr

/-- The peer that a port of an instance is: a boundary instance stands for the enclosing module. -/
def Peer.ofPort (i : Instance) (port : String) : Peer :=
  if i.role.isBoundary then modulePort port else cell ⟨i.name, port⟩

/-- A cell and what its ports are wired to. An output may occur several times. -/
structure CellRecord where
  /-- The name of the cell. -/
  name : String
  /-- The module that the cell is bound to. -/
  module : String
  peers : List (String × Peer)
deriving DecidableEq, Repr

namespace Graph

/-- What a link tells of the ports of an instance: where it ends first, then where it begins. -/
def peersIn (g : Graph) (name : String) (l : Link) : List (String × Peer) :=
  (match if l.dest = name then g.instance? l.source else none with
    | some i => l.bindings.map fun b => (b.dest, .ofPort i b.source)
    | none => []) ++
  match if l.source = name then g.instance? l.dest else none with
    | some i => l.bindings.map fun b => (b.source, .ofPort i b.dest)
    | none => []

/-- The cells of a graph in order. -/
def records (g : Graph) : List CellRecord :=
  (g.instances.filter fun i => !i.role.isBoundary).map fun i =>
    ⟨i.name, i.module, g.connections.flatMap (g.peersIn i.name)⟩

end Graph

end Netlist
