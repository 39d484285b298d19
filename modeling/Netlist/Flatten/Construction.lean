import Netlist.Flatten.Basic
import Netlist.Graph.Call

/-!
# Construction of graphs

A graph is put together from the empty graph, step by step: by calls that change it, and by
flattening it.

## Main definitions

* `Netlist.Step`: a call or a flattening.
* `Netlist.Graph.build`: the graph after several steps, all of which succeed.
-/

namespace Netlist

/-- A step in the construction of a graph. -/
inductive Step where
  | call (x : Call)
  | flatten (c : Catalog) (b : Boundary)

namespace Graph

/-- What a step makes of a graph. -/
def step (g : Graph) : Step → Except Error Graph
  | .call x => g.call x
  | .flatten c b => c.flattenGraph b g

/-- The graph after several steps, the first one first. -/
def build (steps : List Step) : Except Error Graph :=
  steps.foldlM step empty

end Graph

end Netlist
