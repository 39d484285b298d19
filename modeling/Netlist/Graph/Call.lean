import Netlist.Catalog.Edit
import Netlist.Wiring

/-!
# Calls that change a graph

A graph is changed by one call after the other. Each call has its own catalog, since the catalog
changes between calls as well, and a call that fails leaves the graph as it was.

## Main definitions

* `Netlist.Call`: a call with its arguments.
* `Netlist.Graph.instantiateWith`: add an instance, and load its module if need be.
* `Netlist.Graph.call`, `Netlist.Graph.after`: what one call and what several calls make of a graph.
-/

namespace Netlist

/-- What is asked for modules that are not registered. The answer tells whether it knows the
module. -/
abbrev Loader :=
  String → Catalog.Edit Bool

/-- The catalog after a loader was asked for a module, if the module was not registered. -/
def Catalog.loaded (load : Loader) (c : Catalog) (module : String) : Except Error Catalog :=
  if c.contains module then .ok c
  else match (load module).runOn c with
    | (.ok _, c) => .ok c
    | (.error e, _) => .error e

/-- A call of a change of a graph, with the catalog that it looks at. -/
inductive Call where
  | instantiate (c : Catalog) (name module : String)
  | instantiateWith (load : Loader) (c : Catalog) (name module : String)
  | relabel (name module : String) (role : Role)
  | connect (c : Catalog) (source dest : String) (bindings : List Binding)
  | remove (name : String)
  | removeOrphans (eligible : Instance → Bool)

namespace Graph

/-- Add an instance of a module under a new name, and let a loader define the module first if it is
not registered. -/
def instantiateWith (load : Loader) (c : Catalog) (g : Graph) (name module : String) :
    Except Error Graph := do
  if g.contains name then .error (.instanceExists name)
  g.instantiate (← c.loaded load module) name module

/-- What a call makes of a graph. -/
def call (g : Graph) : Call → Except Error Graph
  | .instantiate c name module => g.instantiate c name module
  | .instantiateWith load c name module => g.instantiateWith load c name module
  | .relabel name module role => g.relabel name module role
  | .connect c source dest bindings => g.connect c source dest bindings
  | .remove name => (g.remove name).map Prod.snd
  | .removeOrphans eligible => .ok (g.removeOrphans eligible)

/-- The graph after several calls, the first one first. A call that fails changes nothing. -/
def after (g : Graph) (calls : List Call) : Graph :=
  calls.foldl (fun g x => match g.call x with
    | .ok g => g
    | .error _ => g) g

end Graph

end Netlist
