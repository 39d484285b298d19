import Netlist.Boundary
import Netlist.Flatten.Terminals
import Netlist.Wiring

/-!
# Inlining one composite

An instance of a composite is replaced by the cells inside the composite, under joined names. Each
wire that ended at the instance goes on to what its port drives inside, and each wire that began
there comes from what drives its port.

## Main definitions

* `Netlist.Inline.rewired`: the wires across the boundary, bundled by their new ends.
* `Netlist.Graph.inline`: the graph with the composite inlined.
-/

namespace Netlist

namespace Inline

/-- Put a binding into the bundle between two instances, or in a new bundle at the end. -/
def addBinding (source dest : String) (b : Binding) : List Bundle → List Bundle
  | [] => [⟨source, dest, [b]⟩]
  | l :: ls =>
    if l.source = source ∧ l.dest = dest then { l with bindings := l.bindings ++ [b] } :: ls
    else l :: addBinding source dest b ls

/-- Bundle wires by the instances at their ends, in the order in which pairs of instances first
occur. -/
def bundle (ws : List Wire) : List Bundle :=
  ws.foldl (fun ls w => addBinding w.source.owner w.dest.owner ⟨w.source.port, w.dest.port⟩ ls) []

/-- The same port under the name that its owner gets inside the instance `name`. -/
def inner (b : Boundary) (name : String) (e : Endpoint) : Endpoint :=
  ⟨b.join name e.owner, e.port⟩

/-- The wires that come about from one that touches the instance `name`: one for each port that it
goes on to, or none if it has no source. -/
def reroute (b : Boundary) (g : Graph) (name : String) (t : Terminals) (w : Wire) : List Wire :=
  let source :=
    if w.source.owner = name then t.source? g name (inner b name) [] w.source.port
    else some w.source
  match source with
  | none => []
  | some source =>
    let dests :=
      if w.dest.owner = name then (t.sinksOf w.dest.port).map (inner b name) else [w.dest]
    dests.map fun dest => ⟨source, dest⟩

/-- The wires that touch an instance: those that end there, and then the others that begin
there. -/
def touching (g : Graph) (name : String) : List Wire :=
  (g.incoming name ++ (g.outgoing name).filter (·.dest ≠ name)).flatMap fun l => l.wires

/-- The wires across the boundary of the instance `name`, bundled by their new ends. -/
def rewired (b : Boundary) (g : Graph) (name : String) (t : Terminals) : List Bundle :=
  bundle ((touching g name).flatMap (reroute b g name t))

/-- The cells inside a composite. -/
def cells (sub : Graph) : List Instance :=
  sub.instances.filter Instance.isCell

/-- Whether an instance is a cell. -/
def isCell (sub : Graph) (name : String) : Bool :=
  (sub.instance? name).any Instance.isCell

/-- The links between cells inside a composite, under joined names. -/
def innerBundles (b : Boundary) (name : String) (sub : Graph) : List Bundle :=
  (sub.connections.filter fun l => isCell sub l.source && isCell sub l.dest).map fun l =>
    ⟨b.join name l.source, b.join name l.dest, l.bindings⟩

/-- None of the names that inlining creates is taken. -/
def checkNames (b : Boundary) (g : Graph) (name : String) (sub : Graph) : Except Error Unit :=
  (cells sub).forM fun i =>
    if g.contains (b.join name i.name) then .error (.nameCollision (b.join name i.name) name)
    else .ok ()

/-- Add bundles of wires, each checked. -/
def connectAll (c : Catalog) (g : Graph) (ls : List Bundle) : Except Error Graph :=
  ls.foldlM (fun g l => g.connect c l.source l.dest l.bindings) g

end Inline

open Inline

/-- Replace the instance `name` by what is inside the composite that it is bound to, which is the
graph `sub`. -/
def Graph.inline (c : Catalog) (b : Boundary) (g : Graph) (name : String) (sub : Graph) :
    Except Error Graph := do
  checkNames b g name sub
  let outer := rewired b g name (.ofGraph sub)
  let (_, g) ← g.remove name
  let g ← (cells sub).foldlM (fun g i => g.instantiate c (b.join name i.name) i.module) g
  let g ← connectAll c g (innerBundles b name sub)
  connectAll c g outer

end Netlist
