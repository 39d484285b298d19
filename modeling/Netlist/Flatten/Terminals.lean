import Netlist.Graph.Basic
import Netlist.Unvisited

/-!
# A composite seen from its boundary

## Main definitions

* `Netlist.Terminals`: what drives each output of a composite and what each input drives.
* `Netlist.Terminals.ofGraph`: the terminals of the graph inside a composite.
* `Netlist.Terminals.source?`: the port that drives an output of an instance of the composite, in
  the graph that the instance belongs to.
-/

namespace Netlist

/-- What drives an output of a composite. -/
inductive Driver where
  /-- A port of an instance inside. -/
  | inside (source : Endpoint)
  /-- An input, which is handed through. -/
  | input (port : String)
deriving DecidableEq, Repr

/-- The two sides of a composite's boundary. -/
structure Terminals where
  /-- What drives each output. -/
  drivers : OrderedMap Driver
  /-- The ports inside that each input drives. -/
  sinks : OrderedMap (List Endpoint)

namespace Terminals

/-- Note one wire of the graph inside, in which the boundary instances have given names. -/
def addWire (input output : Option String) (t : Terminals) (w : Wire) : Terminals :=
  match decide (some w.source.owner = input), decide (some w.dest.owner = output) with
  | true, true => { t with drivers := t.drivers.insert w.dest.port (.input w.source.port) }
  | false, true => { t with drivers := t.drivers.insert w.dest.port (.inside w.source) }
  | true, false =>
    let sinks := (t.sinks.get? w.source.port).getD []
    { t with sinks := t.sinks.insert w.source.port (sinks ++ [w.dest]) }
  | false, false => t

/-- The terminals of the graph inside a composite. -/
def ofGraph (g : Graph) : Terminals :=
  let input := (g.withRole? .inputBoundary).map Instance.name
  let output := (g.withRole? .outputBoundary).map Instance.name
  g.wires.foldl (addWire input output) ⟨.empty, .empty⟩

/-- The ports inside that an input drives. -/
def sinksOf (t : Terminals) (port : String) : List Endpoint :=
  (t.sinks.get? port).getD []

/-- The port that drives an output of the instance `name` of the composite in the graph `g`. A port
inside is renamed by `inner`. An input that is handed through is followed to its driver in `g`; if
this is an output of the same instance, it is followed in turn, unless it has been `seen`. -/
def source? (t : Terminals) (g : Graph) (name : String) (inner : Endpoint → Endpoint)
    (seen : List String) (port : String) : Option Endpoint :=
  match _h : t.drivers.get? port with
  | none => none
  | some (.inside source) => some (inner source)
  | some (.input input) =>
    match g.driver? name input with
    | none => none
    | some producer =>
      if producer.owner ≠ name then some producer
      else if producer.port ∈ seen then none
      else source? t g name inner (seen ++ [producer.port]) producer.port
termination_by (unvisited t.drivers.keys seen, if port ∈ t.drivers.keys then 1 else 0)
decreasing_by
  by_cases hk : producer.port ∈ t.drivers.keys
  · exact Prod.Lex.left _ _ (unvisited_append_lt hk (by assumption))
  · rw [unvisited_append_of_not_mem hk, if_neg hk, if_pos (OrderedMap.mem_keys_of_get? _h)]
    exact Prod.Lex.right _ Nat.zero_lt_one

end Terminals

end Netlist
