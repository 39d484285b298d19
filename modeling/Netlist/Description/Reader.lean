import Netlist.Description.Basic
import Netlist.Toml.Reader

/-!
# Reading descriptions of composite modules

A description is a TOML document. Its tables hold nothing but the fields named here.

## Main definitions

* `Netlist.Description.ofToml?`: the description that a value stands for, not checked.
* `Netlist.Description.ofText`: the description that a text stands for, checked.
-/

namespace Netlist

open Toml (Value)

/-- The port type that a value stands for: its width or its name. -/
def PortType.ofToml? : Value → Option PortType
  | .integer n =>
    if 0 ≤ n ∧ n < UInt32.size then some (bits (UInt32.ofNat n.toNat)) else none
  | .string name => some (named name)
  | _ => none

/-- The map that a value stands for. -/
def OrderedMap.ofToml? {α : Type} (f : Value → Option α) (v : Value) :
    Option (OrderedMap α) := do
  let es ← (← v.table?).mapM fun e => (f e.2).map (e.1, ·)
  return ofList es

namespace Description

/-- The two texts at the start of an array. -/
def pairOfToml? : Value → Option (String × String)
  | .array (a :: b :: _) => do return (← a.text?, ← b.text?)
  | _ => none

/-- The two texts that an array holds, and nothing else. -/
def exactPairOfToml? : Value → Option (String × String)
  | .array [a, b] => do return (← a.text?, ← b.text?)
  | _ => none

/-- The port that a pair of texts stands for. -/
def endpointOfToml? (v : Value) : Option Endpoint :=
  (pairOfToml? v).map fun p => ⟨p.1, p.2⟩

/-- The instance that a value stands for. -/
def cellOfToml? (v : Value) : Option Cell := do
  match ← v.fields? true ["name", "module"] with
  | [some name, some module] => return ⟨← name.text?, ← module.text?⟩
  | _ => none

/-- The bindings that a value stands for: a table of texts or an array of pairs. -/
def bindingsOfToml? (v : Value) : Option Bindings :=
  match v with
  | .array pairs => (pairs.mapM exactPairOfToml?).map .list
  | _ => (OrderedMap.ofToml? Value.text? v).map .table

/-- The connection that a value stands for. -/
def connectionOfToml? (v : Value) : Option Connection := do
  match ← v.fields? true ["source", "dest", "ports"] with
  | [some source, some dest, some ports] =>
    return ⟨← source.text?, ← dest.text?, ← bindingsOfToml? ports⟩
  | _ => none

/-- The list that a value stands for; without a value it is empty. -/
def listOfToml? {α : Type} (f : Value → Option α) : Option Value → Option (List α)
  | none => some []
  | some v => v.elements?.bind fun vs => vs.mapM f

/-- The map that a value stands for; without a value it is empty. -/
def mapOfToml? {α : Type} (f : Value → Option α) : Option Value → Option (OrderedMap α)
  | none => some .empty
  | some v => OrderedMap.ofToml? f v

/-- The fields of a description. -/
def fieldNames : List String :=
  ["name", "description", "inputs", "outputs", "instances", "connections", "input_connections",
    "output_connections", "feed_through"]

/-- The description that a value stands for. All fields but the name may be missing. -/
def ofToml? (v : Value) : Option Description := do
  match ← v.fields? true fieldNames with
  | [some name, remark, inputs, outputs, cells, connections, sinks, sources, feeds] =>
    return {
      name := ← name.text?
      remark := ← match remark with
        | some remark => remark.text?
        | none => some ""
      inputs := ← mapOfToml? PortType.ofToml? inputs
      outputs := ← mapOfToml? PortType.ofToml? outputs
      cells := ← listOfToml? cellOfToml? cells
      connections := ← listOfToml? connectionOfToml? connections
      inputSinks := ← mapOfToml? (fun v => listOfToml? endpointOfToml? (some v)) sinks
      outputSources := ← mapOfToml? endpointOfToml? sources
      feedThrough := ← mapOfToml? Value.text? feeds }
  | _ => none

/-- The description that a text stands for, if it has no fault. -/
def ofText (s : String) : Except Error Description :=
  match (Toml.parse? s).bind ofToml? with
  | none => .error .malformed
  | some d => (d.check.mapError (.invalid d.name)).map fun _ => d

end Description

end Netlist
