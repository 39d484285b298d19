import Netlist.Document.Graph
import Netlist.Graph.Call
import Netlist.Store.Digraph

/-!
# Stores of netlists

A store keeps the instances of a netlist and the bindings between them as nodes and edges of a graph
with stable numbers, and an index from names to numbers beside it. What it holds is what a
`Netlist.Graph` says; here it is a matter of numbers, which may be stale where a graph only knows
names.

## Main definitions

* `Netlist.Store`: the graph with numbers and the index.
* `Netlist.Store.instances`, `Netlist.Store.connections`, `Netlist.Store.driver?`,
  `Netlist.Store.incoming`, `Netlist.Store.outgoing`, `Netlist.Store.connection?`: what is asked of
  a store. There is no answer if a number is stale.
* `Netlist.Store.instantiate`, `Netlist.Store.relabel`, `Netlist.Store.connect`,
  `Netlist.Store.remove`, `Netlist.Store.removeOrphans`: its changes; `Netlist.Store.call` and
  `Netlist.Store.after` make one and several of them.
* `Netlist.Store.ofDocument`: the store of a document.
-/

namespace Netlist

open StableDigraph

/-- Instances as nodes and their bindings as edges, with an index of the instances by name. -/
structure Store (Γ : Type) where
  graph : Γ
  /-- The number of the node of each instance. -/
  index : OrderedMap Nat

namespace Store

variable {Γ : Type} [StableDigraph Γ Instance (List Binding)]

/-- Why a call fails. -/
inductive Failure where
  /-- A number leads to nothing. -/
  | stale
  | error (cause : Error)
deriving DecidableEq

/-- The store without instances. -/
def empty : Store Γ :=
  ⟨StableDigraph.empty, .empty⟩

/-! ### Questions -/

/-- The instance under a number. -/
def at? (s : Store Γ) (n : Nat) : Option Instance :=
  node? s.graph n

/-- The instances in the order of the index. -/
def instances (s : Store Γ) : Option (List Instance) :=
  s.index.values.mapM s.at?

/-- An edge as a bundle, with the names of the instances at its ends. -/
def bundle? (s : Store Γ) (e : Nat) : Option Bundle := do
  let x ← edge? s.graph e
  return ⟨(← s.at? x.source).name, (← s.at? x.dest).name, x.weight⟩

/-- All connections, in the order of their numbers. -/
def connections (s : Store Γ) : Option (List Bundle) :=
  (edges s.graph).mapM s.bundle?

/-- The node and the port that drive a port at the end of an edge. -/
def feed? (s : Store Γ) (port : String) (e : Nat) : Option (Nat × String) := do
  let x ← edge? s.graph e
  let b ← x.weight.find? fun b => b.dest = port
  return (x.source, b.source)

/-- The port that drives an input port of the instance under a number. -/
def driverAt (s : Store Γ) (n : Nat) (port : String) : Option (Option Endpoint) :=
  match (edgesTo s.graph n).findSome? (s.feed? port) with
  | none => some none
  | some (source, port) => (s.at? source).map fun i => some ⟨i.name, port⟩

/-- The port that drives an input port of an instance. -/
def driver? (s : Store Γ) (name port : String) : Option (Option Endpoint) :=
  match s.index.get? name with
  | none => some none
  | some n => s.driverAt n port

/-- The connections under several numbers, in the order of the numbers. -/
def incident (s : Store Γ) (es : List Nat) : Option (List Bundle) :=
  (es.mergeSort fun d e => decide (d ≤ e)).mapM s.bundle?

/-- The connections that end at an instance. -/
def incoming (s : Store Γ) (name : String) : Option (List Bundle) :=
  match s.index.get? name with
  | none => some []
  | some n => s.incident (edgesTo s.graph n)

/-- The connections that begin at an instance. -/
def outgoing (s : Store Γ) (name : String) : Option (List Bundle) :=
  match s.index.get? name with
  | none => some []
  | some n => s.incident (edgesFrom s.graph n)

/-- The bindings from one instance to another, if they are connected. -/
def connection? (s : Store Γ) (source dest : String) : Option (Option (List Binding)) :=
  match s.index.get? source, s.index.get? dest with
  | some a, some b =>
    match findEdge? s.graph a b with
    | some e => (edge? s.graph e).map fun x => some x.weight
    | none => some none
  | _, _ => some none

/-! ### Single changes -/

/-- The number of an instance. -/
def number (s : Store Γ) (name : String) : Except Failure Nat :=
  match s.index.get? name with
  | some n => .ok n
  | none => .error (.error (.instanceNotFound name))

/-- The instance under a number, which must not be stale. -/
def get (s : Store Γ) (n : Nat) : Except Failure Instance :=
  match s.at? n with
  | some i => .ok i
  | none => .error .stale

/-- Add an instance, whatever its name. -/
def put (s : Store Γ) (i : Instance) : Store Γ :=
  let (n, graph) := addNode s.graph i
  ⟨graph, s.index.insert i.name n⟩

/-- Add an instance under a new name, whatever its module. -/
def insert (s : Store Γ) (i : Instance) : Except Failure (Store Γ) :=
  if s.index.contains i.name then .error (.error (.instanceExists i.name)) else .ok (s.put i)

/-- Add an instance of a registered module under a new name. -/
def instantiate (c : Catalog) (s : Store Γ) (name module : String) : Except Failure (Store Γ) :=
  if s.index.contains name then .error (.error (.instanceExists name))
  else if c.contains module then .ok (s.put ⟨name, module, .cell⟩)
  else .error (.error (.moduleNotFound module))

/-- Add an instance of a module under a new name, and let a loader define the module first if it is
not registered. -/
def instantiateWith (load : Loader) (c : Catalog) (s : Store Γ) (name module : String) :
    Except Failure (Store Γ) := do
  if s.index.contains name then .error (.error (.instanceExists name))
  s.instantiate (← (c.loaded load module).mapError .error) name module

/-- Bind an instance to another module and role. -/
def relabel (s : Store Γ) (name module : String) (role : Role) : Except Failure (Store Γ) := do
  let n ← s.number name
  let _ ← s.get n
  return { s with graph := modifyNode s.graph n fun i => { i with module, role } }

/-- The driver of a port of the instance under a number. -/
def driven (s : Store Γ) (n : Nat) (port : String) : Except Failure (Option Endpoint) :=
  match s.driverAt n port with
  | some driver => .ok driver
  | none => .error .stale

/-- Add bindings between two nodes, to the edge that is found between them if there is one. -/
def bind (s : Store Γ) (source dest : Nat) (bindings : List Binding) :
    Except Failure (Store Γ) :=
  match findEdge? s.graph source dest with
  | some e => .ok { s with graph := modifyEdge s.graph e (· ++ bindings) }
  | none => do
    let _ ← s.get source
    let _ ← s.get dest
    return { s with graph := addEdge s.graph source dest bindings }

/-- Each binding between the instances under two numbers is sound, and the port where it ends has no
driver in the store and none among the bindings before it, which are `seen`. -/
def checkBindings (c : Catalog) (s : Store Γ) (source dest : Nat) (seen : List Binding) :
    List Binding → Except Failure Unit
  | [] => .ok ()
  | b :: bs => do
    let i ← s.get source
    let j ← s.get dest
    (Graph.checkBinding c i j b).mapError .error
    match ← s.driven dest b.dest with
    | some driver => .error (.error (.portAlreadyDriven ⟨j.name, b.dest⟩ driver))
    | none =>
      match seen.find? fun x => x.dest = b.dest with
      | some x => .error (.error (.portAlreadyDriven ⟨j.name, b.dest⟩ ⟨i.name, x.source⟩))
      | none => checkBindings c s source dest (seen ++ [b]) bs

/-- Connect output ports of one instance to input ports of another. -/
def connect (c : Catalog) (s : Store Γ) (source dest : String) (bindings : List Binding) :
    Except Failure (Store Γ) := do
  let a ← s.number source
  let b ← s.number dest
  checkBindings c s a b [] bindings
  s.bind a b bindings

/-- No binding ends at a port of the instance under a number that has a driver in the store or that
an earlier binding ends at. Errors name the instances. -/
def checkUndriven (s : Store Γ) (source dest : String) (n : Nat) (seen : List String) :
    List Binding → Except Failure Unit
  | [] => .ok ()
  | b :: bs => do
    match ← s.driven n b.dest with
    | some driver => .error (.error (.portAlreadyDriven ⟨dest, b.dest⟩ driver))
    | none =>
      if b.dest ∈ seen then
        .error (.error (.portAlreadyDriven ⟨dest, b.dest⟩ ⟨source, b.source⟩))
      else checkUndriven s source dest n (b.dest :: seen) bs

/-- Add bindings between two instances to ports that have no driver yet, whatever the modules
declare. -/
def connectUntyped (s : Store Γ) (source dest : String) (bindings : List Binding) :
    Except Failure (Store Γ) := do
  let a ← s.number source
  let b ← s.number dest
  s.checkUndriven source dest b [] bindings
  s.bind a b bindings

/-- Take a name out of the index and remove a node with its edges. -/
def forget (s : Store Γ) (name : String) (n : Nat) : Store Γ :=
  ⟨(removeNode s.graph n).2, s.index.erase name⟩

/-- Remove an instance with its connections. The name is gone even if there is no node for it. -/
def remove (s : Store Γ) (name : String) : Except Failure Instance × Store Γ :=
  match s.index.get? name with
  | none => (.error (.error (.instanceNotFound name)), s)
  | some n =>
    match (removeNode s.graph n).1 with
    | some i => (.ok i, s.forget name n)
    | none => (.error (.error (.instanceNotFound name)), s.forget name n)

/-- The names of the instances that have no neighbours and that satisfy `eligible`. -/
def orphans (s : Store Γ) (eligible : Instance → Bool) : Except Failure (List String) := do
  let found ← (s.index.entries.filter fun e => isolated s.graph e.2).mapM fun e => do
    return (e.1, ← s.get e.2)
  return (found.filter fun e => eligible e.2).map Prod.fst

/-- Remove an instance if there is one of the given name. -/
def drop (s : Store Γ) (name : String) : Store Γ :=
  match s.index.get? name with
  | none => s
  | some n => s.forget name n

/-- Remove the instances that have no neighbours and that satisfy `eligible`. -/
def removeOrphans (s : Store Γ) (eligible : Instance → Bool) : Except Failure (Store Γ) := do
  return (← s.orphans eligible).foldl drop s

/-! ### Runs -/

/-- What a change leaves behind that changes nothing if it fails. -/
def settle (s : Store Γ) : Except Failure (Store Γ) → Except Failure Unit × Store Γ
  | .ok t => (.ok (), t)
  | .error e => (.error e, s)

/-- What a call answers and what it leaves behind. -/
def call (s : Store Γ) : Call → Except Failure Unit × Store Γ
  | .instantiate c name module => s.settle (s.instantiate c name module)
  | .instantiateWith load c name module => s.settle (s.instantiateWith load c name module)
  | .relabel name module role => s.settle (s.relabel name module role)
  | .connect c source dest bindings => s.settle (s.connect c source dest bindings)
  | .remove name => ((s.remove name).1.map fun _ => (), (s.remove name).2)
  | .removeOrphans eligible => s.settle (s.removeOrphans eligible)

/-- The store after several calls, the first one first, whether they fail or not. -/
def after (s : Store Γ) (calls : List Call) : Store Γ :=
  calls.foldl (fun s x => (s.call x).2) s

/-! ### Documents -/

/-- Add the links of a document. A link must bind some ports, and its ends must be nodes. -/
def addLinks (s : Store Γ) : List Bundle → Except Failure (Store Γ)
  | [] => .ok s
  | l :: ls =>
    if l.bindings = [] then
      .error (.error (.malformedDocument (.emptyLink l.source l.dest)))
    else match s.connectUntyped l.source l.dest l.bindings with
      | .ok s => addLinks s ls
      | .error (.error (.instanceNotFound name)) =>
        .error (.error (.malformedDocument (.unknownNode name)))
      | .error e => .error e

/-- The store of a document. -/
def ofDocument (d : GraphDocument) : Except Failure (Store Γ) := do
  if !d.directed then .error (.error (.malformedDocument .undirected))
  (← d.nodes.foldlM insert empty).addLinks d.links

end Store

end Netlist
