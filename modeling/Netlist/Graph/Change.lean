import Netlist.Error
import Netlist.Graph.Basic

/-!
# Changing graphs

The changes of this module look at the graph alone and not at the modules that its instances are
bound to.

## Main definitions

* `Netlist.Graph.insert`, `Netlist.Graph.relabel`, `Netlist.Graph.remove`: single instances.
* `Netlist.Graph.bind`: add bindings between two instances, in the link between them if there is
  one.
* `Netlist.Graph.removeOrphans`: drop instances that no link touches.
* `Netlist.Graph.connectUntyped`: add bindings to ports that have no driver yet.
-/

namespace Netlist.Graph

/-! ### Instances -/

/-- Add an instance at the end. -/
def push (g : Graph) (i : Instance) : Graph :=
  { g with instances := g.instances ++ [i] }

/-- Add an instance under a new name. -/
def insert (g : Graph) (i : Instance) : Except Error Graph :=
  if g.contains i.name then .error (.instanceExists i.name) else .ok (g.push i)

/-- Bind an instance to another module and role. -/
def relabel (g : Graph) (name module : String) (role : Role) : Except Error Graph :=
  if g.contains name then
    .ok { g with
      instances := g.instances.map fun i => if i.name = name then ⟨name, module, role⟩ else i }
  else .error (.instanceNotFound name)

/-- The links that begin at an instance and then the others that end there, each part with the
last made first. -/
def linksAt (g : Graph) (name : String) : List Link :=
  g.links.filter (·.source = name) ++
    g.links.filter fun l => l.dest = name ∧ l.source ≠ name

/-- Take an instance out, together with the links that touch it. Their slots become free, in the
order of `linksAt`. -/
def without (g : Graph) (name : String) : Graph where
  instances := g.instances.filter (·.name ≠ name)
  links := g.links.filter fun l => !l.touches name
  freed := ((g.linksAt name).map Link.slot).reverse ++ g.freed

/-- Remove an instance; the answer holds it and what is left. -/
def remove (g : Graph) (name : String) : Except Error (Instance × Graph) :=
  match g.instance? name with
  | some i => .ok (i, g.without name)
  | none => .error (.instanceNotFound name)

/-- Whether no link touches an instance. -/
def isOrphan (g : Graph) (name : String) : Bool :=
  g.links.all fun l => !l.touches name

/-- The instances that no link touches and that satisfy `eligible`. -/
def orphans (g : Graph) (eligible : Instance → Bool) : List Instance :=
  g.instances.filter fun i => g.isOrphan i.name && eligible i

/-- Drop the instances that no link touches and that satisfy `eligible`. -/
def removeOrphans (g : Graph) (eligible : Instance → Bool) : Graph :=
  { g with instances := g.instances.filter fun i => !(g.isOrphan i.name && eligible i) }

/-! ### Bindings -/

/-- Add a link. It takes the slot that became free last; if none is free, the slots in use are
numbered without a gap, and it takes the next number. -/
def addLink (g : Graph) (source dest : String) (bindings : List Binding) : Graph :=
  match g.freed with
  | [] => { g with links := ⟨⟨source, dest, bindings⟩, g.links.length⟩ :: g.links }
  | slot :: freed => { g with links := ⟨⟨source, dest, bindings⟩, slot⟩ :: g.links, freed }

/-- Add bindings between two instances: at the end of the link between them if there is one, else
in a new link, which may be empty. -/
def bind (g : Graph) (source dest : String) (bindings : List Binding) : Graph :=
  match g.link? source dest with
  | some _ =>
    { g with
      links := g.links.map fun l =>
        if l.source = source ∧ l.dest = dest then { l with bindings := l.bindings ++ bindings }
        else l }
  | none => g.addLink source dest bindings

/-- The instance with a given name, which must be there. -/
def find (g : Graph) (name : String) : Except Error Instance :=
  match g.instance? name with
  | some i => .ok i
  | none => .error (.instanceNotFound name)

/-- No binding ends at a port that has a driver in the graph or that an earlier binding ends at.
A port bound twice is told with the later source as its driver. -/
def checkUndriven (g : Graph) (source dest : String) (seen : List String) :
    List Binding → Except Error Unit
  | [] => .ok ()
  | b :: bs =>
    match g.driver? dest b.dest with
    | some driver => .error (.portAlreadyDriven ⟨dest, b.dest⟩ driver)
    | none =>
      if b.dest ∈ seen then .error (.portAlreadyDriven ⟨dest, b.dest⟩ ⟨source, b.source⟩)
      else checkUndriven g source dest (b.dest :: seen) bs

/-- Add bindings between two instances of the graph to ports that have no driver yet, whatever
the modules declare. -/
def connectUntyped (g : Graph) (source dest : String) (bindings : List Binding) :
    Except Error Graph := do
  let _ ← g.find source
  let _ ← g.find dest
  g.checkUndriven source dest [] bindings
  return g.bind source dest bindings

end Netlist.Graph
