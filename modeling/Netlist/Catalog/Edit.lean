import Netlist.Catalog.Basic
import Netlist.Header.Reader

/-!
# Edits of a catalog

Some operations change a catalog in several steps, and a later step may fail. An `Edit` therefore
answers with a result or an error and, in both cases, with the catalog that it leaves behind.

## Main definitions

* `Netlist.Catalog.Edit`: the type of edits; `Netlist.Catalog.Edit.add` and
  `Netlist.Catalog.Edit.delete` are the single steps.
* `Netlist.Catalog.registerLeaves`: register several leaves, or none of them.
* `Netlist.Catalog.registerHeaders`: register the leaves that a header text declares.
-/

namespace Netlist.Catalog

/-- A change of a catalog that may fail. What it did before it failed stays done. -/
abbrev Edit (α : Type) := ExceptT Error (StateM Catalog) α

namespace Edit

/-- Ask something of the catalog. -/
def query {α : Type} (f : Catalog → Except Error α) : Edit α := do
  let c ← getThe Catalog
  liftExcept (f c)

/-- Replace the catalog, unless the replacement fails. -/
def replace (f : Catalog → Except Error Catalog) : Edit Unit := do
  set (← query f)

/-- Register a module under a new name. -/
def add (name : String) (m : Module) : Edit Unit :=
  replace fun c => c.add name m

/-- Take a module out. -/
def delete (name : String) : Edit Module := do
  let (m, c) ← query fun c => c.delete name
  set c
  return m

/-- The catalog that is left behind, and the result or the error. -/
def runOn {α : Type} (edit : Edit α) (c : Catalog) : Except Error α × Catalog :=
  (ExceptT.run edit).run c

end Edit

/-! ### Leaves -/

/-- The leaf with a given outside. -/
def leaf (i : Interface) : Module :=
  ⟨i.inputs, i.outputs, none⟩

/-- The names of several interfaces are new and differ from each other and from those `seen`, and
their ports are legal. -/
def checkLeaves (c : Catalog) (seen : List String) : List Interface → Except Error Unit
  | [] => .ok ()
  | i :: is => do
    if c.contains i.name ∨ i.name ∈ seen then .error (.duplicateModule i.name)
    checkPorts c.types i.name i.inputs i.outputs
    checkLeaves c (i.name :: seen) is

/-- Register several leaves and answer with their number. All are checked before the first is
registered. -/
def registerLeaves (leaves : List Interface) : Edit Nat := do
  Edit.query fun c => c.checkLeaves [] leaves
  leaves.forM fun i => Edit.add i.name (leaf i)
  return leaves.length

/-- The interfaces that a header text declares; `source` names the text in errors. -/
def interfacesOf (source text : String) : Except Error (List Interface) :=
  (Header.readInterfaces text).mapError fun e => .descriptorLoadFailure source (.header e)

/-- Register the leaves that a header text declares and answer with their number; `source` names
the text in errors. -/
def registerHeaders (source text : String) : Edit Nat := do
  registerLeaves (← Edit.query fun _ => interfacesOf source text)

end Netlist.Catalog
