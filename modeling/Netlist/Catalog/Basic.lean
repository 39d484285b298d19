import Netlist.Graph.Basic
import Netlist.TypeTable

/-!
# Catalogs of modules

A catalog holds the known modules and the named types that their ports use. A module is a leaf,
which is defined by its ports, or a composite, whose inside is a graph of instances.

## Main definitions

* `Netlist.Module`, `Netlist.Catalog`.
* `Netlist.Catalog.checkPorts`: the ports of a module are legal.
* `Netlist.Catalog.checkContainment`: no composite contains itself.
* `Netlist.Catalog.add`, `Netlist.Catalog.update`, `Netlist.Catalog.delete`: single modules.
* `Netlist.Catalog.Agree`: two catalogs have the same types and modules, in whatever order.
-/

namespace Netlist

/-- What a catalog knows of a module. -/
structure Module where
  /-- The declared input ports. -/
  inputs : Ports
  /-- The declared output ports. -/
  outputs : Ports
  /-- The inside of a composite. -/
  body : Option Graph
deriving DecidableEq

namespace Module

/-- The ports declared with a direction. -/
def ports (m : Module) : Direction → Ports
  | .input => m.inputs
  | .output => m.outputs

/-- The type of a port declared with a direction. -/
def port? (m : Module) (port : String) (d : Direction) : Option PortType :=
  (m.ports d).get? port

/-- Whether a module has no inside. -/
def isLeaf (m : Module) : Bool :=
  m.body.isNone

/-- The outside of a module with a given name. -/
def interface (m : Module) (name : String) : Interface :=
  ⟨name, m.inputs, m.outputs⟩

end Module

/-- Named types and modules, in the order of registration. -/
structure Catalog where
  types : TypeTable
  modules : OrderedMap Module
deriving DecidableEq

namespace Catalog

/-- The catalog without types and modules. -/
def empty : Catalog :=
  ⟨.empty, .empty⟩

instance : Inhabited Catalog :=
  ⟨empty⟩

/-- The catalog with given types and without modules. -/
def ofTypes (types : TypeTable) : Catalog :=
  ⟨types, .empty⟩

/-- The module with a given name. -/
def module? (c : Catalog) (name : String) : Option Module :=
  c.modules.get? name

/-- Whether a module is registered. -/
def contains (c : Catalog) (name : String) : Bool :=
  c.modules.contains name

/-- The names of the modules in order. -/
def names (c : Catalog) : List String :=
  c.modules.keys

/-- The names of the leaves in order. -/
def leaves (c : Catalog) : List String :=
  (c.modules.entries.filter fun e => e.2.isLeaf).map Prod.fst

/-- The names of the composites in order. -/
def composites (c : Catalog) : List String :=
  (c.modules.entries.filter fun e => !e.2.isLeaf).map Prod.fst

/-- The inside of a registered composite. -/
def body? (c : Catalog) (name : String) : Option Graph :=
  (c.module? name).bind Module.body

/-- The type of a port that a module declares with a direction. -/
def portType? (c : Catalog) (module port : String) (d : Direction) : Option PortType :=
  (c.module? module).bind fun m => m.port? port d

/-- An output port of one module and an input port of another exist and have types of the same
shape. -/
def PortsMatch (c : Catalog) (source : Endpoint) (dest : Endpoint) : Prop :=
  ∃ a ∈ c.portType? source.owner source.port .output,
    ∃ b ∈ c.portType? dest.owner dest.port .input, c.types.Alike a b

instance (c : Catalog) (source dest : Endpoint) : Decidable (c.PortsMatch source dest) :=
  inferInstanceAs (Decidable (∃ a ∈ _, ∃ b ∈ _, _))

/-! ### Legal ports -/

/-- A port of a module is legal if its name is an identifier, its width is not zero and the type
it refers to is known. -/
def checkPort (types : TypeTable) (module : String) : String × PortType → Except Error Unit
  | (port, type) =>
    if !isIdentifier port then .error (.invalidPorts module (.name port))
    else match type with
      | .bits width =>
        if width = 0 then .error (.invalidPorts module (.zeroWidth port)) else .ok ()
      | .named name =>
        if types.contains name then .ok () else .error (.unknownType module port name)

/-- The ports of a module are legal, inputs first, and none is an input and an output. -/
def checkPorts (types : TypeTable) (module : String) (inputs outputs : Ports) :
    Except Error Unit := do
  (inputs.entries ++ outputs.entries).forM (checkPort types module)
  match inputs.keys.find? outputs.contains with
  | some port => .error (.invalidPorts module (.bothDirections port))
  | none => .ok ()

/-! ### Containment -/

theorem mem_names_of_body? {c : Catalog} {name : String} {g : Graph} (h : c.body? name = some g) :
    name ∈ c.names := by
  obtain ⟨m, hm, _⟩ := Option.bind_eq_some_iff.1 h
  exact OrderedMap.mem_keys_of_get? hm

/-- Go depth first through the cells of a list of instances and of the registered composites they
are bound to. No cell may be bound to a module on the `path` of composites that leads to it. The
modules `cleared` have been gone through; the answer is `cleared` with more of them. -/
def checkContainment (c : Catalog) (path cleared : List String) (is : List Instance) :
    Except Error (List String) :=
  match is with
  | [] => .ok cleared
  | i :: is =>
    if !i.isCell then checkContainment c path cleared is
    else if i.module ∈ path then .error (.cyclicContainment (path ++ [i.module]))
    else if i.module ∈ cleared then checkContainment c path cleared is
    else match _h : c.body? i.module with
      | none => checkContainment c path (i.module :: cleared) is
      | some g =>
        match checkContainment c (path ++ [i.module]) cleared g.instances with
        | .error e => .error e
        | .ok cleared => checkContainment c path (i.module :: cleared) is
termination_by (unvisited c.names path, is.length)
decreasing_by
  · exact Prod.Lex.right _ (by simp)
  · exact Prod.Lex.right _ (by simp)
  · exact Prod.Lex.right _ (by simp)
  · exact Prod.Lex.left _ _ (unvisited_append_lt (mem_names_of_body? _h) (by assumption))
  · exact Prod.Lex.right _ (by simp)

/-- A module with a given name and inside would not contain itself. -/
def checkBody (c : Catalog) (name : String) (g : Graph) : Except Error Unit := do
  let _ ← c.checkContainment [name] [] g.instances

/-! ### Single modules -/

/-- Put a module at the end or in the stead of the one with its name, unchecked. -/
def put (c : Catalog) (name : String) (m : Module) : Catalog :=
  { c with modules := c.modules.insert name m }

/-- Register a module under a new name: a composite if it has a body, else a leaf. -/
def add (c : Catalog) (name : String) (m : Module) : Except Error Catalog := do
  if c.contains name then .error (.duplicateModule name)
  checkPorts c.types name m.inputs m.outputs
  match m.body with
  | some g => c.checkBody name g
  | none => .ok ()
  return c.put name m

/-- Give a registered module other ports. Graphs with instances of it are not looked at. -/
def update (c : Catalog) (name : String) (inputs outputs : Ports) : Except Error Catalog := do
  match c.module? name with
  | none => .error (.moduleNotFound name)
  | some m =>
    checkPorts c.types name inputs outputs
    return c.put name { m with inputs, outputs }

/-- Take a module out; the answer holds it and what is left. -/
def delete (c : Catalog) (name : String) : Except Error (Module × Catalog) :=
  match c.module? name with
  | none => .error (.moduleNotFound name)
  | some m => .ok (m, { c with modules := c.modules.erase name })

/-- Register a type. -/
def addType (c : Catalog) (name : String) (fields : Ports) : Except Error Catalog := do
  return { c with types := ← c.types.register name fields }

/-! ### Agreement up to order -/

/-- Two modules have the same ports and agreeing insides. -/
def ModulesAgree (m n : Module) : Prop :=
  m.inputs.Agree n.inputs ∧ m.outputs.Agree n.outputs ∧
    match m.body, n.body with
    | none, none => True
    | some g, some h => g.Agree h
    | _, _ => False

instance (m n : Module) : Decidable (ModulesAgree m n) := by
  unfold ModulesAgree
  cases m.body <;> cases n.body <;> exact inferInstance

/-- Two catalogs have the same types and modules with the same ports and agreeing insides. The
order of types, fields, modules and ports does not matter. -/
def Agree (c d : Catalog) : Prop :=
  c.types.AgreeBy OrderedMap.Agree d.types ∧ c.modules.AgreeBy ModulesAgree d.modules

instance (c d : Catalog) : Decidable (Agree c d) :=
  inferInstanceAs (Decidable (_ ∧ _))

end Catalog

end Netlist
