import Netlist.Identifier
import Netlist.Port

/-!
# Descriptions of composite modules

A composite module is described by its ports, the instances inside it, the connections between
them, and the wires from its own ports to theirs. An input may also be handed through to an
output.

## Main definitions

* `Netlist.Description`: a description, with `dependencies`, the modules it instantiates.
* `Netlist.Description.check`: the references within a description are sound. Port names and
  types are not looked at: they need the described modules.
* `Netlist.Description.Error`: why a text is no description, with its wording.
-/

namespace Netlist

namespace Description

/-- An instance inside a composite module. -/
structure Cell where
  name : String
  /-- The module it is an instance of. -/
  module : String
deriving DecidableEq, Repr

/-- The port bindings of a connection, source port first, in one of two notations. -/
inductive Bindings where
  /-- One destination port for each source port. -/
  | table (ports : OrderedMap String)
  /-- Any pairs. -/
  | list (pairs : List (String × String))
deriving DecidableEq

/-- The pairs of a source port and a destination port. -/
def Bindings.pairs : Bindings → List (String × String)
  | table ports => ports.entries
  | list pairs => pairs

/-- A connection between two instances. -/
structure Connection where
  /-- The driving instance. -/
  source : String
  /-- The driven instance. -/
  dest : String
  ports : Bindings
deriving DecidableEq

/-- What may be wrong with a description that is well formed. -/
inductive Fault where
  | moduleName
  | instanceName (name : String)
  | repeatedInstance (name : String)
  | unknownEnd (name : String)
  | emptyConnection (source dest : String)
  | unknownInput (port : String)
  | unknownSink (port name : String)
  | unknownOutput (port : String)
  | unknownProducer (port name : String)
  | unknownFedInput (port : String)
  | unknownFedOutput (input output : String)
  | secondDriver (output : String)
deriving DecidableEq, Repr

/-- The wording of a fault. -/
def Fault.message : Fault → String
  | moduleName => "module name is not an identifier"
  | instanceName name => s!"instance name `{name}` is not an identifier"
  | repeatedInstance name => s!"instance `{name}` is declared more than once"
  | unknownEnd name => s!"connection references undeclared instance `{name}`"
  | emptyConnection source dest => s!"connection `{source}` -> `{dest}` binds no ports"
  | unknownInput port => s!"input_connections names undeclared input `{port}`"
  | unknownSink port name => s!"input `{port}` drives undeclared instance `{name}`"
  | unknownOutput port => s!"output_connections names undeclared output `{port}`"
  | unknownProducer port name =>
    s!"output `{port}` is produced by undeclared instance `{name}`"
  | unknownFedInput port => s!"feed_through names undeclared input `{port}`"
  | unknownFedOutput input output =>
    s!"input `{input}` is fed through to undeclared output `{output}`"
  | secondDriver output => s!"output `{output}` has more than one driver"

/-- Why a text is no description. -/
inductive Error where
  /-- The text is not of the expected form. -/
  | malformed
  /-- The description of a module has a fault. -/
  | invalid (name : String) (fault : Fault)
deriving DecidableEq, Repr

/-- The wording of a description error. What is wrong with the form is not told. -/
def Error.message : Error → String
  | malformed => "TOML parse error"
  | invalid name fault => s!"invalid descriptor `{name}`: {fault.message}"

end Description

/-- The description of a composite module. -/
structure Description where
  /-- The module's name. -/
  name : String
  /-- A remark for readers. -/
  remark : String
  /-- The module's input ports. -/
  inputs : Ports
  /-- The module's output ports. -/
  outputs : Ports
  /-- The instances inside. -/
  cells : List Description.Cell
  /-- The connections between the instances. -/
  connections : List Description.Connection
  /-- For an input, the ports inside that it drives. -/
  inputSinks : OrderedMap (List Endpoint)
  /-- For an output, the port inside that drives it. -/
  outputSources : OrderedMap Endpoint
  /-- For an input, the output that it is handed through to. -/
  feedThrough : OrderedMap String
deriving DecidableEq

namespace Description

/-- A list of names without those that occurred before or are among `seen`. -/
def distinct (seen : List String) : List String → List String
  | [] => []
  | name :: names =>
    if name ∈ seen then distinct seen names else name :: distinct (name :: seen) names

theorem mem_distinct {seen names : List String} {x : String} :
    x ∈ distinct seen names ↔ x ∈ names ∧ x ∉ seen := by
  induction names generalizing seen with
  | nil => simp [distinct]
  | cons name names ih =>
    by_cases h : name ∈ seen
    · simp only [distinct, h, if_true, ih, List.mem_cons]
      constructor
      · rintro ⟨hx, hs⟩
        exact ⟨Or.inr hx, hs⟩
      · rintro ⟨rfl | hx, hs⟩
        · exact absurd h hs
        · exact ⟨hx, hs⟩
    · simp only [distinct, h, if_false, List.mem_cons, ih, not_or]
      constructor
      · rintro (rfl | ⟨hx, _, hs⟩)
        · exact ⟨Or.inl rfl, h⟩
        · exact ⟨Or.inr hx, hs⟩
      · rintro ⟨rfl | hx, hs⟩
        · exact Or.inl rfl
        · by_cases hn : x = name
          · exact Or.inl hn
          · exact Or.inr ⟨hx, hn, hs⟩

theorem nodup_distinct (seen names : List String) : (distinct seen names).Nodup := by
  induction names generalizing seen with
  | nil => simp [distinct]
  | cons name names ih =>
    unfold distinct
    split
    · exact ih seen
    · refine List.nodup_cons.2 ⟨fun h => ?_, ih (name :: seen)⟩
      exact (mem_distinct.1 h).2 (List.mem_cons_self ..)

/-- The modules that a description instantiates, each once, in the order of first use. -/
def dependencies (d : Description) : List String :=
  distinct [] (d.cells.map Cell.module)

/-! ### Checking -/

/-- Whether an instance is declared. -/
def declares (d : Description) (name : String) : Bool :=
  d.cells.any fun c => c.name == name

/-- Instance names are identifiers and differ from each other and from those `seen`. -/
def checkCells (seen : List String) : List Cell → Except Fault Unit
  | [] => .ok ()
  | c :: cs =>
    if !isIdentifier c.name then .error (.instanceName c.name)
    else if c.name ∈ seen then .error (.repeatedInstance c.name)
    else checkCells (c.name :: seen) cs

/-- Both ends of a connection are declared, and it binds some ports. -/
def checkConnection (d : Description) (c : Connection) : Except Fault Unit :=
  if !d.declares c.source then .error (.unknownEnd c.source)
  else if !d.declares c.dest then .error (.unknownEnd c.dest)
  else if c.ports.pairs.isEmpty then .error (.emptyConnection c.source c.dest)
  else .ok ()

/-- The input is declared, and so are the instances that it drives. -/
def checkSinks (d : Description) (port : String) (sinks : List Endpoint) : Except Fault Unit :=
  if !d.inputs.contains port then .error (.unknownInput port)
  else match sinks.find? fun e => !d.declares e.owner with
    | some e => .error (.unknownSink port e.owner)
    | none => .ok ()

/-- The output is declared, and so is the instance that drives it. -/
def checkSource (d : Description) (port : String) (source : Endpoint) : Except Fault Unit :=
  if !d.outputs.contains port then .error (.unknownOutput port)
  else if !d.declares source.owner then .error (.unknownProducer port source.owner)
  else .ok ()

/-- Both ports of each hand-through are declared, and the output has no other driver, neither
inside nor among the outputs `seen`. -/
def checkFeeds (d : Description) (seen : List String) :
    List (String × String) → Except Fault Unit
  | [] => .ok ()
  | (input, output) :: rest =>
    if !d.inputs.contains input then .error (.unknownFedInput input)
    else if !d.outputs.contains output then .error (.unknownFedOutput input output)
    else if d.outputSources.contains output ∨ output ∈ seen then .error (.secondDriver output)
    else checkFeeds d (output :: seen) rest

/-- The first fault of a description, if there is one. -/
def check (d : Description) : Except Fault Unit := do
  if !isIdentifier d.name then .error .moduleName
  checkCells [] d.cells
  d.connections.forM d.checkConnection
  d.inputSinks.entries.forM fun e => d.checkSinks e.1 e.2
  d.outputSources.entries.forM fun e => d.checkSource e.1 e.2
  checkFeeds d [] d.feedThrough.entries

end Description

end Netlist
