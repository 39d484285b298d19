import Netlist.Description.Basic
import Netlist.FileTree
import Netlist.Header.Basic

/-!
# Errors of netlists

## Main definitions

* `Netlist.LoadFailure`: why a descriptor could not be loaded.
* `Netlist.Error`: why an operation on types, modules or graphs fails; `Netlist.Error.message` is
  its wording.
-/

namespace Netlist

/-- Why a descriptor could not be loaded. -/
inductive LoadFailure where
  /-- The file could not be read. -/
  | unreadable (cause : FileError)
  /-- The text declares no interfaces. -/
  | header (cause : Header.Error)
  /-- The text is no description. -/
  | description (cause : Description.Error)
  /-- Another file describes the module already. -/
  | definedIn (module path : String)
  /-- Two descriptions name the same module. -/
  | describedTwice
deriving DecidableEq, Repr

/-- The wording of a load failure. -/
def LoadFailure.message : LoadFailure → String
  | unreadable cause => cause.message
  | header cause => cause.message
  | description cause => cause.message
  | definedIn module path => s!"module `{module}` is already defined in {path}"
  | describedTwice => "module is described more than once"

/-- What is wrong with the ports of a module. -/
inductive PortFault where
  | name (port : String)
  | zeroWidth (port : String)
  | bothDirections (port : String)
deriving DecidableEq, Repr

/-- The wording of a port fault. -/
def PortFault.message : PortFault → String
  | name port => s!"`{port}` is not a valid port name"
  | zeroWidth port => s!"port `{port}` has zero width"
  | bothDirections port => s!"`{port}` is declared as both an input and an output"

/-- What is wrong with the document of a graph or a catalog that has the right shape. -/
inductive DocumentFault where
  | undirected
  | emptyLink (source dest : String)
  | unknownNode (name : String)
  | leafWithGraph (module : String)
  | compositeWithoutGraph (module : String)
deriving DecidableEq, Repr

/-- The wording of a document fault. -/
def DocumentFault.message : DocumentFault → String
  | undirected => "netlist graphs must be directed"
  | emptyLink source dest => s!"link `{source}` -> `{dest}` has no port connections"
  | unknownNode name => s!"link references unknown node `{name}`"
  | leafWithGraph module => s!"leaf module `{module}` has an internal graph"
  | compositeWithoutGraph module => s!"composite module `{module}` has no internal graph"

/-- Why an operation on types, modules or graphs fails. -/
inductive Error where
  | duplicateModule (module : String)
  | duplicateType (type : String)
  | moduleNotFound (module : String)
  | instanceNotFound (name : String)
  | instanceExists (name : String)
  | invalidInstanceName (name : String)
  /-- Inlining a composite instance would create an instance whose name is taken. -/
  | nameCollision (name composite : String)
  /-- The module of an instance declares no such port that could be used in a direction. -/
  | portNotFound (place : Endpoint) (module : String) (direction : Direction)
  /-- Two ends of a wire have types of different structure. -/
  | portTypeMismatch (source : Endpoint) (sourceType : PortType) (dest : Endpoint)
      (destType : PortType)
  | portAlreadyDriven (place driver : Endpoint)
  | invalidPorts (module : String) (fault : PortFault)
  | invalidFieldName (type field : String)
  | invalidFieldType (type field reference : String)
  | invalidWidth (type field : String)
  | unknownType (module port type : String)
  /-- The module is a leaf. -/
  | notComposite (module : String)
  | descriptorLoadFailure (source : String) (cause : LoadFailure)
  /-- Modules of which each contains the next. -/
  | cyclicContainment (path : List String)
  /-- Types of which each refers to the next. -/
  | cyclicType (path : List String)
  | malformedDocument (fault : DocumentFault)
  | file (cause : FileError)
  /-- A text is no document of the expected shape. -/
  | notADocument
deriving DecidableEq, Repr

namespace Error

/-- The wording of an error. What keeps a text from being a document is not told. -/
def message : Error → String
  | duplicateModule module => s!"module `{module}` already exists"
  | duplicateType type => s!"type `{type}` already exists"
  | moduleNotFound module => s!"module `{module}` not found"
  | instanceNotFound name => s!"instance `{name}` not found in graph"
  | instanceExists name => s!"instance `{name}` already exists in graph"
  | invalidInstanceName name => s!"instance name `{name}` is not an identifier"
  | nameCollision name composite =>
    s!"inlining `{composite}` would create `{name}`, which already exists in graph"
  | portNotFound place module direction =>
    s!"{direction.text} port `{place.port}` not found on instance `{place.owner}` " ++
      s!"of module `{module}`"
  | portTypeMismatch source sourceType dest destType =>
    s!"type mismatch connecting `{source.text}` ({sourceType.text}) " ++
      s!"to `{dest.text}` ({destType.text})"
  | portAlreadyDriven place driver =>
    s!"input port `{place.text}` is already driven by `{driver.text}`"
  | invalidPorts module fault => s!"invalid ports on module `{module}`: {fault.message}"
  | invalidFieldName type field => s!"type `{type}` has invalid field name `{field}`"
  | invalidFieldType type field reference =>
    s!"field `{field}` of type `{type}` references unknown type `{reference}`"
  | invalidWidth type field =>
    s!"field `{field}` of type `{type}` must have a width greater than 0"
  | unknownType module port type =>
    s!"port `{port}` of module `{module}` references unknown type `{type}`"
  | notComposite module => s!"module `{module}` is a leaf and has no internal graph"
  | descriptorLoadFailure source cause =>
    s!"failed to load descriptor `{source}`: {cause.message}"
  | cyclicContainment path => "circular containment: " ++ " -> ".intercalate path
  | cyclicType path => "circular type reference: " ++ " -> ".intercalate path
  | malformedDocument fault => s!"malformed document: {fault.message}"
  | file cause => s!"I/O error: {cause.message}"
  | notADocument => "JSON error"

end Error

end Netlist
