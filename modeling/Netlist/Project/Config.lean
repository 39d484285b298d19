import Netlist.Boundary
import Netlist.FileTree
import Netlist.Toml.Reader

/-!
# Settings of a project

The settings are a TOML document. Keys that are not known are skipped.

## Main definitions

* `Netlist.Config`: the settings; `Netlist.Config.Paths` are the places of a project's files.
* `Netlist.Config.ofText`: the settings that a text stands for, checked.
* `Netlist.Config.load`: the settings of the project in a directory.
-/

namespace Netlist

/-- The places of a project's files. -/
structure Config.Paths where
  /-- The directory of header files. -/
  leaves : String
  /-- The directory of descriptions. -/
  composites : String
  /-- The file in which the catalog is kept. -/
  catalog : String
deriving DecidableEq, Repr

/-- The places that are used where nothing else is said. -/
def Config.Paths.standard : Config.Paths :=
  ⟨"hardware_modules/basic_blocks", "hardware_modules/non_basic_blocks",
    "generated_files/hardware_library.json"⟩

/-- The places below a project's directory. -/
def Config.Paths.within (dir : String) (p : Config.Paths) : Config.Paths :=
  ⟨FilePath.join dir p.leaves, FilePath.join dir p.composites, FilePath.join dir p.catalog⟩

/-- The settings of a project. -/
structure Config where
  /-- The project's name. -/
  name : String
  version : String
  /-- A remark for readers. -/
  remark : String
  /-- The module that the project is about. -/
  top : String
  boundary : Boundary
  paths : Config.Paths
deriving DecidableEq, Repr

namespace Config

/-- Why there are no settings. -/
inductive Error where
  /-- The file could not be read. -/
  | unreadable (path : String) (cause : FileError)
  /-- The text is not of the expected form. -/
  | malformed
  | missingName
  | missingTop
  | unusable (fault : Boundary.Fault)
deriving DecidableEq, Repr

/-- The name of the file that holds the settings. -/
def fileName : String :=
  "hiera.toml"

/-- The wording of an error. What is wrong with the form is not told. -/
def Error.message : Error → String
  | unreadable path cause => s!"cannot read `{path}`: {cause.message}"
  | malformed => s!"malformed {fileName}"
  | missingName => s!"{fileName} must set `project.name`"
  | missingTop => s!"{fileName} must set `project.top`"
  | unusable fault => s!"unusable `{fault.field}`: {fault.message}"

/-! ### Reading -/

/-- The text that a value stands for, or another one without a value. -/
def textOr? (standard : String) : Option Toml.Value → Option String
  | some v => v.text?
  | none => some standard

/-- The boundary names that a value stands for. -/
def boundaryOfToml? (v : Toml.Value) : Option Boundary := do
  match ← v.fields? false ["input_block_name", "output_block_name", "separator"] with
  | [input, output, separator] =>
    return ⟨← textOr? Boundary.standard.inputBlock input,
      ← textOr? Boundary.standard.outputBlock output,
      ← textOr? Boundary.standard.separator separator⟩
  | _ => none

/-- The places that a value stands for. -/
def pathsOfToml? (v : Toml.Value) : Option Paths := do
  match ← v.fields? false ["leaf_descriptors", "composite_descriptors", "registry"] with
  | [leaves, composites, catalog] =>
    return ⟨← textOr? Paths.standard.leaves leaves,
      ← textOr? Paths.standard.composites composites,
      ← textOr? Paths.standard.catalog catalog⟩
  | _ => none

/-- The settings that a value stands for. -/
def ofToml? (v : Toml.Value) : Option Config := do
  match ← v.fields? false ["project", "boundary", "paths"] with
  | [some project, boundary, paths] =>
    match ← project.fields? false ["name", "version", "description", "top"] with
    | [some name, version, remark, some top] =>
      return {
        name := ← name.text?
        version := ← textOr? "" version
        remark := ← textOr? "" remark
        top := ← top.text?
        boundary := ← match boundary with
          | some boundary => boundaryOfToml? boundary
          | none => some .standard
        paths := ← match paths with
          | some paths => pathsOfToml? paths
          | none => some .standard }
    | _ => none
  | _ => none

/-- The project and its module are named, and the boundary names are fit for use. -/
def check (c : Config) : Except Error Unit :=
  if c.name = "" then .error .missingName
  else if c.top = "" then .error .missingTop
  else c.boundary.check.mapError .unusable

/-- The settings that a text stands for, if they have no fault. -/
def ofText (s : String) : Except Error Config :=
  match (Toml.parse? s).bind ofToml? with
  | none => .error .malformed
  | some c => c.check.map fun _ => c

/-- The settings of the project in a directory. -/
def load (files : FileTree) (dir : String) : Except Error Config := do
  let path := FilePath.join dir fileName
  ofText (← (files.read path).mapError (.unreadable path))

end Config

end Netlist
