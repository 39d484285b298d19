import Netlist.Document.Catalog
import Netlist.Flatten.Basic
import Netlist.Library.Basic
import Netlist.Project.Config

/-!
# Sessions with a project

A session holds the settings of a project, its catalog and its library. Opening a project registers
the leaves that its header files declare and collects its descriptions; composites are assembled
when something asks for them.

## Main definitions

* `Netlist.Session`: an open project; `Netlist.Session.openIn` opens it.
* `Netlist.Session.Action`: what is done in a session.
* `Netlist.Session.ensure`, `Netlist.Session.instantiate`, `Netlist.Session.flatten`: actions that
  assemble composites when needed.
* `Netlist.Catalog.save`, `Netlist.Catalog.load`: catalogs in files.
-/

namespace Netlist

/-! ### Files -/

namespace Catalog

/-- The file extensions of header files. -/
def headerExtensions : List String :=
  ["v", "sv", "desc"]

/-- The interfaces that a header file declares. -/
def interfacesOfFile (files : FileTree) (path : String) : Except Error (List Interface) := do
  let text ← (files.read path).mapError fun e => .descriptorLoadFailure path (.unreadable e)
  interfacesOf path text

/-- Register the leaves that the header files in a directory declare, and answer with their
number. Files are taken in the order of their names, and all are read before the first leaf is
registered. If there is no directory, there are no leaves. -/
def registerDirectory (files : FileTree) (dir : String) : Edit Nat := do
  let leaves ← Edit.query fun _ =>
    (files.filesIn dir headerExtensions).mapM (interfacesOfFile files)
  registerLeaves leaves.flatten

/-- Write a catalog into a file, and make the directories on the way to it. -/
def save (c : Catalog) (path : String) : ExceptT Error (StateM FileTree) Unit :=
  ExceptT.adapt Error.file (FileTree.store path c.toText.toUTF8)

/-- The catalog in a file. -/
def load (files : FileTree) (path : String) : Except Error Catalog := do
  ofText (← (files.read path).mapError .file)

end Catalog

/-! ### Sessions -/

/-- An open project. -/
structure Session where
  config : Config
  /-- The places of the project's files, below its directory. -/
  paths : Config.Paths
  catalog : Catalog
  library : Library

namespace Session

/-- Why something cannot be done in a session. -/
inductive Error where
  | config (cause : Config.Error)
  | netlist (cause : Netlist.Error)
deriving DecidableEq, Repr

/-- The wording of an error. -/
def Error.message : Error → String
  | config cause => cause.message
  | netlist cause => cause.message

/-- Open the project in a directory with given settings. -/
def openWith (files : FileTree) (config : Config) (dir : String) : Except Error Session := do
  let paths := config.paths.within dir
  let (leaves, catalog) := (Catalog.registerDirectory files paths.leaves).runOn .empty
  let _ ← leaves.mapError .netlist
  let library ← (Library.scan files paths.composites config.boundary).mapError .netlist
  return ⟨config, paths, catalog, library⟩

/-- Open the project in a directory. -/
def openIn (files : FileTree) (dir : String) : Except Error Session := do
  openWith files (← (Config.load files dir).mapError .config) dir

/-! ### Actions -/

/-- Something that is done in a session and may fail. What it did before it failed stays done. -/
abbrev Action (α : Type) := ExceptT Netlist.Error (StateM Session) α

/-- The session that is left behind, and the result or the error. -/
def Action.runOn {α : Type} (action : Action α) (s : Session) :
    Except Netlist.Error α × Session :=
  (ExceptT.run action).run s

/-- An edit of the session's catalog. -/
def edit {α : Type} (e : Catalog.Edit α) : Action α := do
  let s ← getThe Session
  let (result, catalog) := e.runOn s.catalog
  set { s with catalog }
  liftExcept result

/-- Ask something of the session. -/
def query {α : Type} (f : Session → Except Netlist.Error α) : Action α := do
  liftExcept (f (← getThe Session))

/-- Make sure that a module is registered: assemble it if it is not. -/
def ensure (module : String) : Action Unit := do
  let s ← getThe Session
  if !s.catalog.contains module then
    if !(← edit (s.library.load module)) then throw (.moduleNotFound module)

/-- Add an instance to a graph, and assemble its module if need be. The instance's name must be an
identifier. -/
def instantiate (g : Graph) (name module : String) : Action Graph := do
  if !isIdentifier name then throw (.invalidInstanceName name)
  edit ((← getThe Session).library.instantiate g name module)

/-- Connect two instances of a graph. -/
def connect (s : Session) (g : Graph) (source dest : String) (bindings : List Binding) :
    Except Netlist.Error Graph :=
  g.connect s.catalog source dest bindings

/-- Assemble every described composite that is not registered yet, and answer with their number. -/
def loadAll : Action Nat := do
  edit (← getThe Session).library.loadAll

/-- The flat inside of a composite, which is assembled if need be. -/
def flatten (module : String) : Action Graph := do
  ensure module
  query fun s => s.catalog.flattenModule s.config.boundary module

/-- The flat inside of the module that the project is about. -/
def flattenTop : Action Graph := do
  flatten (← getThe Session).config.top

/-- A graph without the composites in it. -/
def flattenGraph (s : Session) (g : Graph) : Except Netlist.Error Graph :=
  s.catalog.flattenGraph s.config.boundary g

/-- Write the session's catalog into its file, and answer with the file's path. -/
def save (s : Session) : ExceptT Netlist.Error (StateM FileTree) String := do
  s.catalog.save s.paths.catalog
  return s.paths.catalog

end Session

end Netlist
