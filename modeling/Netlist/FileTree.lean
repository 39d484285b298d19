/-!
# Trees of files

A `FileTree` holds directories and files by the names on the way to them. A path is a text of
names with slashes between them: an empty name or a dot stays where it is, two dots go up. A path
that begins with a slash starts at the root, any other at the tree's home directory.

## Main definitions

* `Netlist.FileError`: why a file operation fails, with its wording.
* `Netlist.FilePath.join`, `Netlist.FilePath.extension?`: operations on the text of a path.
* `Netlist.FileTree`: the tree, with `read`, `write` and `filesIn`.
* `Netlist.FileTree.Edit`: changes that may fail halfway; `Netlist.FileTree.makeDirs` and
  `Netlist.FileTree.store` are made of several steps.
-/

namespace Netlist

/-- Why a file operation fails. -/
inductive FileError where
  | notFound
  | alreadyExists
  | notADirectory
  | isADirectory
  /-- A file is read as text but does not hold UTF-8. -/
  | notText
deriving DecidableEq, Repr

/-- The wording of a file error: the system's text and number. -/
def FileError.message : FileError → String
  | notFound => "No such file or directory (os error 2)"
  | alreadyExists => "File exists (os error 17)"
  | notADirectory => "Not a directory (os error 20)"
  | isADirectory => "Is a directory (os error 21)"
  | notText => "stream did not contain valid UTF-8"

/-! ### The text of a path -/

namespace FilePath

/-- Whether a path starts at the root. -/
def isAbsolute (path : String) : Bool :=
  path.startsWith "/"

/-- A path below another one. A path that starts at the root replaces the first. -/
def join (base path : String) : String :=
  if isAbsolute path || base.isEmpty then path
  else if base.endsWith "/" then base ++ path
  else base ++ "/" ++ path

/-- The names of a path, with the empty ones between two slashes. -/
def segments (path : String) : List String :=
  path.splitOn "/"

/-- The names of a path that move somewhere. -/
def steps (path : String) : List String :=
  (segments path).filter fun s => s ≠ "" ∧ s ≠ "."

/-- The part of a file's name behind its last dot. A dot at the very start does not count. -/
def extension? (name : String) : Option String :=
  match (name.splitOn ".").reverse with
  | last :: before :: more => if before = "" ∧ more = [] then none else some last
  | _ => none

end FilePath

/-- A directory or a file with its bytes. -/
inductive FileNode where
  | directory
  | file (bytes : ByteArray)

/-- Directories and files by the names on the way from the root. The root is a directory and
has no entry. -/
structure FileTree where
  /-- Where relative paths start. -/
  home : List String
  nodes : List (List String × FileNode)

namespace FileTree

/-- What stands at a place. -/
def node? (t : FileTree) (place : List String) : Option FileNode :=
  if place = [] then some .directory else t.nodes.lookup place

/-- Put a node at a place, in the stead of what was there. -/
def put (t : FileTree) (place : List String) (node : FileNode) : FileTree :=
  { t with nodes := (place, node) :: t.nodes.filter (·.1 ≠ place) }

/-- A tree that holds nothing but its home directory. -/
def atHome (home : List String) : FileTree :=
  (List.range home.length).foldl (fun t n => t.put (home.take (n + 1)) .directory) ⟨home, []⟩

/-- Follow names from a directory: the place they lead to and what stands there. All but the
last must be directories. -/
def follow (t : FileTree) (place : List String) :
    List String → Except FileError (List String × Option FileNode)
  | [] => .ok (place, some .directory)
  | name :: rest =>
    if name = "" ∨ name = "." then follow t place rest
    else if name = ".." then follow t place.dropLast rest
    else match t.node? (place ++ [name]) with
      | some .directory => follow t (place ++ [name]) rest
      | some (.file bytes) =>
        if rest = [] then .ok (place ++ [name], some (.file bytes)) else .error .notADirectory
      | none => if rest.all (· = "") then .ok (place ++ [name], none) else .error .notFound

/-- The directory in which a path starts. -/
def start (t : FileTree) (path : String) : List String :=
  if FilePath.isAbsolute path then [] else t.home

/-- The place a path leads to and what stands there. -/
def find (t : FileTree) (path : String) : Except FileError (List String × Option FileNode) :=
  t.follow (t.start path) (FilePath.segments path)

/-- Whether a path leads to a directory. -/
def isDir (t : FileTree) (path : String) : Bool :=
  match t.find path with
  | .ok (_, some .directory) => true
  | _ => false

/-! ### Reading and writing -/

/-- The text of a file. -/
def read (t : FileTree) (path : String) : Except FileError String := do
  match ← t.find path with
  | (_, some (.file bytes)) =>
    match String.fromUTF8? bytes with
    | some text => .ok text
    | none => .error .notText
  | (_, some .directory) => .error .isADirectory
  | (_, none) => .error .notFound

/-- Write a file into a directory that exists, in the stead of a file that is there. A path with
a slash at its end names a directory, whatever is there. -/
def write (t : FileTree) (path : String) (bytes : ByteArray) : Except FileError FileTree := do
  let names := ((FilePath.segments path).reverse.dropWhile (· = "")).reverse
  match ← t.follow (t.start path) names with
  | (_, some .directory) => .error .isADirectory
  | (place, _) =>
    if path.endsWith "/" then .error .isADirectory else .ok (t.put place (.file bytes))

/-- Make one directory. -/
def makeDir (t : FileTree) (place : List String) (names : List String) :
    Except FileError FileTree := do
  match ← t.follow place names with
  | (_, some _) => .error .alreadyExists
  | (new, none) => .ok (t.put new .directory)

/-- Make one directory, unless it exists. -/
def ensureDir (t : FileTree) (place : List String) (names : List String) :
    Except FileError FileTree :=
  match t.makeDir place names, t.follow place names with
  | .error _, .ok (_, some .directory) => .ok t
  | made, _ => made

/-! ### Several directories -/

/-- A change of a tree that may fail. What it did before it failed stays done. -/
abbrev Edit (α : Type) := ExceptT FileError (StateM FileTree) α

namespace Edit

/-- Replace the tree, unless the replacement fails. -/
def replace (f : FileTree → Except FileError FileTree) : Edit Unit := do
  set (← liftExcept (f (← getThe FileTree)))

/-- The tree that is left behind, and the result or the error. -/
def runOn {α : Type} (edit : Edit α) (t : FileTree) : Except FileError α × FileTree :=
  (ExceptT.run edit).run t

end Edit

/-- Make the directory at the end of names, which are given from the last one back, and those
on the way to it, unless they exist. Those on the way are made only if the last one cannot be
made for want of them, and they stay when a later one cannot be made. -/
def makeDirsBack (place : List String) : List String → Edit Unit
  | [] => pure ()
  | name :: above => do
    let names := (name :: above).reverse
    match (← getThe FileTree).ensureDir place names with
    | .ok t => set t
    | .error .notFound => do
      makeDirsBack place above
      Edit.replace fun t => t.ensureDir place names
    | .error e => throw e

/-- Make a directory and those on the way to it, unless they exist. -/
def makeDirs (path : String) : Edit Unit := do
  makeDirsBack ((← getThe FileTree).start path) (FilePath.steps path).reverse

/-- Write a file, and make the directories on the way to it. -/
def store (path : String) (bytes : ByteArray) : Edit Unit := do
  makeDirsBack ((← getThe FileTree).start path) (FilePath.steps path).reverse.tail
  Edit.replace fun t => t.write path bytes

/-! ### Listing -/

/-- The paths of the files in a directory whose extension is among those given, in the order of
their names. -/
def filesIn (t : FileTree) (dir : String) (extensions : List String) : List String :=
  match t.find dir with
  | .ok (place, some .directory) =>
    let names := t.nodes.filterMap fun (path, node) =>
      match node, path.getLast? with
      | .file _, some name =>
        if path = place ++ [name] ∧ (FilePath.extension? name).any (· ∈ extensions) then some name
        else none
      | _, _ => none
    (names.mergeSort fun a b => decide (a ≤ b)).map (FilePath.join dir)
  | _ => []

end FileTree

end Netlist
