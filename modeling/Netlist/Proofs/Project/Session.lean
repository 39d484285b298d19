import Netlist.Project.Session
import Netlist.Proofs.FileTree
import Netlist.Proofs.Library.Lazy

/-!
# Catalogs of sessions

The catalog of a session holds the leaves that were registered when the session was opened and the
composites that were assembled since. Whatever is asked of the session, and whether or not it can be
done, the catalog stays regular, so it can be saved and loaded again.

## Main definitions

* `Netlist.Session.Request`: what can be asked of a session.
* `Netlist.Session.after`: a session after several requests.

## Main results

* `Netlist.Session.flatten_eq_of_loadAll`: a session may load everything first or not.
* `Netlist.Session.perform_keeps`: whatever is asked of a session keeps its catalog regular.
* `Netlist.Session.ofText_toText_after`: the catalog of a session can be loaded again.
-/

namespace Netlist

open Catalog (Edit Regular)

namespace Session

variable {α β : Type} {s s' : Session} {m : String}

/-! ### Actions -/

theorem runOn_bind (x : Action α) (f : α → Action β) (s : Session) :
    (x >>= f).runOn s = match x.runOn s with
      | (.ok a, s') => (f a).runOn s'
      | (.error e, s') => (.error e, s') := by
  simp only [Action.runOn, ExceptT.run, bind, ExceptT.bind, ExceptT.mk, StateT.run, StateT.bind,
    ExceptT.bindCont]
  rcases x s with ⟨_ | _, _⟩ <;> rfl

/-- An action that looks at the session first. -/
theorem runOn_get_bind (f : Session → Action β) (s : Session) :
    (getThe Session >>= f).runOn s = (f s).runOn s :=
  rfl

theorem runOn_edit (e : Edit α) (s : Session) : (edit e).runOn s =
    ((e.runOn s.catalog).1, { s with catalog := (e.runOn s.catalog).2 }) := by
  change (liftExcept (e.runOn s.catalog).1 : Action α).runOn _ = _
  cases (e.runOn s.catalog).1 <;> rfl

theorem runOn_query (q : Session → Except Netlist.Error α) (s : Session) :
    (query q).runOn s = (q s, s) := by
  change (liftExcept (q s) : Action α).runOn s = _
  cases q s <;> rfl

theorem ensure_of_contains (h : s.catalog.contains m = true) :
    (ensure m).runOn s = (.ok (), s) := by
  rw [ensure, runOn_get_bind, if_neg (by simp [h])]
  rfl

theorem ensure_of_load {c : Catalog} (h : ¬s.catalog.contains m = true)
    (hload : (s.library.load m).runOn s.catalog = (.ok true, c)) :
    (ensure m).runOn s = (.ok (), { s with catalog := c }) := by
  have hedit : (edit (s.library.load m)).runOn s = (.ok true, { s with catalog := c }) := by
    rw [runOn_edit, hload]
  rw [ensure, runOn_get_bind, if_pos (by simp [h]), runOn_bind, hedit]
  rfl

theorem ensure_of_load_error {e : Netlist.Error} {c : Catalog} (h : ¬s.catalog.contains m = true)
    (hload : (s.library.load m).runOn s.catalog = (.error e, c)) :
    (ensure m).runOn s = (.error e, { s with catalog := c }) := by
  have hedit : (edit (s.library.load m)).runOn s = (.error e, { s with catalog := c }) := by
    rw [runOn_edit, hload]
  rw [ensure, runOn_get_bind, if_pos (by simp [h]), runOn_bind, hedit]

/-- A session adds an instance of a module that it loads first. -/
theorem runOn_instantiate {g : Graph} {name : String} {found : Bool} {c : Catalog}
    (hname : isIdentifier name = true) (hnew : ¬g.contains name = true)
    (h : ¬s.catalog.contains m = true)
    (hload : (s.library.load m).runOn s.catalog = (.ok found, c)) :
    (instantiate g name m).runOn s = (g.instantiate c name m, { s with catalog := c }) := by
  have hrun : (s.library.instantiate g name m).runOn s.catalog = (g.instantiate c name m, c) := by
    rw [Library.instantiate, if_neg hnew, Edit.runOn_get_bind, if_pos (by simp [h]),
      Edit.runOn_bind, hload]
    exact Edit.runOn_query _ c
  rw [instantiate, if_neg (by simp [hname]), runOn_get_bind, runOn_edit, hrun]

theorem runOn_loadAll {r : Except Netlist.Error Nat} {c : Catalog}
    (h : s.library.loadAll.runOn s.catalog = (r, c)) :
    loadAll.runOn s = (r, { s with catalog := c }) := by
  rw [loadAll, runOn_get_bind, runOn_edit, h]

theorem runOn_flatten (h : (ensure m).runOn s = (.ok (), s')) : (flatten m).runOn s =
    (s'.catalog.flattenModule s'.config.boundary m, s') := by
  rw [flatten, runOn_bind, h]
  exact runOn_query _ s'

/-- A session flattens a described composite on demand as it does after it has assembled
everything. -/
theorem flatten_eq_of_loadAll (hl : s.library.Parsed) (hc : ∀ m, s.catalog.body? m = none) {n : Nat}
    (hall : loadAll.runOn s = (.ok n, s')) (hm : s.library.contains m = true)
    (hnew : ¬s.catalog.contains m = true) :
    ((flatten m).runOn s).1 = ((flatten m).runOn s').1 := by
  rw [loadAll, runOn_get_bind, runOn_edit, Prod.mk.injEq] at hall
  obtain ⟨hn, rfl⟩ := hall
  have he := Library.full_of_loadAll hl.filed hc (Prod.ext hn rfl)
  obtain ⟨order, f, hbuild, hf, hfe, hfm⟩ := he.exists_build hl.clear hc ⟨hm, hnew⟩
  rw [runOn_flatten (ensure_of_load hnew (Library.load_of_build hm hbuild)),
    runOn_flatten (ensure_of_contains (he.contains m hm))]
  exact he.flattenModule_eq hf hfe hfm _

/-! ### Requests -/

/-- What can be asked of a session. -/
inductive Request where
  | ensure (module : String)
  | instantiate (g : Graph) (name module : String)
  | loadAll
  | flatten (module : String)
  | flattenGraph (g : Graph)

/-- Do what is asked. Only the session that is left behind is of interest here. -/
def perform : Request → Action Unit
  | .ensure module => ensure module
  | .instantiate g name module => do let _ ← instantiate g name module
  | .loadAll => do let _ ← loadAll
  | .flatten module => do let _ ← flatten module
  | .flattenGraph g => do let _ ← query fun s => s.flattenGraph g

/-- The session after several requests, each of which may fail. -/
def after (s : Session) (rs : List Request) : Session :=
  rs.foldl (fun s r => ((perform r).runOn s).2) s

/-- What holds of every session: its catalog is regular, and the descriptions in its library have
passed their check. -/
structure Steady (s : Session) : Prop where
  catalog : s.catalog.Regular
  library : s.library.Checked

theorem after_cons (s : Session) (r : Request) (rs : List Request) :
    s.after (r :: rs) = ((perform r).runOn s).2.after rs :=
  rfl

/-- The session that an action leaves behind, whatever becomes of its answer. -/
theorem runOn_discard (x : Action α) (s : Session) :
    ((do let _ ← x : Action Unit).runOn s).2 = (x.runOn s).2 := by
  rw [runOn_bind]
  rcases x.runOn s with ⟨_ | _, _⟩ <;> rfl

/-- A session that has just been opened. -/
theorem openWith_steady {files : FileTree} {config : Config} {dir : String} {s : Session}
    (h : openWith files config dir = .ok s) : s.Steady := by
  obtain ⟨_, -, h⟩ := bind_eq_ok_iff.1 h
  obtain ⟨library, hlibrary, h⟩ := bind_eq_ok_iff.1 h
  cases h
  have hleaves : Keeps Regular (Catalog.registerDirectory files (config.paths.within dir).leaves) :=
    (Edit.query_keeps _ _).bind fun _ => Catalog.registerLeaves_keeps _
  exact ⟨hleaves .empty .empty, Library.scan_checked (mapError_eq_ok_iff.1 hlibrary)⟩

/-- Editing the catalog keeps what holds of a session, if the edit keeps catalogs regular. -/
theorem edit_keeps {α : Type} {e : Edit α} (he : Keeps Regular e) : Keeps Steady (edit e) := by
  refine Keeps.get_bind fun s hs => ?_
  have hc : (e.runOn s.catalog).2.Regular := he s.catalog hs.catalog
  exact .set_bind ⟨hc, hs.library⟩ (.liftExcept _)

theorem query_keeps {α : Type} (q : Session → Except Netlist.Error α) :
    Keeps Steady (query q) :=
  Keeps.get_bind fun s _ => .liftExcept (q s)

theorem ensure_keeps (module : String) : Keeps Steady (ensure module) := by
  refine Keeps.get_bind fun s hs => ?_
  split_ifs
  · refine (edit_keeps (hs.library.keeping.load module)).bind fun found => ?_
    split_ifs
    · exact .throw _
    · exact .pure _
  · exact .pure _

/-- Whatever is asked of a session keeps what holds of it, whether or not it can be done. -/
theorem perform_keeps (r : Request) : Keeps Steady (perform r) := by
  cases r with
  | ensure module => exact ensure_keeps module
  | instantiate g name module =>
    refine Keeps.bind ?_ fun _ => .pure _
    unfold instantiate
    split_ifs
    · exact .throw_bind _ _
    · exact Keeps.get_bind fun s hs =>
        edit_keeps (hs.library.keeping.instantiate g name module)
  | loadAll =>
    refine Keeps.bind (Keeps.get_bind fun s hs => ?_) fun _ => .pure _
    exact edit_keeps (hs.library.keeping.buildAll _)
  | flatten module =>
    exact Keeps.bind ((ensure_keeps module).bind fun _ => query_keeps _) fun _ => .pure _
  | flattenGraph g => exact (query_keeps _).bind fun _ => .pure _

theorem after_steady (hs : s.Steady) (rs : List Request) : (s.after rs).Steady := by
  induction rs generalizing s with
  | nil => exact hs
  | cons r rs ih => exact ih (perform_keeps r s hs)

/-- The catalog of a session can be loaded again, whatever was asked of the session and whether or
not it could be done. It comes back with its modules in the same order. -/
theorem ofText_toText_after {files : FileTree} {config : Config} {dir : String} {s : Session}
    (h : openWith files config dir = .ok s) (rs : List Request) :
    ∃ c, Catalog.ofText (s.after rs).catalog.toText = .ok c ∧ (s.after rs).catalog.Agree c ∧
      c.names = (s.after rs).catalog.names := by
  have hc := (after_steady (openWith_steady h) rs).catalog.reloadable
  exact ⟨_, hc.ofText_toText, hc.agree_packed, Catalog.names_packed _⟩

end Session

/-! ### A project -/

namespace Sample

/-- The header of the leaf. -/
def leafText : String :=
  "module leaf (input [7:0] i, output [7:0] o); endmodule"

/-- The text that describes two composites in a row. -/
def rowText : String :=
  "name = \"row\"
[inputs]
i = 8
[outputs]
o = 8
[[instances]]
name = \"s\"
module = \"stage\"
[[instances]]
name = \"t\"
module = \"stage\"
[[connections]]
source = \"s\"
dest = \"t\"
ports = [[\"o\", \"i\"]]
[input_connections]
i = [[\"s\", \"i\"]]
[output_connections]
o = [\"t\", \"o\"]
"

/-- The text that describes a composite around another one, which does not have the port that the
input is to drive. -/
def brokenText : String :=
  "name = \"broken\"
[inputs]
i = 8
[outputs]
o = 8
[[instances]]
name = \"s\"
module = \"stage\"
[input_connections]
i = [[\"s\", \"q\"]]
[output_connections]
o = [\"s\", \"o\"]
"

/-- The description in this text. -/
def describeBroken : Description :=
  { describeAround "broken" "s" with
    cells := [⟨"s", "stage"⟩]
    inputSinks := .ofList [("i", [⟨"s", "q"⟩])] }

/-- A project with the header of the leaf and the descriptions of three composites. -/
def projectFiles : FileTree :=
  ⟨[], [(["headers"], .directory), (["headers", "leaf.v"], .file leafText.toUTF8),
    (["composites"], .directory), (["composites", "broken.toml"], .file brokenText.toUTF8),
    (["composites", "row.toml"], .file rowText.toUTF8),
    (["composites", "stage.toml"], .file stageText.toUTF8)]⟩

/-- Settings for the project. -/
def projectConfig : Config :=
  ⟨"sample", "", "", "row", .standard, ⟨"headers", "composites", "catalog.json"⟩⟩

/-- The library of the project. -/
def projectLibrary : Library :=
  ⟨.standard, .ofList [("broken", ⟨describeBroken, some "composites/broken.toml"⟩),
    ("row", ⟨describeRow, some "composites/row.toml"⟩),
    ("stage", ⟨describeAround "stage" "x", some "composites/stage.toml"⟩)]⟩

theorem read_project :
    projectFiles.read "headers/leaf.v" = .ok leafText ∧
      projectFiles.read "composites/broken.toml" = .ok brokenText ∧
      projectFiles.read "composites/row.toml" = .ok rowText ∧
      projectFiles.read "composites/stage.toml" = .ok stageText := by
  have hread {path text : String} {place : List String}
      (h : projectFiles.follow [] ((path.toList.splitOn '/').map String.ofList) =
        .ok (place, some (.file text.toUTF8))) : projectFiles.read path = .ok text :=
    FileTree.read_of_find (FileTree.find_of_follow rfl h)
  exact ⟨hread rfl, hread rfl, hread rfl, hread rfl⟩

theorem filesIn_headers :
    projectFiles.filesIn "headers" Catalog.headerExtensions = ["headers/leaf.v"] := by
  have hfind : projectFiles.find "headers" = .ok (["headers"], some .directory) :=
    FileTree.find_of_follow rfl rfl
  rw [FileTree.filesIn, hfind]
  simp only [FilePath.extension?_eq]
  change (["leaf.v"].mergeSort fun a b => decide (a ≤ b)).map (FilePath.join "headers") = _
  rw [List.mergeSort_of_pairwise (by decide), List.map_singleton,
    FilePath.join_eq (by decide) (by decide) (by decide)]
  rfl

theorem filesIn_composites : projectFiles.filesIn "composites" ["toml"] =
    ["composites/broken.toml", "composites/row.toml", "composites/stage.toml"] := by
  have hfind : projectFiles.find "composites" = .ok (["composites"], some .directory) :=
    FileTree.find_of_follow rfl rfl
  have hjoin (name : String) (h : ¬['/'] <+: name.toList) :
      FilePath.join "composites" name = "composites/" ++ name :=
    FilePath.join_eq h (by decide) (by decide)
  rw [FileTree.filesIn, hfind]
  simp only [FilePath.extension?_eq]
  change (["broken.toml", "row.toml", "stage.toml"].mergeSort fun a b => decide (a ≤ b)).map
    (FilePath.join "composites") = _
  rw [List.mergeSort_of_pairwise (by decide), List.map_cons, List.map_cons, List.map_singleton,
    hjoin "broken.toml" (by decide), hjoin "row.toml" (by decide), hjoin "stage.toml" (by decide)]
  rfl

theorem registerDirectory_project :
    (Catalog.registerDirectory projectFiles "headers").runOn .empty = (.ok 1, leaves) := by
  have hfile : Catalog.interfacesOfFile projectFiles "headers/leaf.v" =
      Catalog.interfacesOf "headers/leaf.v" leafText := by
    rw [Catalog.interfacesOfFile, read_project.1]
    rfl
  have hinterfaces : Catalog.interfacesOf "headers/leaf.v" leafText =
      .ok [⟨"leaf", leaf.inputs, leaf.outputs⟩] := by
    decide +kernel
  rw [Catalog.registerDirectory, filesIn_headers, List.mapM_cons, hfile, hinterfaces]
  decide

theorem scan_project : Library.scan projectFiles "composites" .standard = .ok projectLibrary := by
  have hbroken : Description.ofText brokenText = .ok describeBroken := by decide +kernel
  have hrow : Description.ofText rowText = .ok describeRow := by decide +kernel
  obtain ⟨-, hread₁, hread₂, hread₃⟩ := read_project
  rw [Library.scan, filesIn_composites]
  simp only [List.foldlM_cons, List.foldlM_nil, Library.insertFile_of_ofText hread₁ hbroken,
    Library.insertFile_of_ofText hread₂ hrow, Library.insertFile_of_ofText hread₃ ofText_stageText]
  rfl

/-- A session with the project when some modules have been registered. -/
def projectSession (c : Catalog) : Session :=
  ⟨projectConfig, projectConfig.paths, c, projectLibrary⟩

theorem openWith_project :
    Session.openWith projectFiles projectConfig "" = .ok (projectSession leaves) := by
  have hpaths : projectConfig.paths.within "" = projectConfig.paths := by decide_cbv
  have hleaves : (Catalog.registerDirectory projectFiles projectConfig.paths.leaves).runOn .empty =
      (.ok 1, leaves) := registerDirectory_project
  have hlibrary : Library.scan projectFiles projectConfig.paths.composites projectConfig.boundary =
      .ok projectLibrary := scan_project
  rw [Session.openWith, hpaths, hleaves, hlibrary]
  rfl

/-! ### Requests that fail and succeed -/

/-- The leaf and the composite that both others need. -/
def projectStage : Catalog :=
  leaves.put "stage" ((describeAround "stage" "x").toModule (around "stage" "x"))

/-- Besides, the row. -/
def projectRow : Catalog :=
  projectStage.put "row" (describeRow.toModule rowInside)

/-- Why the broken composite cannot be assembled. -/
def brokenError : Error :=
  .portNotFound ⟨"s", "q"⟩ "stage" .input

theorem buildListed_broken_stage :
    (projectLibrary.buildListed "broken").runOn projectStage =
      (.error brokenError, projectStage) :=
  Library.buildOne_of_wire_eq_error (g := ⟨[⟨"s", "stage", .cell⟩], [], []⟩) (by decide_cbv)
    (by decide_cbv) (by decide_cbv) (by decide_cbv)

theorem buildListed_broken_row :
    (projectLibrary.buildListed "broken").runOn projectRow = (.error brokenError, projectRow) :=
  Library.buildOne_of_wire_eq_error (g := ⟨[⟨"s", "stage", .cell⟩], [], []⟩) (by decide_cbv)
    (by decide_cbv) (by decide_cbv) (by decide_cbv)

theorem filed_project : projectLibrary.Filed :=
  (Library.scan_parsed scan_project).filed

theorem load_broken :
    (projectLibrary.load "broken").runOn leaves = (.error brokenError, projectStage) := by
  have hstage : (projectLibrary.buildListed "stage").runOn leaves = (.ok (), projectStage) :=
    Library.buildOne_of_checks (g := ⟨[⟨"x", "leaf", .cell⟩], [], []⟩) (by decide_cbv)
      (by decide_cbv) (by decide_cbv) (by decide_cbv) (by decide_cbv)
  have horder : projectLibrary.buildOrder leaves "broken" = .ok ["stage", "broken"] := by
    decide_cbv
  refine Library.load_of_build_error (by decide) (Library.build_of_forM_error horder ?_)
  rw [Edit.runOn_forM_cons, Edit.runOn_bind, hstage]
  exact Edit.runOn_bind_eq_error_iff.2 (.inl buildListed_broken_stage)

theorem load_row : (projectLibrary.load "row").runOn projectStage = (.ok true, projectRow) := by
  have hrow : (projectLibrary.buildListed "row").runOn projectStage = (.ok (), projectRow) :=
    Library.buildOne_of_checks (g := rowCells) (by decide_cbv) (by decide_cbv) (by decide_cbv)
      (by decide_cbv) (by decide_cbv)
  exact Library.load_of_build (by decide)
    (Library.build_of_buildListed filed_project (by decide) hrow)

theorem loadAll_project :
    projectLibrary.loadAll.runOn projectRow = (.error brokenError, projectRow) := by
  have horder : projectLibrary.buildOrder projectRow "broken" = .ok ["broken"] := by
    decide_cbv
  have hbuild : (projectLibrary.build "broken").runOn projectRow =
      (.error brokenError, projectRow) :=
    Library.build_of_forM_error horder
      (Edit.runOn_bind_eq_error_iff.2 (.inl buildListed_broken_row))
  have hnames : projectLibrary.names = ["broken", "row", "stage"] := by decide
  rw [Library.loadAll, hnames, Library.buildAll, Edit.runOn_get_bind, if_neg (by decide_cbv)]
  exact Edit.runOn_bind_eq_error_iff.2 (.inl hbuild)

end Sample

namespace Session

/-- A composite fails after the one that it needs has been assembled. Another one is assembled for
an instance, and flattened, and loading all composites fails. The leaf and two composites are left
then, and they come back. -/
theorem ofText_toText_after_failed_build :
    openWith Sample.projectFiles Sample.projectConfig "" =
        .ok (Sample.projectSession Sample.leaves) ∧
      (ensure "broken").runOn (Sample.projectSession Sample.leaves) =
        (.error Sample.brokenError, Sample.projectSession Sample.projectStage) ∧
      loadAll.runOn (Sample.projectSession Sample.projectRow) =
        (.error Sample.brokenError, Sample.projectSession Sample.projectRow) ∧
      (Sample.projectSession Sample.leaves).after [.ensure "broken",
        .instantiate .empty "u" "row", .flatten "row", .loadAll] =
          Sample.projectSession Sample.projectRow ∧
      ∃ c, Catalog.ofText Sample.projectRow.toText = .ok c ∧ Sample.projectRow.Agree c ∧
        c.names = ["leaf", "stage", "row"] := by
  have hensure : (ensure "broken").runOn (Sample.projectSession Sample.leaves) =
      (.error Sample.brokenError, Sample.projectSession Sample.projectStage) :=
    ensure_of_load_error (by decide) Sample.load_broken
  have hinstantiate : (instantiate .empty "u" "row").runOn
      (Sample.projectSession Sample.projectStage) =
        (_, Sample.projectSession Sample.projectRow) :=
    runOn_instantiate (by decide) (by decide) (by decide) Sample.load_row
  have hflatten : (flatten "row").runOn (Sample.projectSession Sample.projectRow) =
      (_, Sample.projectSession Sample.projectRow) :=
    runOn_flatten (ensure_of_contains (by decide))
  have hload : loadAll.runOn (Sample.projectSession Sample.projectRow) =
      (.error Sample.brokenError, Sample.projectSession Sample.projectRow) :=
    runOn_loadAll Sample.loadAll_project
  have hafter : (Sample.projectSession Sample.leaves).after [.ensure "broken",
      .instantiate .empty "u" "row", .flatten "row", .loadAll] =
        Sample.projectSession Sample.projectRow := by
    rw [after_cons, perform, hensure, after_cons, perform, runOn_discard, hinstantiate, after_cons,
      perform, runOn_discard, hflatten, after_cons, perform, runOn_discard, hload]
    rfl
  obtain ⟨c, hc, hagree, hnames⟩ := ofText_toText_after Sample.openWith_project
    [.ensure "broken", .instantiate .empty "u" "row", .flatten "row", .loadAll]
  rw [hafter] at hc hagree hnames
  exact ⟨Sample.openWith_project, hensure, hload, hafter, c, hc, hagree, hnames.trans (by decide)⟩

end Session

end Netlist
