import Netlist.Proofs.Flatten.Locality
import Netlist.Proofs.Library.Reassembly

/-!
# Loading on demand

A composite that is assembled on demand, after those that it needs and no others, is the same as if
all described composites had been assembled, and it flattens to the same graph. For what it needs is
assembled first in either case, and neither run is disturbed by the other modules that it has
registered by then. Only a name may come in between: that of a module which boundary instances are
bound to for a while. A composite with such a name has to come later, as it may when all of them are
assembled and not when only some are.

## Main definitions

* `Netlist.Library.Full`: every described composite has been assembled.

## Main results

* `Netlist.Library.Full.build_or_clash`: a composite can be assembled on demand, up to a clash.
* `Netlist.Library.Full.flattenModule_eq`: what is assembled on demand flattens to the same graph.
* `Netlist.Library.load_agrees_loadAll`: loading on demand agrees with loading everything, or it
  fails with a clash.
-/

namespace Netlist

namespace Library

open Catalog (Edit)

variable {l : Library} {c e f : Catalog} {m : String} {B : Graph}

/-- Every described composite has been assembled, if it was not registered before. -/
structure Full (l : Library) (c e : Catalog) : Prop where
  filed : l.Filed
  loaded : Loaded l c e
  contains : ∀ m, l.contains m = true → e.contains m = true

/-- What assembling a composite on top of leaves gives. -/
theorem loaded_of_build (hl : l.Filed) (hc : ∀ m, c.body? m = none) {order : List String}
    (h : (l.build m).runOn c = (.ok order, f)) : Loaded l c f :=
  Edit.of_keeps ((loaded_keeping hl c).build m) (.of_leaves l hc) h

namespace Full

variable (he : l.Full c e)
include he

theorem finished : l.Finished c e :=
  ⟨he.filed, he.loaded.gathered, he.contains⟩

/-- A described composite can be assembled on demand, up to a clash. -/
theorem build_or_clash (hc : ∀ m, c.body? m = none) (hm : l.Pending c m) :
    ∃ order, l.buildOrder c m = .ok order ∧
      (((∀ name taken, ¬l.Clashes order name taken) ∧
        ∃ f, (l.build m).runOn c = (.ok order, f) ∧ Loaded l c f ∧ f.Grows e ∧
          f.contains m = true) ∨
      ∃ name taken f, l.Clashes order name taken ∧
        (l.build m).runOn c = (.error (.duplicateModule taken), f)) := by
  obtain ⟨order, horder, h⟩ := he.finished.build_or_clash hm
  refine ⟨order, horder, h.imp_left ?_⟩
  rintro ⟨hclear, f, hrun, -, hfe, hfm⟩
  exact ⟨hclear, f, hrun, loaded_of_build he.filed hc hrun, hfe, hfm⟩

/-- Without names to clash with, a described composite can be assembled on demand. -/
theorem exists_build (hclear : l.Clear) (hc : ∀ m, c.body? m = none) (hm : l.Pending c m) :
    ∃ order f, (l.build m).runOn c = (.ok order, f) ∧ Loaded l c f ∧ f.Grows e ∧
      f.contains m = true := by
  obtain ⟨order, f, hrun, -, hfe, hfm⟩ :=
    he.finished.exists_build hclear (.refl l c) he.loaded.grows hm
  exact ⟨order, f, hrun, loaded_of_build he.filed hc hrun, hfe, hfm⟩

/-- What has been assembled on demand flattens as it does when everything has been assembled. -/
theorem flattenModule_eq (hf : Loaded l c f) (hfe : f.Grows e) (hm : f.contains m = true)
    (b : Boundary) : f.flattenModule b m = e.flattenModule b m := by
  have hagree : f.AgreeOn (fun n => f.contains n = true) e :=
    Catalog.agreeOn_of_grows (hf.types.trans he.loaded.types.symm) hfe .refl (fun _ hn => hn)
      fun _ hn => hfe.contains hn
  exact Catalog.flattenModule_congr hagree
    (fun n g _ hg i hi => (hf.inside n g hg).2.registered i hi) b hm

end Full

/-! ### Flattening what was loaded -/

/-- If the boundary names are identifiers, whatever a library assembles keeps catalogs assembled. -/
theorem assembled_keeping (hin : isIdentifier l.boundary.inputBlock = true)
    (hout : isIdentifier l.boundary.outputBlock = true) : l.Keeping Catalog.Assembled := by
  refine fun name x hx => buildOne_keeps_of fun d B hd hy hbody => ?_
  obtain ⟨g, hg, hB⟩ := hy.gives
  have hbuilt := built_of_inside hg
  exact hd.register hin hout hbuilt.wellFormed hbuilt.cells
    (Assembly.register_eq_ok_iff.2 ⟨B, hB, hy.add hbody⟩)

/-- Loaded composites can be flattened: their insides are sound, with a boundary and with
identifiers for names. -/
theorem Loaded.exists_flattenModule (hf : Loaded l c f) (hassembled : f.Assembled) {b : Boundary}
    (hb : b.Separates) (hB : f.body? m = some B) : ∃ flat, f.flattenModule b m = .ok flat := by
  have hwhole (m : String) (B : Graph) (hB : f.body? m = some B) :
      Flatten.Whole f m B ∧ Flatten.Named B := by
    obtain ⟨hw, hframed, hn⟩ := hassembled.tidy.inside m B hB
    exact ⟨⟨hw, (hf.inside m B hB).2, hframed⟩, hn⟩
  obtain ⟨flat, hflat⟩ := Flatten.exists_expands hb hf.wellFounded hwhole hB
  exact ⟨flat, Flatten.flattenModule_eq_ok_iff.2 hflat⟩

/-! ### Both ways to load -/

/-- Loading everything on top of leaves assembles every described composite. -/
theorem full_of_loadAll (hl : l.Filed) (hc : ∀ m, c.body? m = none) {n : Nat}
    (h : l.loadAll.runOn c = (.ok n, e)) : l.Full c e where
  filed := hl
  loaded := Edit.of_keeps ((loaded_keeping hl c).buildAll l.names) (.of_leaves l hc) h
  contains _ hm := contains_of_loadAll hl h hm

/-- Loading on demand agrees with loading everything. Where all described composites can be loaded
on top of leaves, there is an order in which to assemble each of them that is not registered after
those that it needs. In this order no two clash, and it is the same module then, and flattens to the
same graph or fails to in the same way; it does flatten if the boundary names and the separator are
fit for use. Or two of them clash, and it is refused for a name that is taken. Descriptions that
pass their checks do not clash. -/
theorem load_agrees_loadAll (hl : l.Filed) (hc : ∀ m, c.body? m = none) {n : Nat}
    (hall : l.loadAll.runOn c = (.ok n, e)) (hm : l.contains m = true)
    (hnew : ¬c.contains m = true) :
    ∃ order, l.buildOrder c m = .ok order ∧
      (((∀ name taken, ¬l.Clashes order name taken) ∧
        ∃ f, (l.build m).runOn c = (.ok order, f) ∧ (l.load m).runOn c = (.ok true, f) ∧
          (∃ M, f.module? m = some M ∧ e.module? m = some M) ∧
          (∀ b, f.flattenModule b m = e.flattenModule b m) ∧
          (l.boundary.check = .ok () → ∀ b : Boundary, b.Separates →
            ∃ flat, f.flattenModule b m = .ok flat)) ∨
      ∃ name taken f, l.Clashes order name taken ∧
        (l.build m).runOn c = (.error (.duplicateModule taken), f) ∧
        (l.load m).runOn c = (.error (.duplicateModule taken), f)) ∧
      (l.Checked → ∀ name taken, ¬l.Clashes order name taken) := by
  have he := full_of_loadAll hl hc hall
  obtain ⟨order, horder, ⟨hclear, f, hrun, hf, hfe, hfm⟩ | ⟨name, taken, f, hclash, hrun⟩⟩ :=
    he.build_or_clash hc ⟨hm, hnew⟩
  · obtain ⟨M, hM⟩ := Catalog.contains_iff_module?.1 hfm
    refine ⟨order, horder, .inl ⟨hclear, f, hrun, load_of_build hm hrun,
      ⟨M, hM, hfe.module? m M hM⟩, he.flattenModule_eq hf hfe hfm, fun hb b hsep => ?_⟩,
      fun _ => hclear⟩
    obtain ⟨hin, hout, -, -⟩ := Boundary.check_eq_ok_iff.1 hb
    have hassembled : f.Assembled :=
      Edit.of_keeps ((assembled_keeping hin hout).build m) (.leaves hc) hrun
    obtain ⟨x, B, hrec⟩ := (hf.recorded m hfm).resolve_left hnew
    exact hf.exists_flattenModule hassembled hsep
      (Catalog.body?_eq_some_iff.2 ⟨_, hrec.registered, rfl⟩)
  · refine ⟨order, horder,
      .inr ⟨name, taken, f, hclash, hrun, load_of_build_error hm hrun⟩, fun hchecked => ?_⟩
    obtain ⟨_, _, hok, -⟩ := he.exists_build (Parsed.clear ⟨hl, hchecked⟩) hc ⟨hm, hnew⟩
    cases hok.symm.trans hrun

end Library

/-! ### Samples -/

namespace Sample

open Catalog (Edit)

/-- The description of a composite with one input and one output, which given cells drive and
receive. -/
def describe (name : String) (cells : List Description.Cell)
    (connections : List Description.Connection) (first last : String) : Description where
  name := name
  remark := ""
  inputs := .ofList [("i", .bits 8)]
  outputs := .ofList [("o", .bits 8)]
  cells := cells
  connections := connections
  inputSinks := .ofList [("i", [⟨first, "i"⟩])]
  outputSources := .ofList [("o", ⟨last, "o"⟩)]
  feedThrough := .empty

/-- The description of a composite around one leaf. -/
def describeAround (name cell : String) : Description :=
  describe name [⟨cell, "leaf"⟩] [] cell cell

/-- The text that describes a composite around one leaf. -/
def stageText : String :=
  "name = \"stage\"
[inputs]
i = 8
[outputs]
o = 8
[[instances]]
name = \"x\"
module = \"leaf\"
[input_connections]
i = [[\"x\", \"i\"]]
[output_connections]
o = [\"x\", \"o\"]
"

theorem ofText_stageText : Description.ofText stageText = .ok (describeAround "stage" "x") := by
  decide +kernel

/-- The description of two composites in a row. -/
def describeRow : Description :=
  describe "row" [⟨"s", "stage"⟩, ⟨"t", "stage"⟩] [⟨"s", "t", .list [("o", "i")]⟩] "s" "t"

/-- The library of two composites around one leaf, and of two of the second one in a row. -/
def library : Library :=
  ⟨.standard, .ofList [("aside", ⟨describeAround "aside" "y", none⟩), ("row", ⟨describeRow, none⟩),
    ("stage", ⟨describeAround "stage" "x", none⟩)]⟩

/-- The inside of a composite around one leaf. -/
def around (name cell : String) : Graph where
  instances := [⟨cell, "leaf", .cell⟩, ⟨"input_block", name, .inputBoundary⟩,
    ⟨"output_block", name, .outputBoundary⟩]
  links := [⟨⟨cell, "output_block", [⟨"o", "o"⟩]⟩, 1⟩, ⟨⟨"input_block", cell, [⟨"i", "i"⟩]⟩, 0⟩]
  freed := []

/-- The two cells of the row and the wire between them. -/
def rowCells : Graph where
  instances := [⟨"s", "stage", .cell⟩, ⟨"t", "stage", .cell⟩]
  links := [⟨⟨"s", "t", [⟨"o", "i"⟩]⟩, 0⟩]
  freed := []

/-- The inside of the row. -/
def rowInside : Graph where
  instances := rowCells.instances ++
    [⟨"input_block", "row", .inputBoundary⟩, ⟨"output_block", "row", .outputBoundary⟩]
  links := [⟨⟨"t", "output_block", [⟨"o", "o"⟩]⟩, 2⟩, ⟨⟨"input_block", "s", [⟨"i", "i"⟩]⟩, 1⟩,
    ⟨⟨"s", "t", [⟨"o", "i"⟩]⟩, 0⟩]
  freed := []

/-- The leaf, and besides the composite around it that nothing instantiates. -/
def asideLoaded : Catalog :=
  leaves.put "aside" ((describeAround "aside" "y").toModule (around "aside" "y"))

/-- Besides, the composite that the row instantiates. -/
def stageLoaded : Catalog :=
  asideLoaded.put "stage" ((describeAround "stage" "x").toModule (around "stage" "x"))

/-- All that the library describes. -/
def allLoaded : Catalog :=
  stageLoaded.put "row" (describeRow.toModule rowInside)

theorem parsed_library : library.Parsed := by
  have haside : (describeAround "aside" "y").check = .ok () := by decide
  have hrow : describeRow.check = .ok () := by decide
  have hstage : (describeAround "stage" "x").check = .ok () := by decide
  exact Library.parsed_of_entries <| List.forall_mem_cons.2 ⟨⟨rfl, haside⟩,
    List.forall_mem_cons.2 ⟨⟨rfl, hrow⟩, List.forall_mem_singleton.2 ⟨rfl, hstage⟩⟩⟩

theorem loadAll_library : library.loadAll.runOn leaves = (.ok 3, allLoaded) := by
  have haside : (library.buildListed "aside").runOn leaves = (.ok (), asideLoaded) :=
    Library.buildOne_of_checks (g := ⟨[⟨"y", "leaf", .cell⟩], [], []⟩) (by decide_cbv)
      (by decide_cbv) (by decide_cbv) (by decide_cbv) (by decide_cbv)
  have hstage : (library.buildListed "stage").runOn asideLoaded = (.ok (), stageLoaded) :=
    Library.buildOne_of_checks (g := ⟨[⟨"x", "leaf", .cell⟩], [], []⟩) (by decide_cbv)
      (by decide_cbv) (by decide_cbv) (by decide_cbv) (by decide_cbv)
  have hrow : (library.buildListed "row").runOn stageLoaded = (.ok (), allLoaded) :=
    Library.buildOne_of_checks (g := rowCells) (by decide_cbv) (by decide_cbv) (by decide_cbv)
      (by decide_cbv) (by decide_cbv)
  have hbuild₁ : (library.build "aside").runOn leaves = (.ok ["aside"], asideLoaded) :=
    Library.build_of_buildListed parsed_library.filed (by decide) haside
  have hbuild₂ : (library.build "row").runOn asideLoaded = (.ok ["stage", "row"], allLoaded) :=
    Library.build_eq_ok_iff.2 ⟨by decide_cbv, Edit.runOn_bind_eq_ok_iff.2 ⟨(), _, hstage,
      Edit.runOn_bind_eq_ok_iff.2 ⟨(), _, hrow, rfl⟩⟩⟩
  have hnames : library.names = ["aside", "row", "stage"] := by decide
  -- the row has brought its stage along
  have hrest : (library.buildAll ["stage"]).runOn allLoaded = (.ok 0, allLoaded) :=
    Library.runOn_buildAll_of_contains (by decide)
  rw [Library.loadAll, hnames]
  exact Library.runOn_buildAll_of_build (by decide) hbuild₁
    (Library.runOn_buildAll_of_build (by decide) hbuild₂ hrest)

end Sample

namespace Library

/-- The row is the same whether or not the composite that it does not need is there. -/
theorem load_agrees_loadAll_row : Sample.library.Filed ∧ (∀ m, Sample.leaves.body? m = none) ∧
    Sample.library.loadAll.runOn Sample.leaves = (.ok 3, Sample.allLoaded) ∧
    Sample.library.contains "row" = true ∧ ¬Sample.leaves.contains "row" = true ∧
    ∃ f, (Sample.library.build "row").runOn Sample.leaves = (.ok ["stage", "row"], f) ∧
      (Sample.library.load "row").runOn Sample.leaves = (.ok true, f) ∧
      (∃ M, f.module? "row" = some M ∧ Sample.allLoaded.module? "row" = some M) ∧
      (∀ b, f.flattenModule b "row" = Sample.allLoaded.flattenModule b "row") ∧
      ∀ b : Boundary, b.Separates → ∃ flat, f.flattenModule b "row" = .ok flat := by
  have hparsed := Sample.parsed_library
  have horder : Sample.library.buildOrder Sample.leaves "row" = .ok ["stage", "row"] := by
    decide_cbv
  have hrow : Sample.library.contains "row" = true := by decide
  have hnew : ¬Sample.leaves.contains "row" = true := by decide
  obtain ⟨order, horder', h, hclear⟩ := load_agrees_loadAll hparsed.filed Sample.body?_leaves
    Sample.loadAll_library hrow hnew
  cases horder.symm.trans horder'
  obtain ⟨-, f, hbuild, hload, hmodule, hflat, hsome⟩ | ⟨name, taken, -, hclash, -⟩ := h
  · exact ⟨hparsed.filed, Sample.body?_leaves, Sample.loadAll_library, hrow, hnew, f, hbuild, hload,
      hmodule, hflat, hsome (by decide)⟩
  · exact absurd hclash (hclear hparsed.checked name taken)

end Library

/-! ### Names in the way -/

namespace Sample

open Catalog (Edit)

/-- Three descriptions. The second one has the name of a module that the boundary of the first one
is bound to for a while, and the third one needs both. -/
def clashing : List Description :=
  [describeAround "x" "y", describeAround "x::input_block" "y",
    describe "top" [⟨"a", "x::input_block"⟩, ⟨"b", "x"⟩] [⟨"a", "b", .list [("o", "i")]⟩] "a" "b"]

/-- The library of these descriptions. -/
def clashingLibrary : Library :=
  ⟨.standard, .ofList (clashing.map fun x => (x.name, ⟨x, none⟩))⟩

theorem filed_clashing : clashingLibrary.Filed := by
  have hlibrary : Library.ofDescriptions .standard clashing = .ok clashingLibrary := rfl
  exact Library.ofDescriptions_filed hlibrary

/-- The cells of the third composite and the wire between them. -/
def clashingCells : Graph where
  instances := [⟨"a", "x::input_block", .cell⟩, ⟨"b", "x", .cell⟩]
  links := [⟨⟨"a", "b", [⟨"o", "i"⟩]⟩, 0⟩]
  freed := []

/-- The inside of the third composite. -/
def clashingInside : Graph where
  instances := clashingCells.instances ++
    [⟨"input_block", "top", .inputBoundary⟩, ⟨"output_block", "top", .outputBoundary⟩]
  links := [⟨⟨"b", "output_block", [⟨"o", "o"⟩]⟩, 2⟩, ⟨⟨"input_block", "a", [⟨"i", "i"⟩]⟩, 1⟩,
    ⟨⟨"a", "b", [⟨"o", "i"⟩]⟩, 0⟩]
  freed := []

/-- The leaf and the first composite. -/
def clashingFirst : Catalog :=
  leaves.put "x" ((describeAround "x" "y").toModule (around "x" "y"))

/-- The leaf and the first two composites. -/
def clashingBoth : Catalog :=
  clashingFirst.put "x::input_block"
    ((describeAround "x::input_block" "y").toModule (around "x::input_block" "y"))

/-- The leaf and all three composites. -/
def clashingAll : Catalog :=
  clashingBoth.put "top" ((describe "top" [⟨"a", "x::input_block"⟩, ⟨"b", "x"⟩]
    [⟨"a", "b", .list [("o", "i")]⟩] "a" "b").toModule clashingInside)

theorem build_clashing_first :
    (clashingLibrary.build "x").runOn leaves = (.ok ["x"], clashingFirst) := by
  have hlisted : (clashingLibrary.buildListed "x").runOn leaves = (.ok (), clashingFirst) :=
    Library.buildOne_of_checks (g := ⟨[⟨"y", "leaf", .cell⟩], [], []⟩) (by decide_cbv)
      (by decide_cbv) (by decide_cbv) (by decide_cbv) (by decide_cbv)
  exact Library.build_of_buildListed filed_clashing (by decide) hlisted

theorem build_clashing_second : (clashingLibrary.build "x::input_block").runOn clashingFirst =
    (.ok ["x::input_block"], clashingBoth) := by
  have hlisted : (clashingLibrary.buildListed "x::input_block").runOn clashingFirst =
      (.ok (), clashingBoth) :=
    Library.buildOne_of_checks (g := ⟨[⟨"y", "leaf", .cell⟩], [], []⟩) (by decide_cbv)
      (by decide_cbv) (by decide_cbv) (by decide_cbv) (by decide_cbv)
  exact Library.build_of_buildListed filed_clashing (by decide) hlisted

theorem build_clashing_third :
    (clashingLibrary.build "top").runOn clashingBoth = (.ok ["top"], clashingAll) := by
  have hlisted : (clashingLibrary.buildListed "top").runOn clashingBoth = (.ok (), clashingAll) :=
    Library.buildOne_of_checks (g := clashingCells) (by decide_cbv) (by decide_cbv)
      (by decide_cbv) (by decide_cbv) (by decide_cbv)
  exact Library.build_of_buildListed filed_clashing (by decide) hlisted

theorem loadAll_clashing : clashingLibrary.loadAll.runOn leaves = (.ok 3, clashingAll) := by
  have hnames : clashingLibrary.names = ["x", "x::input_block", "top"] := by decide
  have hnone : (clashingLibrary.buildAll []).runOn clashingAll = (.ok 0, clashingAll) := rfl
  rw [Library.loadAll, hnames]
  exact Library.runOn_buildAll_of_build (by decide_cbv) build_clashing_first
    (Library.runOn_buildAll_of_build (by decide_cbv) build_clashing_second
      (Library.runOn_buildAll_of_build (by decide_cbv) build_clashing_third hnone))

theorem exists_flattenModule_clashing :
    ∃ flat, clashingAll.flattenModule .standard "top" = .ok flat := by
  have hfull := Library.full_of_loadAll filed_clashing body?_leaves loadAll_clashing
  have hkeeping : clashingLibrary.Keeping Catalog.Assembled :=
    Library.assembled_keeping (by decide) (by decide)
  have hassembled : clashingAll.Assembled :=
    Edit.of_keeps (hkeeping.buildAll clashingLibrary.names) (.leaves body?_leaves) loadAll_clashing
  have hbody : clashingAll.body? "top" = some clashingInside := by decide_cbv
  have hsep : Boundary.standard.Separates := (Boundary.check_eq_ok_iff.1 (by decide)).2.2.2
  exact hfull.loaded.exists_flattenModule hassembled hsep hbody

/-- On demand, the second composite is assembled first, and the first one is refused then. -/
theorem build_clashing_top : ∃ f,
    (clashingLibrary.build "top").runOn leaves =
      (.error (.duplicateModule "x::input_block"), f) := by
  have horder : clashingLibrary.buildOrder leaves "top" = .ok ["x::input_block", "x", "top"] := by
    decide_cbv
  have hclash : clashingLibrary.Clashes ["x::input_block", "x", "top"] "x" "x::input_block" := by
    decide
  have honly : ∀ name ∈ ["x::input_block", "x", "top"], ∀ taken ∈ ["x::input_block", "x", "top"],
      clashingLibrary.Clashes ["x::input_block", "x", "top"] name taken →
        taken = "x::input_block" := by
    decide
  have hfull := Library.full_of_loadAll filed_clashing body?_leaves loadAll_clashing
  obtain ⟨order, horder', h⟩ :=
    hfull.build_or_clash (m := "top") body?_leaves ⟨by decide, by decide⟩
  cases horder.symm.trans horder'
  obtain ⟨name, taken, f, hclash', hbuild⟩ := h.resolve_left fun h => h.1 _ _ hclash
  obtain rfl := honly name (hclash'.2.subset (by simp)) taken (hclash'.2.subset (by simp)) hclash'
  exact ⟨f, hbuild⟩

/-- Three descriptions: of a composite around a leaf, of one around this composite, and of one
around that. -/
def nesting : List Description :=
  [describeAround "stage" "x", describe "nest" [⟨"a", "stage"⟩] [] "a" "a",
    describe "shell" [⟨"u", "nest"⟩] [] "u" "u"]

/-- The library of these descriptions with boundary names of which one is the name that the leaf
gets when the innermost composite is taken apart. -/
def nestingLibrary : Library :=
  ⟨joinedBlocks, .ofList (nesting.map fun x => (x.name, ⟨x, none⟩))⟩

theorem check_nesting : ∀ x ∈ nesting, x.check = .ok () := by
  have hstage : (describeAround "stage" "x").check = .ok () := by decide
  have hnest : (describe "nest" [⟨"a", "stage"⟩] [] "a" "a").check = .ok () := by decide
  have hshell : (describe "shell" [⟨"u", "nest"⟩] [] "u" "u").check = .ok () := by decide
  exact List.forall_mem_cons.2 ⟨hstage, List.forall_mem_cons.2 ⟨hnest,
    List.forall_mem_singleton.2 hshell⟩⟩

theorem filed_nesting : nestingLibrary.Filed := by
  have hlibrary : Library.ofDescriptions joinedBlocks nesting = .ok nestingLibrary := rfl
  exact Library.ofDescriptions_filed hlibrary

/-- The leaf and the innermost composite. -/
def nestingFirst : Catalog :=
  leaves.put "stage" ((describeAround "stage" "x").toModule
    ⟨[⟨"x", "leaf", .cell⟩, ⟨"a.x", "stage", .inputBoundary⟩,
        ⟨"output_block", "stage", .outputBoundary⟩],
      [⟨⟨"x", "output_block", [⟨"o", "o"⟩]⟩, 1⟩, ⟨⟨"a.x", "x", [⟨"i", "i"⟩]⟩, 0⟩], []⟩)

/-- The leaf and the first two composites. -/
def nestingBoth : Catalog :=
  nestingFirst.put "nest" ((describe "nest" [⟨"a", "stage"⟩] [] "a" "a").toModule nestInside)

/-- The leaf and all three composites. -/
def nestingAll : Catalog :=
  nestingBoth.put "shell" ((describe "shell" [⟨"u", "nest"⟩] [] "u" "u").toModule
    ⟨[⟨"u", "nest", .cell⟩, ⟨"a.x", "shell", .inputBoundary⟩,
        ⟨"output_block", "shell", .outputBoundary⟩],
      [⟨⟨"u", "output_block", [⟨"o", "o"⟩]⟩, 1⟩, ⟨⟨"a.x", "u", [⟨"i", "i"⟩]⟩, 0⟩], []⟩)

theorem buildListed_nesting :
    (nestingLibrary.buildListed "stage").runOn leaves = (.ok (), nestingFirst) ∧
      (nestingLibrary.buildListed "nest").runOn nestingFirst = (.ok (), nestingBoth) ∧
      (nestingLibrary.buildListed "shell").runOn nestingBoth = (.ok (), nestingAll) :=
  ⟨Library.buildOne_of_checks (g := ⟨[⟨"x", "leaf", .cell⟩], [], []⟩) (by decide_cbv)
      (by decide_cbv) (by decide_cbv) (by decide_cbv) (by decide_cbv),
    Library.buildOne_of_checks (g := nestAssembly.inside) (by decide_cbv) (by decide_cbv)
      (by decide_cbv) (by decide_cbv) (by decide_cbv),
    Library.buildOne_of_checks (g := ⟨[⟨"u", "nest", .cell⟩], [], []⟩) (by decide_cbv)
      (by decide_cbv) (by decide_cbv) (by decide_cbv) (by decide_cbv)⟩

theorem loadAll_nesting : nestingLibrary.loadAll.runOn leaves = (.ok 3, nestingAll) := by
  obtain ⟨hfirst, hsecond, hthird⟩ := buildListed_nesting
  have hnames : nestingLibrary.names = ["stage", "nest", "shell"] := by decide
  have hnone : (nestingLibrary.buildAll []).runOn nestingAll = (.ok 0, nestingAll) := rfl
  rw [Library.loadAll, hnames]
  exact Library.runOn_buildAll_of_build (by decide_cbv)
    (Library.build_of_buildListed filed_nesting (by decide) hfirst)
    (Library.runOn_buildAll_of_build (by decide_cbv)
      (Library.build_of_buildListed filed_nesting (by decide) hsecond)
      (Library.runOn_buildAll_of_build (by decide_cbv)
        (Library.build_of_buildListed filed_nesting (by decide) hthird) hnone))

theorem build_shell : (nestingLibrary.build "shell").runOn leaves =
    (.ok ["stage", "nest", "shell"], nestingAll) := by
  obtain ⟨hfirst, hsecond, hthird⟩ := buildListed_nesting
  exact Library.build_eq_ok_iff.2 ⟨by decide_cbv, Edit.runOn_bind_eq_ok_iff.2 ⟨(), _, hfirst,
    Edit.runOn_bind_eq_ok_iff.2 ⟨(), _, hsecond,
      Edit.runOn_bind_eq_ok_iff.2 ⟨(), _, hthird, rfl⟩⟩⟩⟩

end Sample

namespace Library

/-- A composite that is assembled when everything is loaded can be refused on demand, if another one
has the name of a module that a boundary is bound to for a while. And what has been loaded in either
way cannot be flattened, though its description has passed its check, if a boundary instance has the
name that a cell inside another gets. -/
theorem load_fails_for_clash_and_joined_block :
    (ofDescriptions .standard Sample.clashing = .ok Sample.clashingLibrary ∧
      Boundary.standard.check = .ok () ∧ (∀ m, Sample.leaves.body? m = none) ∧
      Sample.clashingLibrary.loadAll.runOn Sample.leaves = (.ok 3, Sample.clashingAll) ∧
      (∃ flat, Sample.clashingAll.flattenModule .standard "top" = .ok flat) ∧
      ∃ f, (Sample.clashingLibrary.build "top").runOn Sample.leaves =
        (.error (.duplicateModule "x::input_block"), f)) ∧
    (∀ x ∈ Sample.nesting, x.check = .ok ()) ∧
      ofDescriptions Sample.joinedBlocks Sample.nesting = .ok Sample.nestingLibrary ∧
      Sample.nestingLibrary.loadAll.runOn Sample.leaves = (.ok 3, Sample.nestingAll) ∧
      (Sample.nestingLibrary.build "shell").runOn Sample.leaves =
        (.ok ["stage", "nest", "shell"], Sample.nestingAll) ∧
      Sample.nestingAll.flattenModule Sample.joinedBlocks "shell" =
        .error (.nameCollision "a.x" "a") := by
  obtain ⟨f, hbuild⟩ := Sample.build_clashing_top
  exact ⟨⟨rfl, by decide, Sample.body?_leaves, Sample.loadAll_clashing,
    Sample.exists_flattenModule_clashing, f, hbuild⟩, Sample.check_nesting, rfl,
    Sample.loadAll_nesting, Sample.build_shell, by decide_cbv⟩

end Library

end Netlist
