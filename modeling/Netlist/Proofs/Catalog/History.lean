import Netlist.Proofs.Assembly
import Netlist.Proofs.Flatten.Success

/-!
# Catalogs and how they came about

A catalog is put together by registering types, leaves and composites. What the operations check
adds up: containment is well founded, and the insides of composites can be flattened.

## Main definitions

* `Netlist.Catalog.Assembled`: composites were registered on top of leaves.
* `Netlist.Catalog.Built`: everything was registered, from the empty catalog on.
* `Netlist.Graph.Built`: a graph was put together by checked changes.
* `Netlist.Catalog.Tidy`: what registering composites guarantees.
* `Netlist.Catalog.Registered`: every composite was registered at some time.

## Main results

* `Netlist.Catalog.Assembled.tidy`: a catalog of assembled composites is tidy.
* `Netlist.Catalog.Registered.inside`: the insides of registered composites have boundaries, and
  their cells have identifiers for names.
* `Netlist.Catalog.Built.whole`, `Netlist.Catalog.Built.wellFounded`: the insides of composites are
  sound if every graph was put together by checked changes, and containment is well founded.
-/

namespace Netlist

open Flatten

/-- A graph was put together by adding cells and by connecting them, with checks. -/
inductive Graph.Built (c : Catalog) : Graph → Prop
  | empty : Built c .empty
  | instantiate {g g' : Graph} {name module : String} (hg : Built c g)
      (h : g.instantiate c name module = .ok g') : Built c g'
  | connect {g g' : Graph} {source dest : String} {bindings : List Binding} (hg : Built c g)
      (h : g.connect c source dest bindings = .ok g') : Built c g'

namespace Graph.Built

variable {c : Catalog} {g : Graph}

theorem wellFormed (h : g.Built c) : g.WellFormed := by
  induction h with
  | empty => exact .empty
  | instantiate _ h ih => exact instantiate_wellFormed ih h
  | connect _ h ih => exact connect_wellFormed ih h

theorem sound (h : g.Built c) : g.Sound c := by
  induction h with
  | empty => exact ⟨fun _ hi => (nomatch hi), fun _ hw => (nomatch hw)⟩
  | instantiate _ h ih => exact instantiate_sound ih h
  | connect hg h ih => exact connect_sound hg.wellFormed ih h

theorem cells (h : g.Built c) : ∀ i ∈ g.instances, i.role = .cell := by
  induction h with
  | empty => exact fun _ hi => nomatch hi
  | instantiate _ h ih =>
    obtain ⟨-, -, rfl⟩ := instantiate_eq_ok_iff.1 h
    exact List.forall_mem_append.2 ⟨ih, List.forall_mem_singleton.2 rfl⟩
  | connect _ h ih =>
    obtain ⟨_, _, _, _, _, _, _, rfl⟩ := connect_eq_ok_iff.1 h
    rw [instances_bind]
    exact ih

/-- Cells that can all be added are put together by checked changes. -/
theorem instantiateAll {α : Type} {cells : List α} {name module : α → String} {g' : Graph}
    (hg : g.Built c)
    (h : cells.foldlM (fun g i => g.instantiate c (name i) (module i)) g = .ok g') : g'.Built c :=
  foldlM_keeps (fun _ _ _ _ hg h => .instantiate hg h) hg h

/-- Connections that can all be added are put together by checked changes. -/
theorem connectAll {α : Type} {links : List α} {source dest : α → String}
    {bindings : α → List Binding} {g' : Graph} (hg : g.Built c)
    (h : links.foldlM (fun g l => g.connect c (source l) (dest l) (bindings l)) g = .ok g') :
    g'.Built c :=
  foldlM_keeps (fun _ _ _ _ hg h => .connect hg h) hg h

/-- A list of cells and a list of connections make up a graph if all of them can be added. -/
theorem of_lists (cells : List (String × String)) (links : List Bundle)
    (h : cells.foldlM (fun (g : Graph) i => g.instantiate c i.1 i.2) .empty >>=
      links.foldlM (fun g l => g.connect c l.source l.dest l.bindings) = .ok g) : g.Built c := by
  obtain ⟨g₁, hcells, hlinks⟩ := bind_eq_ok_iff.1 h
  exact (empty.instantiateAll hcells).connectAll hlinks

end Graph.Built

namespace Catalog

variable {c d : Catalog} {b : Boundary}

/-! ### Registered composites -/

/-- Composites were registered on top of leaves, each from a graph of cells and with identifiers for
the names of its boundary instances. Nothing was changed or taken out. -/
inductive Assembled : Catalog → Prop
  | leaves {c : Catalog} (h : ∀ m, c.body? m = none) : Assembled c
  | addType {c d : Catalog} {name : String} {fields : Ports} (hc : Assembled c)
      (h : c.addType name fields = .ok d) : Assembled d
  | addLeaf {c d : Catalog} {name : String} {inputs outputs : Ports} (hc : Assembled c)
      (h : c.add name ⟨inputs, outputs, none⟩ = .ok d) : Assembled d
  | register {c d : Catalog} {b : Boundary} {a : Assembly} (hc : Assembled c)
      (hin : isIdentifier b.inputBlock = true) (hout : isIdentifier b.outputBlock = true)
      (hg : a.inside.WellFormed) (hcells : ∀ i ∈ a.inside.instances, i.role = .cell)
      (h : (a.register b).runOn c = (.ok (), d)) : Assembled d

/-- What registering composites guarantees: containment is well founded, and insides are well
formed, with a boundary and with identifiers for names. -/
structure Tidy (c : Catalog) : Prop where
  wellFounded : WellFounded c.Within
  inside : ∀ m B, c.body? m = some B →
    B.WellFormed ∧ (∃ input output, B.Framed m input output) ∧ Named B

namespace Tidy

theorem of_leaves (h : ∀ m, c.body? m = none) : c.Tidy where
  wellFounded := ⟨fun m => Acc.intro m fun m' hin => by
    obtain ⟨g, hg, -⟩ := hin
    cases (h m).symm.trans hg⟩
  inside m B hB := by cases (h m).symm.trans hB

theorem add (hc : c.Tidy) {name : String} {m : Module} (h : c.add name m = .ok d)
    (hm : ∀ B, m.body = some B →
      B.WellFormed ∧ (∃ input output, B.Framed name input output) ∧ Named B) : d.Tidy where
  wellFounded := wellFounded_within_add hc.wellFounded h
  inside n B hB := by
    obtain ⟨-, -, -, rfl⟩ := add_eq_ok_iff.1 h
    rw [body?_put] at hB
    split_ifs at hB with hn
    · exact hn ▸ hm B hB
    · exact hc.inside n B hB

theorem addType (hc : c.Tidy) {name : String} {fields : Ports}
    (h : c.addType name fields = .ok d) : d.Tidy := by
  obtain ⟨-, -, rfl⟩ := addType_eq_ok_iff.1 h
  exact ⟨hc.wellFounded, hc.inside⟩

end Tidy

theorem named_of_gives {a : Assembly} {B : Graph} (h : a.Gives c b B)
    (hg : a.inside.WellFormed) (hin : isIdentifier b.inputBlock = true)
    (hout : isIdentifier b.outputBlock = true) (hcells : ∀ i ∈ a.inside.instances, i.role = .cell) :
    Named B := by
  intro n hn
  obtain ⟨i, hi, rfl⟩ := Graph.mem_names.1 hn
  have hmem := hi
  rw [h.instances_eq hg, List.mem_append, List.mem_cons, List.mem_singleton] at hi
  rcases hi with hi | rfl | rfl
  · exact h.isIdentifier hg hmem (hcells i hi)
  · exact hin
  · exact hout

/-- A catalog of assembled composites is tidy. -/
theorem Assembled.tidy (h : c.Assembled) : c.Tidy := by
  induction h with
  | leaves h => exact .of_leaves h
  | addType _ h ih => exact ih.addType h
  | addLeaf _ h ih => exact ih.add h fun B hB => nomatch hB
  | @register c d b a _ hin hout hg hcells h ih =>
    obtain ⟨B, hB, hadd⟩ := Assembly.register_eq_ok_iff.1 h
    refine ih.add hadd fun B' hB' => ?_
    cases hB'
    exact ⟨hB.wellFormed hg, ⟨_, _, hB.framed hg hcells⟩, named_of_gives hB hg hin hout hcells⟩

/-- The inside of each composite was registered, from a graph of cells. This may have been at
another time, and since then anything may have happened to the other modules. -/
def Registered (c : Catalog) : Prop :=
  ∀ m B, c.body? m = some B → ∃ (a : Assembly) (b : Boundary) (c' d : Catalog),
    a.inside.WellFormed ∧ (∀ i ∈ a.inside.instances, i.role = .cell) ∧
      (a.register b).runOn c' = (.ok (), d) ∧ a.name = m ∧ d.body? m = some B

/-- Registered insides have boundaries, and the cells in them have identifiers for names. -/
theorem Registered.inside (hc : c.Registered) {m : String} {B : Graph} (hB : c.body? m = some B) :
    B.WellFormed ∧ (∃ input output, B.Framed m input output) ∧ CellsNamed B := by
  obtain ⟨a, b, c', d, hg, hcells, h, rfl, hd⟩ := hc m B hB
  obtain ⟨B', hB', hadd⟩ := Assembly.register_eq_ok_iff.1 h
  obtain ⟨-, -, -, rfl⟩ := add_eq_ok_iff.1 hadd
  rw [body?_put, if_pos rfl] at hd
  cases hd
  exact ⟨hB'.wellFormed hg, ⟨_, _, hB'.framed hg hcells⟩, fun _ => hB'.isIdentifier hg⟩

/-- Registered insides are sound if they pass validation. -/
theorem Registered.whole (hc : c.Registered)
    (hv : ∀ m B, c.body? m = some B → B.validate c = .ok ()) (m : String) (B : Graph)
    (hB : c.body? m = some B) : Whole c m B := by
  obtain ⟨hw, hframed, -⟩ := hc.inside hB
  exact ⟨hw, (Graph.validate_eq_ok_iff hw).1 (hv _ _ hB), hframed⟩

/-- A composite is registered by registering it, and others stay so when a module is added. -/
theorem Registered.register (hc : c.Registered) {a : Assembly}
    (hg : a.inside.WellFormed) (hcells : ∀ i ∈ a.inside.instances, i.role = .cell)
    (h : (a.register b).runOn c = (.ok (), d)) : d.Registered := by
  intro m B hB
  obtain ⟨B', -, hadd⟩ := Assembly.register_eq_ok_iff.1 h
  obtain ⟨-, -, -, hd⟩ := add_eq_ok_iff.1 hadd
  have hput := hB
  rw [hd, body?_put] at hput
  split_ifs at hput with hm
  · exact ⟨a, b, c, d, hg, hcells, h, hm.symm, hB⟩
  · exact hc m B hput

theorem Registered.addType (hc : c.Registered) {name : String} {fields : Ports}
    (h : c.addType name fields = .ok d) : d.Registered := by
  obtain ⟨-, -, rfl⟩ := addType_eq_ok_iff.1 h
  exact hc

theorem Registered.addLeaf (hc : c.Registered) {name : String} {inputs outputs : Ports}
    (h : c.add name ⟨inputs, outputs, none⟩ = .ok d) : d.Registered := by
  intro m B hB
  obtain ⟨-, -, -, rfl⟩ := add_eq_ok_iff.1 h
  rw [body?_put] at hB
  split_ifs at hB
  exact hc m B hB

theorem Assembled.registered (h : c.Assembled) : c.Registered := by
  induction h with
  | leaves h => exact fun m B hB => nomatch (h m).symm.trans hB
  | addType _ h ih => exact ih.addType h
  | addLeaf _ h ih => exact ih.addLeaf h
  | register _ _ _ hg hcells h ih => exact ih.register hg hcells h

/-! ### Catalogs without unchecked parts -/

/-- Everything in a catalog was registered: types, leaves, and composites from graphs that were put
together by checked changes. The names at their boundaries are any that could be registered. -/
inductive Built : Catalog → Prop
  | empty : Built .empty
  | addType {c d : Catalog} {name : String} {fields : Ports} (hc : Built c)
      (h : c.addType name fields = .ok d) : Built d
  | addLeaf {c d : Catalog} {name : String} {inputs outputs : Ports} (hc : Built c)
      (h : c.add name ⟨inputs, outputs, none⟩ = .ok d) : Built d
  | register {c d : Catalog} {b : Boundary} {a : Assembly} (hc : Built c)
      (hg : a.inside.Built c) (h : (a.register b).runOn c = (.ok (), d)) : Built d

namespace Built

theorem registered (h : c.Built) : c.Registered := by
  induction h with
  | empty => exact fun m B hB => nomatch hB
  | addType _ h ih => exact ih.addType h
  | addLeaf _ h ih => exact ih.addLeaf h
  | register _ hg h ih => exact ih.register hg.wellFormed hg.cells h

/-- Containment is well founded. -/
theorem wellFounded (h : c.Built) : WellFounded c.Within := by
  induction h with
  | empty => exact (Tidy.of_leaves fun _ => rfl).wellFounded
  | addType _ h ih =>
    obtain ⟨-, -, rfl⟩ := addType_eq_ok_iff.1 h
    exact ih
  | addLeaf _ h ih => exact wellFounded_within_add ih h
  | register _ _ h ih =>
    obtain ⟨B, -, hadd⟩ := Assembly.register_eq_ok_iff.1 h
    exact wellFounded_within_add ih hadd

/-- The insides of composites are sound. -/
theorem sound (h : c.Built) : ∀ m B, c.body? m = some B → B.Sound c := by
  induction h with
  | empty => exact fun m B hB => nomatch hB
  | addType _ h ih =>
    intro m B hB
    obtain ⟨-, -, hd⟩ := addType_eq_ok_iff.1 h
    exact (ih m B (by rwa [hd] at hB)).mono (.addType h)
  | addLeaf _ h ih =>
    intro m B hB
    obtain ⟨hnew, -, -, rfl⟩ := add_eq_ok_iff.1 h
    rw [body?_put] at hB
    split_ifs at hB
    exact (ih m B hB).mono (.put hnew _)
  | register _ hg h ih =>
    intro m B hB
    obtain ⟨B', hB', hadd⟩ := Assembly.register_eq_ok_iff.1 h
    have hs := hB'.sound hg.wellFormed hg.sound hadd
    obtain ⟨hnew, -, -, rfl⟩ := add_eq_ok_iff.1 hadd
    rw [body?_put] at hB
    split_ifs at hB with hm
    · cases hB
      exact hs
    · exact (ih m B hB).mono (.put hnew _)

theorem whole (h : c.Built) (m : String) (B : Graph) (hB : c.body? m = some B) :
    Whole c m B ∧ CellsNamed B := by
  obtain ⟨hw, hframed, hn⟩ := h.registered.inside hB
  exact ⟨⟨hw, h.sound m B hB, hframed⟩, hn⟩

/-- The insides of composites pass validation. -/
theorem validate_body (h : c.Built) (m : String) (B : Graph) (hB : c.body? m = some B) :
    B.validate c = .ok () := by
  obtain ⟨hw, -⟩ := h.whole m B hB
  exact (Graph.validate_eq_ok_iff hw.wellFormed).2 hw.sound

end Built

end Catalog

namespace Sample

/-- What the composite around the leaf is made of. -/
def stageAssembly : Assembly where
  name := "stage"
  inputs := .ofList [("i", .bits 8)]
  outputs := .ofList [("o", .bits 8)]
  inside := ⟨[⟨"x", "leaf", .cell⟩], [], []⟩
  inputSinks := .ofList [("i", [⟨"x", "i"⟩])]
  outputSources := .ofList [("o", ⟨"x", "o"⟩)]
  feedThrough := .empty

theorem stages_eq_put : stages = leaves.put "stage" stage := by
  decide

theorem register_stage :
    (stageAssembly.register .standard).runOn leaves = (.ok (), stages) := by
  rw [stages_eq_put]
  exact Assembly.register_of_checks (by decide) (by decide) (by decide)
    (Catalog.checkBody_of_leaves (by decide))

theorem built_leaves : leaves.Built := by
  have h : Catalog.empty.add "leaf" ⟨leaf.inputs, leaf.outputs, none⟩ = .ok leaves := by
    decide
  exact .addLeaf .empty h

theorem body?_leaves (m : String) : leaves.body? m = none := by
  have h : leaves = Catalog.empty.put "leaf" leaf := by decide
  rw [h, Catalog.body?_put]
  split_ifs <;> rfl

theorem built_stageInside : stageAssembly.inside.Built leaves := by
  have h : Graph.empty.instantiate leaves "x" "leaf" = .ok stageAssembly.inside := by
    decide
  exact .instantiate .empty h

theorem built_stages : stages.Built :=
  .register built_leaves built_stageInside register_stage

theorem assembled_stages : stages.Assembled :=
  .register (.leaves body?_leaves) (by decide) (by decide) built_stageInside.wellFormed
    built_stageInside.cells register_stage

/-! ### Composites around a composite -/

/-- What a composite around a composite is made of. -/
def nestAssembly : Assembly where
  name := "nest"
  inputs := .ofList [("i", .bits 8)]
  outputs := .ofList [("o", .bits 8)]
  inside := ⟨[⟨"a", "stage", .cell⟩], [], []⟩
  inputSinks := .ofList [("i", [⟨"a", "i"⟩])]
  outputSources := .ofList [("o", ⟨"a", "o"⟩)]
  feedThrough := .empty

/-- Boundary names of which one is the name that the leaf gets when the inner composite is taken
apart. -/
def joinedBlocks : Boundary :=
  ⟨"a.x", "output_block", "."⟩

/-- The inside of the composite with these boundary names. -/
def nestInside : Graph where
  instances := [⟨"a", "stage", .cell⟩, ⟨"a.x", "nest", .inputBoundary⟩,
    ⟨"output_block", "nest", .outputBoundary⟩]
  links := [⟨⟨"a", "output_block", [⟨"o", "o"⟩]⟩, 1⟩, ⟨⟨"a.x", "a", [⟨"i", "i"⟩]⟩, 0⟩]
  freed := []

/-- The catalog with the composite around a composite. -/
def nested : Catalog :=
  stages.put "nest" ⟨nestAssembly.inputs, nestAssembly.outputs, some nestInside⟩

/-- The composite around a composite between two leaves. -/
def nestRow : Graph where
  instances := [⟨"t", "leaf", .cell⟩, ⟨"u", "nest", .cell⟩, ⟨"v", "leaf", .cell⟩]
  links := [⟨⟨"u", "v", [⟨"o", "i"⟩]⟩, 1⟩, ⟨⟨"t", "u", [⟨"o", "i"⟩]⟩, 0⟩]
  freed := []

/-- The cells of this graph and their modules. -/
def nestRowCells : List (String × String) :=
  [("t", "leaf"), ("u", "nest"), ("v", "leaf")]

/-- The connections of this graph in order. -/
def nestRowLinks : List Bundle :=
  [⟨"t", "u", [⟨"o", "i"⟩]⟩, ⟨"u", "v", [⟨"o", "i"⟩]⟩]

theorem register_nest : (nestAssembly.register joinedBlocks).runOn stages = (.ok (), nested) :=
  Assembly.register_of_checks (by decide) (by decide) (by decide) (by decide_cbv)

theorem built_nestCells : nestAssembly.inside.Built stages := by
  have h : Graph.empty.instantiate stages "a" "stage" = .ok nestAssembly.inside := by
    decide
  exact .instantiate .empty h

theorem built_nested : nested.Built :=
  .register built_stages built_nestCells register_nest

theorem built_nestRow : nestRow.Built nested :=
  .of_lists nestRowCells nestRowLinks (by decide)

/-- The inside of the composite around a composite with the usual boundary names. -/
def plainInside : Graph where
  instances := [⟨"a", "stage", .cell⟩, ⟨"input_block", "nest", .inputBoundary⟩,
    ⟨"output_block", "nest", .outputBoundary⟩]
  links := [⟨⟨"a", "output_block", [⟨"o", "o"⟩]⟩, 1⟩, ⟨⟨"input_block", "a", [⟨"i", "i"⟩]⟩, 0⟩]
  freed := []

/-- The catalog with the composite around a composite, with the usual boundary names. -/
def plainNested : Catalog :=
  stages.put "nest" ⟨nestAssembly.inputs, nestAssembly.outputs, some plainInside⟩

theorem register_plainNest :
    (nestAssembly.register .standard).runOn stages = (.ok (), plainNested) :=
  Assembly.register_of_checks (by decide) (by decide) (by decide) (by decide_cbv)

theorem built_plainNested : plainNested.Built :=
  .register built_stages built_nestCells register_plainNest

theorem named_of_plainNested {m : String} {B : Graph} (h : plainNested.body? m = some B) :
    Named B := by
  rw [plainNested, Catalog.body?_put, stages_eq_put, Catalog.body?_put] at h
  split_ifs at h
  · cases h
    unfold Named
    decide
  · cases h
    unfold Named
    decide
  · cases (body?_leaves m).symm.trans h

theorem built_plainNestRow : nestRow.Built plainNested :=
  .of_lists nestRowCells nestRowLinks (by decide)

end Sample

end Netlist
