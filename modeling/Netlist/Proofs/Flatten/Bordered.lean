import Mathlib.Data.Fintype.EquivFin
import Netlist.Proofs.Flatten.Inlinable

/-!
# Composites without a full boundary

Inlining asks of the inside of a composite that its boundary instances are bound to the composite,
and that no two of them stand for the same side. A side without an instance does no harm: nothing is
wired there, so the inside can be completed by an instance for it, and inlining does not notice.

## Main definitions

* `Netlist.Graph.Bordered`: the boundary instances of a graph are those of a module.
* `Netlist.Graph.completed`: a graph with an instance for each side of the boundary.

## Main results

* `Netlist.Graph.Bordered.framed_completed`, `Netlist.Graph.Bordered.completed_wellFormed`,
  `Netlist.Graph.Bordered.completed_sound`: what completing gives.
* `Netlist.Graph.Bordered.inline_completed`: inlining does not notice that a graph was completed.
* `Netlist.Graph.Bordered.exists_inline`: inlining succeeds.
-/

namespace Netlist.Graph

open Inline (cells isCell)

variable {c : Catalog} {g : Graph} {module input output : String}

/-- The boundary instances of a graph are bound to a module, and no two of them stand for the same
side of it. -/
def Bordered (module : String) (g : Graph) : Prop :=
  (∀ i ∈ g.frame, i.module = module) ∧ (g.frame.map Instance.role).Nodup

instance (module : String) (g : Graph) : Decidable (g.Bordered module) :=
  inferInstanceAs (Decidable (_ ∧ _))

theorem Framed.bordered (h : g.Framed module input output) : g.Bordered module := by
  rw [Bordered, h]
  simp

/-- The instance for a side of the boundary, or a new one for it. -/
def border (g : Graph) (module : String) (role : Role) (name : String) : Instance :=
  (g.withRole? role).getD ⟨name, module, role⟩

/-- The cells of a graph and an instance for each side of the boundary. Instances that are missing
get the given names. -/
def completed (g : Graph) (module input output : String) : Graph :=
  { g with instances := cells g ++
      [g.border module .inputBoundary input, g.border module .outputBoundary output] }

/-- The instance for a side of the boundary is in the graph, or it is new. -/
theorem border_cases {role : Role} (hr : role ≠ .cell) (module name : String) :
    (∃ i ∈ g.frame, i.role = role ∧ g.withRole? role = some i ∧ g.border module role name = i) ∨
      g.withRole? role = none ∧ g.border module role name = ⟨name, module, role⟩ := by
  unfold border
  cases h : g.withRole? role with
  | none => exact .inr ⟨rfl, rfl⟩
  | some i =>
    have hrole : i.role = role := by simpa using List.find?_some h
    refine .inl ⟨i, mem_frame.2 ⟨List.mem_of_find?_eq_some h, ?_⟩, hrole, rfl, rfl⟩
    simp [Instance.isCell, hrole, hr]

theorem role_border {role : Role} (hr : role ≠ .cell) (module name : String) :
    (g.border module role name).role = role := by
  rcases border_cases (g := g) hr module name with ⟨i, -, hi, -, h⟩ | ⟨-, h⟩
  · exact h ▸ hi
  · exact h ▸ rfl

theorem cells_completed : cells (g.completed module input output) = cells g := by
  have hnot {role : Role} (hr : role ≠ .cell) (name : String) :
      (g.border module role name).isCell = false := by
    rw [Instance.isCell, role_border hr]
    simpa using hr
  have hself : (cells g).filter Instance.isCell = cells g :=
    List.filter_eq_self.2 fun i hi => (List.mem_filter.1 hi).2
  rw [cells, completed, List.filter_append, hself]
  simp [hnot]

namespace Bordered

variable (hb : g.Bordered module)
include hb

theorem module_border {role : Role} (hr : role ≠ .cell) (name : String) :
    (g.border module role name).module = module := by
  rcases border_cases (g := g) hr module name with ⟨i, hi, -, -, h⟩ | ⟨-, h⟩
  · exact h ▸ hb.1 i hi
  · exact h ▸ rfl

/-- No other instance stands for the same side of the boundary. -/
theorem border_of_mem {i : Instance} (hi : i ∈ g.frame) (name : String) :
    g.border module i.role name = i := by
  have hr : i.role ≠ .cell := by simpa [Instance.isCell] using (mem_frame.1 hi).2
  rcases border_cases (g := g) hr module name with ⟨j, hj, hrole, -, h⟩ | ⟨h, -⟩
  · exact h.trans (List.inj_on_of_nodup_map hb.2 hj hi hrole)
  · have hnone := List.find?_eq_none.1 h i (mem_frame.1 hi).1
    simp at hnone

theorem framed_completed : (g.completed module input output).Framed module
    (g.border module .inputBoundary input).name (g.border module .outputBoundary output).name := by
  have hmk {role : Role} (hr : role ≠ .cell) (name : String) : g.border module role name =
      ⟨(g.border module role name).name, module, role⟩ := by
    rw [Instance.mk.injEq]
    exact ⟨rfl, hb.module_border hr name, role_border hr module name⟩
  rw [Framed, frame, completed, List.filter_append, List.filter_eq_nil_iff.2, List.nil_append,
    hmk (by decide) input, hmk (by decide) output]
  · rfl
  · intro i hi
    simp [(List.mem_filter.1 hi).2]

theorem mem_completed {i : Instance} (hi : i ∈ g.instances) :
    i ∈ (g.completed module input output).instances := by
  by_cases hc : i.isCell = true
  · exact List.mem_append_left _ (List.mem_filter.2 ⟨hi, hc⟩)
  · have hf : i ∈ g.frame := mem_frame.2 ⟨hi, by simpa using hc⟩
    refine List.mem_append_right _ ?_
    cases hr : i.role with
    | cell => simp [Instance.isCell, hr] at hc
    | inputBoundary =>
      rw [← hr, hb.border_of_mem hf]
      exact List.mem_cons_self
    | outputBoundary =>
      rw [← hr, hb.border_of_mem hf]
      exact List.mem_cons_of_mem _ List.mem_cons_self

end Bordered

/-! ### New names -/

section Fresh

variable (hg : g.WellFormed) (hb : g.Bordered module) (hin : input ∉ g.names)
  (hout : output ∉ g.names) (hne : input ≠ output)

include hg hin hout hne in
theorem nodup_names_completed : (g.completed module input output).names.Nodup := by
  have hcell {role : Role} (hr : role ≠ .cell) {name : String} (hname : name ∉ g.names)
      {i : Instance} (hi : i ∈ cells g) : i.name ≠ (g.border module role name).name := by
    obtain ⟨hmem, hrole⟩ := Inline.mem_cells.1 hi
    rcases border_cases (g := g) hr module name with ⟨j, hj, hjr, -, h⟩ | ⟨-, h⟩ <;> rw [h]
    · intro he
      have hij := List.inj_on_of_nodup_map hg.nodup_names hmem (mem_frame.1 hj).1 he
      exact hr (hjr.symm.trans (hij ▸ hrole))
    · exact fun he => hname (mem_names.2 ⟨i, hmem, he⟩)
  have hsides : (g.border module .inputBoundary input).name ≠
      (g.border module .outputBoundary output).name := by
    have hrin : Role.inputBoundary ≠ .cell := by decide
    have hrout : Role.outputBoundary ≠ .cell := by decide
    rcases border_cases (g := g) hrin module input with ⟨i, hi, hir, -, h⟩ | ⟨-, h⟩ <;>
      rcases border_cases (g := g) hrout module output with ⟨j, hj, hjr, -, h'⟩ | ⟨-, h'⟩ <;>
      rw [h, h'] <;> intro he
    · have hij := List.inj_on_of_nodup_map hg.nodup_names (mem_frame.1 hi).1 (mem_frame.1 hj).1 he
      cases hir.symm.trans (hij ▸ hjr)
    · exact hout (mem_names.2 ⟨i, (mem_frame.1 hi).1, he⟩)
    · exact hin (mem_names.2 ⟨j, (mem_frame.1 hj).1, he.symm⟩)
    · exact hne he
  rw [names, completed, List.map_append]
  refine (hg.nodup_names.sublist (List.filter_sublist.map _)).append ?_ ?_
  · simpa using hsides
  · intro n hn hn'
    obtain ⟨i, hi, rfl⟩ := List.mem_map.1 hn
    simp only [List.map_cons, List.map_nil, List.mem_cons, List.not_mem_nil, or_false] at hn'
    exact hn'.elim (hcell (by decide) hin hi) (hcell (by decide) hout hi)

include hg hb hin hout hne

theorem Bordered.completed_wellFormed : (g.completed module input output).WellFormed where
  nodup_names := nodup_names_completed hg hin hout hne
  ends_mem s d h := by
    have hmem {n : String} (hn : n ∈ g.names) : n ∈ (g.completed module input output).names := by
      obtain ⟨i, hi, hname⟩ := mem_names.1 hn
      exact mem_names.2 ⟨i, hb.mem_completed hi, hname⟩
    exact (hg.ends_mem s d h).imp hmem hmem
  oneLink := hg.oneLink
  nodup_dests := hg.nodup_dests

theorem Bordered.instance?_completed {n : String} {i : Instance} (h : g.instance? n = some i) :
    (g.completed module input output).instance? n = some i := by
  obtain ⟨hi, rfl⟩ := instance?_eq_some h
  exact (hb.completed_wellFormed hg hin hout hne).instance?_of_mem (hb.mem_completed hi)

theorem Bordered.completed_sound (hm : c.contains module = true) (hs : g.Sound c) :
    (g.completed module input output).Sound c where
  registered i hi := by
    rcases List.mem_append.1 hi with hi | hi
    · exact hs.registered i (List.mem_filter.1 hi).1
    · have hmodule : i.module = module := by
        simp only [List.mem_cons, List.not_mem_nil, or_false] at hi
        rcases hi with rfl | rfl
        · exact hb.module_border (by decide) input
        · exact hb.module_border (by decide) output
      exact hmodule ▸ hm
  fits w hw := by
    obtain ⟨i, j, hi, hj, hfit⟩ := hs.fits w hw
    exact ⟨i, j, hb.instance?_completed hg hin hout hne hi,
      hb.instance?_completed hg hin hout hne hj, hfit⟩

/-- A graph has the same cells when it is completed. -/
theorem Bordered.isCell_completed (n : String) :
    isCell (g.completed module input output) n = isCell g n := by
  have hiff {h : Graph} (hh : h.WellFormed) : isCell h n = true ↔ ∃ i ∈ cells h, i.name = n := by
    refine ⟨Inline.mem_cells_of_isCell, fun ⟨i, hi, hname⟩ => ?_⟩
    obtain ⟨hmem, hrole⟩ := Inline.mem_cells.1 hi
    exact Inline.isCell_iff.2 ⟨i, hname ▸ hh.instance?_of_mem hmem, hrole⟩
  rw [Bool.eq_iff_iff, hiff (hb.completed_wellFormed hg hin hout hne), hiff hg, cells_completed]

omit hne in
/-- The wires at the boundary are the same when a graph is completed. -/
theorem Bordered.ofGraph_completed :
    Terminals.ofGraph (g.completed module input output) = Terminals.ofGraph g := by
  have hf : (g.completed module input output).Framed module
      (g.border module .inputBoundary input).name (g.border module .outputBoundary output).name :=
    hb.framed_completed
  have hrin : Role.inputBoundary ≠ .cell := by decide
  have hrout : Role.outputBoundary ≠ .cell := by decide
  -- a name that no instance of the graph has is at no end of a wire
  have hside {role : Role} (hr : role ≠ .cell) {name n : String} (hname : name ∉ g.names)
      (hn : n ∈ g.names) : decide (some n = some (g.border module role name).name) =
        decide (some n = (g.withRole? role).map Instance.name) := by
    rcases border_cases (g := g) hr module name with ⟨i, -, -, hi, h⟩ | ⟨hi, h⟩
    · rw [h, hi, Option.map_some]
    · rw [h, hi, Option.map_none]
      simpa using fun he : n = name => hname (he ▸ hn)
  rw [Terminals.ofGraph, Terminals.ofGraph, hf.withRole?_input, hf.withRole?_output]
  refine List.foldl_ext _ _ _ fun t w hw => ?_
  rw [Terminals.addWire, Terminals.addWire]
  simp only [Option.map_some, hside hrin hin (hg.source_mem hw), hside hrout hout (hg.dest_mem hw)]

/-- Inlining does not notice that the inside of a composite was completed. -/
theorem Bordered.inline_completed (b : Boundary) (h : Graph) (name : String) :
    h.inline c b name (g.completed module input output) = h.inline c b name g := by
  have hbundles : Inline.innerBundles b name (g.completed module input output) =
      Inline.innerBundles b name g := by
    simp only [Inline.innerBundles, hb.isCell_completed hg hin hout hne]
    rfl
  unfold Graph.inline Inline.checkNames
  rw [cells_completed, hbundles, hb.ofGraph_completed hg hin hout]

end Fresh

/-! ### Inlining -/

/-- A cell of a composite can be inlined into a sound graph if the boundary instances inside are
those of the composite and the names that this creates are not taken. -/
theorem Bordered.exists_inline {b : Boundary} {sub : Graph} {name : String} (hg : g.WellFormed)
    (hs : g.Sound c) (hi : ⟨name, module, .cell⟩ ∈ g.instances) (hsub : sub.WellFormed)
    (hsubs : sub.Sound c) (hb : sub.Bordered module)
    (hfresh : ∀ i ∈ cells sub, b.join name i.name ∉ g.names) :
    ∃ g', g.inline c b name sub = .ok g' := by
  have hnew (ns : List String) : ∃ n, n ∉ ns :=
    (Infinite.exists_notMem_finset ns.toFinset).imp fun _ hn hmem => hn (List.mem_toFinset.2 hmem)
  obtain ⟨input, hin⟩ := hnew sub.names
  obtain ⟨output, hout⟩ := hnew (input :: sub.names)
  obtain ⟨hne, hout⟩ := List.ne_and_not_mem_of_not_mem_cons hout
  rw [← hb.inline_completed hsub hin hout hne.symm]
  refine Graph.exists_inline hg hs hi (hb.completed_wellFormed hsub hin hout hne.symm)
    (hb.completed_sound hsub hin hout hne.symm (hs.registered _ hi) hsubs) hb.framed_completed ?_
  rwa [cells_completed]

end Netlist.Graph
