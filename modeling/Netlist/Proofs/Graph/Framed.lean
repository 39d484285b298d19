import Netlist.Proofs.Graph.WellFormed

/-!
# Graphs inside composites

The graph inside a composite has two instances for the composite's own ports, one for its inputs
and one for its outputs, both bound to the composite itself. All others are cells.

## Main definitions

* `Netlist.Graph.frame`: the instances that are no cells.
* `Netlist.Graph.Framed`: the frame of the graph inside a composite.

## Main results

* `Netlist.Graph.Framed.withRole?_input`, `Netlist.Graph.Framed.withRole?_output`: the instance with
  a boundary role.
-/

namespace Netlist.Graph

/-- The instances of a graph that are no cells, in order. -/
def frame (g : Graph) : List Instance :=
  g.instances.filter fun i => !i.isCell

theorem mem_frame {g : Graph} {i : Instance} :
    i ∈ g.frame ↔ i ∈ g.instances ∧ i.isCell = false := by
  rw [frame, List.mem_filter, Bool.not_eq_true']

/-- The frame of the graph inside a composite: an instance for the inputs of the composite and one
for its outputs, which have given names. -/
def Framed (module input output : String) (g : Graph) : Prop :=
  g.frame = [⟨input, module, .inputBoundary⟩, ⟨output, module, .outputBoundary⟩]

private theorem withRole?_eq_find?_frame (g : Graph) {role : Role} (h : role ≠ .cell) :
    g.withRole? role = g.frame.find? fun i => i.role = role := by
  rw [withRole?, frame, List.find?_filter]
  congr 1
  funext i
  by_cases hi : i.role = role
  · simp [Instance.isCell, hi, h]
  · simp [hi]

namespace Framed

variable {module input output : String} {g : Graph}

theorem withRole?_input (h : g.Framed module input output) :
    g.withRole? .inputBoundary = some ⟨input, module, .inputBoundary⟩ := by
  rw [withRole?_eq_find?_frame g (by decide), h]
  rfl

theorem withRole?_output (h : g.Framed module input output) :
    g.withRole? .outputBoundary = some ⟨output, module, .outputBoundary⟩ := by
  rw [withRole?_eq_find?_frame g (by decide), h]
  rfl

theorem input_mem (h : g.Framed module input output) :
    ⟨input, module, .inputBoundary⟩ ∈ g.instances := by
  refine (mem_frame.1 ?_).1
  rw [h]
  exact List.mem_cons_self

theorem output_mem (h : g.Framed module input output) :
    ⟨output, module, .outputBoundary⟩ ∈ g.instances := by
  refine (mem_frame.1 ?_).1
  rw [h]
  exact List.mem_cons_of_mem _ List.mem_cons_self

theorem instance?_input (h : g.Framed module input output) (hg : g.WellFormed) :
    g.instance? input = some ⟨input, module, .inputBoundary⟩ :=
  hg.instance?_of_mem h.input_mem

theorem instance?_output (h : g.Framed module input output) (hg : g.WellFormed) :
    g.instance? output = some ⟨output, module, .outputBoundary⟩ :=
  hg.instance?_of_mem h.output_mem

/-- An instance with the role of the inputs is the one that the frame names. -/
theorem eq_input (h : g.Framed module input output) {i : Instance} (hi : i ∈ g.instances)
    (hr : i.role = .inputBoundary) : i = ⟨input, module, .inputBoundary⟩ := by
  have hf : i ∈ g.frame := mem_frame.2 ⟨hi, by simp [Instance.isCell, hr]⟩
  rw [h, List.mem_cons, List.mem_singleton] at hf
  rcases hf with rfl | rfl
  · rfl
  · cases hr

/-- An instance with the role of the outputs is the one that the frame names. -/
theorem eq_output (h : g.Framed module input output) {i : Instance} (hi : i ∈ g.instances)
    (hr : i.role = .outputBoundary) : i = ⟨output, module, .outputBoundary⟩ := by
  have hf : i ∈ g.frame := mem_frame.2 ⟨hi, by simp [Instance.isCell, hr]⟩
  rw [h, List.mem_cons, List.mem_singleton] at hf
  rcases hf with rfl | rfl
  · cases hr
  · rfl

end Framed

end Netlist.Graph
