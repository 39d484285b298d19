import Netlist.Proofs.Flatten.Inlinable

/-!
# A graph after inlining, port by port

After inlining, an instance is one of the others that were there before, or a new cell. What drives
its ports is told by the wires before and by the wires inside the composite.

## Main results

* `Netlist.Inline.instance?_inline`: the instances afterwards.
* `Netlist.Inline.mem_wires_inline_old`: the wires that end at instances that were there before.
* `Netlist.Inline.mem_wires_inline_new`: the wires that end at new cells.
-/

namespace Netlist.Inline

open Netlist.Graph

variable {c : Catalog} {b : Boundary} {W W' sub : Graph} {n m input output : String}
  (hW : W.WellFormed) (hsub : sub.WellFormed) (h : W.inline c b n sub = .ok W')

section Instances

include h

/-- New cells have new names. -/
theorem join_notMem_names {y : String} (hy : isCell sub y = true) : b.join n y ∉ W.names := by
  obtain ⟨i, hi, rfl⟩ := mem_cells_of_isCell hy
  exact (inline_eq_ok_iff.1 h).2.1 i hi

/-- The other instances are there as before. -/
theorem instance?_inline_of_ne {k : String} {i : Instance} (hi : W.instance? k = some i)
    (hk : k ≠ n) : W'.instance? k = some i := by
  rw [instance?, instances_inline h]
  exact instance?_opened_of_ne hi hk

include hW

/-- The cells inside the composite are there under new names. -/
theorem instance?_inline_inner {y : String} {j : Instance} (hj : sub.instance? y = some j)
    (hr : j.role = .cell) : W'.instance? (b.join n y) = some ⟨b.join n y, j.module, .cell⟩ := by
  obtain ⟨hmem, rfl⟩ := instance?_eq_some hj
  refine ((inline_wellFormed hW h).instance?_eq_some_iff).2 ⟨?_, rfl⟩
  rw [instances_inline h]
  exact List.mem_append_right _ (mem_innerCells.2 ⟨j, hmem, hr, rfl⟩)

include hsub

/-- An instance afterwards is one of the others that were there before, or a new cell. -/
theorem instance?_inline {k : String} {i : Instance} (hi : W'.instance? k = some i) :
    (k ≠ n ∧ W.instance? k = some i) ∨ ∃ y j, k = b.join n y ∧ sub.instance? y = some j ∧
      j.role = .cell ∧ i = ⟨b.join n y, j.module, .cell⟩ := by
  obtain ⟨hmem, rfl⟩ := instance?_eq_some hi
  rw [instances_inline h, List.mem_append] at hmem
  rcases hmem with hmem | hmem
  · obtain ⟨hmem, hne⟩ := List.mem_filter.1 hmem
    exact Or.inl ⟨of_decide_eq_true hne, hW.instance?_of_mem hmem⟩
  · obtain ⟨j, hj, hr, rfl⟩ := mem_innerCells.1 hmem
    exact Or.inr ⟨j.name, j, rfl, hsub.instance?_of_mem hj, hr, rfl⟩

end Instances

section Wires

include hW h

/-- The port that drives a port of an instance that was there before is what the driver of the port
comes down to. -/
theorem mem_wires_inline_old (hsubs : sub.Sound c) (hf : sub.Framed m input output) {k p : String}
    {x : Endpoint} (hk : k ∈ W.names) (hne : k ≠ n) : ⟨x, ⟨k, p⟩⟩ ∈ W'.wires ↔
      ∃ e, ⟨e, ⟨k, p⟩⟩ ∈ W.wires ∧ (Terminals.ofGraph sub).ComesFrom W n (inner b n) e x := by
  rw [mem_wires_inline hW h]
  constructor
  · rintro (⟨hw, hs, -⟩ | hw | hw)
    · exact ⟨x, hw, Or.inl ⟨hs, rfl⟩⟩
    · obtain ⟨v, -, -, hc, he⟩ := mem_innerWires.1 hw
      have hown : k = b.join n v.dest.owner := congrArg (Endpoint.owner ∘ Wire.dest) he
      exact absurd (hown ▸ hk) (join_notMem_names h hc)
    · obtain ⟨w, hw, -, hsource, hdest⟩ := mem_outerWires.1 hw
      rcases hdest with ⟨-, e, he, hown⟩ | ⟨-, hd⟩
      · obtain ⟨hv, hout⟩ := (Terminals.mem_sinksOf_ofGraph hf).1 he
        have hown : k = b.join n e.owner := congrArg Endpoint.owner hown
        exact absurd (hown ▸ hk) (join_notMem_names h (hf.isCell_dest hsubs hv hout))
      · have hd : (⟨k, p⟩ : Endpoint) = w.dest := hd
        exact ⟨w.source, hd ▸ hw, hsource⟩
  · rintro ⟨e, hw, hc⟩
    rcases hc with ⟨hs, rfl⟩ | ⟨hs, ht⟩
    · exact Or.inl ⟨hw, hs, hne⟩
    · exact Or.inr (Or.inr (mem_outerWires.2 ⟨_, hw, Or.inl hs, Or.inr ⟨hs, ht⟩,
        Or.inr ⟨hne, rfl⟩⟩))

/-- The port that drives a port of a new cell is what drives it inside the composite, or what the
driver of the input comes down to that drives it there. -/
theorem mem_wires_inline_new (hsub : sub.WellFormed) (hsubs : sub.Sound c)
    (hf : sub.Framed m input output) {y p : String} {x : Endpoint} (hy : isCell sub y = true) :
    ⟨x, inner b n ⟨y, p⟩⟩ ∈ W'.wires ↔
      (∃ f, ⟨f, ⟨y, p⟩⟩ ∈ sub.wires ∧ f.owner ≠ input ∧ x = inner b n f) ∨
        ∃ i e, ⟨⟨input, i⟩, ⟨y, p⟩⟩ ∈ sub.wires ∧ ⟨e, ⟨n, i⟩⟩ ∈ W.wires ∧
          (Terminals.ofGraph sub).ComesFrom W n (inner b n) e x := by
  have hfresh := join_notMem_names h hy
  rw [mem_wires_inline hW h]
  constructor
  · rintro (⟨hw, -, -⟩ | hw | hw)
    · exact absurd (hW.dest_mem hw) hfresh
    · obtain ⟨v, hv, hcs, -, he⟩ := mem_innerWires.1 hw
      obtain ⟨rfl, hd⟩ := Wire.mk.inj he
      have hd : (⟨y, p⟩ : Endpoint) = v.dest := inner_inj.1 hd
      exact Or.inl ⟨v.source, hd ▸ hv, fun hi => hf.not_isCell_input hsub (hi ▸ hcs), rfl⟩
    · obtain ⟨w, hw, -, hsource, hdest⟩ := mem_outerWires.1 hw
      rcases hdest with ⟨hn, e, he, hd⟩ | ⟨-, hd⟩
      · obtain rfl : (⟨y, p⟩ : Endpoint) = e := inner_inj.1 hd
        have hwn : w.dest = ⟨n, w.dest.port⟩ := Endpoint.eq_mk_iff.2 ⟨hn, rfl⟩
        exact Or.inr ⟨w.dest.port, w.source, ((Terminals.mem_sinksOf_ofGraph hf).1 he).1,
          by rwa [← hwn], hsource⟩
      · have hown : b.join n y = w.dest.owner := congrArg Endpoint.owner hd
        exact absurd (hown ▸ hW.dest_mem hw) hfresh
  · rintro (⟨f, hv, hne, rfl⟩ | ⟨i, e, hv, hw, hc⟩)
    · exact Or.inr (Or.inl (mem_innerWires.2 ⟨_, hv, hf.isCell_source hsubs hv hne, hy, rfl⟩))
    · have hout : y ≠ output := fun ho => hf.not_isCell_output hsub (ho ▸ hy)
      exact Or.inr (Or.inr (mem_outerWires.2 ⟨_, hw, Or.inr rfl, hc,
        Or.inl ⟨rfl, _, (Terminals.mem_sinksOf_ofGraph hf).2 ⟨hv, hout⟩, rfl⟩⟩))

end Wires

end Netlist.Inline
