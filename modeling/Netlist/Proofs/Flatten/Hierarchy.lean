import Netlist.Proofs.Catalog.Modules
import Netlist.Proofs.Graph.Framed
import Netlist.Proofs.Names
import Netlist.Proofs.Wiring

/-!
# Connections in a hierarchy

A graph with composite cells stands for a hierarchy: each composite cell has a graph inside, with
composite cells of its own. A place in the hierarchy is told by the cells around it. The port that
drives a leaf in the end is found by following drivers through the hierarchy, into composites at
their outputs and out of them at their inputs.

## Main definitions

* `Netlist.Hierarchy.Place`: a port in a hierarchy, with `Netlist.Hierarchy.Place.flat`, its name
  without the hierarchy.
* `Netlist.Hierarchy.Origin`: where a source comes from in the end.
* `Netlist.Hierarchy.Drives`, `Netlist.Hierarchy.IsPin`: what drives a port in the end, and the
  ports for which this matters.
* `Netlist.Hierarchy.Connects`: the wires that a hierarchy amounts to.

## Main results

* `Netlist.Hierarchy.Origin.unique`, `Netlist.Hierarchy.Drives.unique`: nothing comes from two
  places.
* `Netlist.Hierarchy.Connects.congr`: what a graph amounts to depends on what is found in it.
* `Netlist.Hierarchy.connects_iff_of_leaves`: a graph without composites amounts to its own wires.
-/

namespace Netlist.Hierarchy

/-- A port in a hierarchy. -/
structure Place where
  /-- The names of the composite cells around the instance, the innermost first. -/
  path : List String
  /-- The port, among the instances there. -/
  port : Endpoint

/-- The name of an instance without the hierarchy around it. -/
def flatName (b : Boundary) : List String → String → String
  | [], name => name
  | cell :: path, name => flatName b path (b.join cell name)

/-- The name of a port without the hierarchy around it. -/
def Place.flat (b : Boundary) (p : Place) : Endpoint :=
  ⟨flatName b p.path p.port.owner, p.port.port⟩

theorem flatName_append (b : Boundary) (p : List String) (n x : String) :
    flatName b (p ++ [n]) x = b.join n (flatName b p x) := by
  induction p generalizing x with
  | nil => rfl
  | cons cell p ih => exact ih _

/-- A name from within composites is no identifier. -/
theorem not_isIdentifier_flatName {b : Boundary} (hb : b.Separates) {p : List String} (hp : p ≠ [])
    (x : String) : ¬isIdentifier (flatName b p x) = true := by
  rcases List.eq_nil_or_concat p with rfl | ⟨q, n, rfl⟩
  · exact absurd rfl hp
  · rw [List.concat_eq_append, flatName_append]
    exact Boundary.not_isIdentifier_join hb

section Hierarchy

variable (inside : String → Option Graph) (top : Graph)

/-- The graph inside a composite cell of a graph. -/
def insideOf (g : Graph) (name : String) : Option Graph :=
  (g.instance? name).bind fun i => if i.isCell then inside i.module else none

/-- The graph inside nested composite cells. -/
def graphAt : List String → Option Graph
  | [] => some top
  | cell :: path => (graphAt path).bind fun g => insideOf inside g cell

/-- A place is at a leaf: at a cell without an inside. -/
def IsLeaf (p : Place) : Prop :=
  ∃ g i, graphAt inside top p.path = some g ∧ g.instance? p.port.owner = some i ∧
    i.role = .cell ∧ inside i.module = none

/-- Where a source comes from in the end. A leaf is a source itself, and so is a boundary of the
whole graph. The source of an output of a composite is what drives this output inside. The source of
an input, seen from inside, is what drives it outside. Nothing comes of a source that is not driven
or leads back to itself. -/
inductive Origin : Place → Place → Prop
  | leaf {p : Place} (h : IsLeaf inside top p) : Origin p p
  | input {e : Endpoint} {i : Instance} (hi : top.instance? e.owner = some i)
      (hr : i.role = .inputBoundary) : Origin ⟨[], e⟩ ⟨[], e⟩
  | enter {path : List String} {g B : Graph} {o : Instance} {e e' : Endpoint} {s : Place}
      (hg : graphAt inside top path = some g) (hB : insideOf inside g e.owner = some B)
      (ho : B.withRole? .outputBoundary = some o) (hd : B.driver? o.name e.port = some e')
      (h : Origin ⟨e.owner :: path, e'⟩ s) : Origin ⟨path, e⟩ s
  | leave {path : List String} {n : String} {g B : Graph} {i : Instance} {e e' : Endpoint}
      {s : Place} (hg : graphAt inside top path = some g) (hB : insideOf inside g n = some B)
      (hi : B.instance? e.owner = some i) (hr : i.role = .inputBoundary)
      (hd : g.driver? n e.port = some e') (h : Origin ⟨path, e'⟩ s) : Origin ⟨n :: path, e⟩ s

/-- What drives a port in the end. -/
def Drives (s p : Place) : Prop :=
  ∃ g e, graphAt inside top p.path = some g ∧ g.driver? p.port.owner p.port.port = some e ∧
    Origin inside top ⟨p.path, e⟩ s

/-- A place takes something in, in the end: at a leaf, or at a boundary of the whole graph. -/
def IsPin (p : Place) : Prop :=
  IsLeaf inside top p ∨
    (p.path = [] ∧ ∃ i, top.instance? p.port.owner = some i ∧ i.role = .outputBoundary)

/-- The wires that a hierarchy amounts to: from what drives a port in the end to that port. -/
def Connects (b : Boundary) (w : Wire) : Prop :=
  ∃ s p, IsPin inside top p ∧ Drives inside top s p ∧ w = ⟨s.flat b, p.flat b⟩

end Hierarchy

variable {inside : String → Option Graph} {top : Graph} {b : Boundary}

theorem insideOf_eq_some_iff {g B : Graph} {name : String} : insideOf inside g name = some B ↔
    ∃ i, g.instance? name = some i ∧ i.role = .cell ∧ inside i.module = some B := by
  unfold insideOf
  rw [Option.bind_eq_some_iff]
  refine exists_congr fun i => and_congr_right fun _ => ?_
  by_cases hr : i.role = .cell <;> simp [Instance.isCell, hr]

theorem graphAt_cons_eq_some_iff {n : String} {p : List String} {B : Graph} :
    graphAt inside top (n :: p) = some B ↔
      ∃ g, graphAt inside top p = some g ∧ insideOf inside g n = some B :=
  Option.bind_eq_some_iff

theorem graphAt_concat (n : String) (p : List String) : graphAt inside top (p ++ [n]) =
    (insideOf inside top n).bind fun B => graphAt inside B p := by
  induction p with
  | nil => exact (Option.bind_some ..).trans (Option.bind_fun_some _).symm
  | cons k p ih =>
    change (graphAt inside top (p ++ [n])).bind _ = _
    rw [ih, Option.bind_assoc]
    rfl

/-- Inside a composite cell of the whole graph, a hierarchy is that of its inside. -/
theorem graphAt_append {n : String} {B : Graph} (hB : insideOf inside top n = some B)
    (p : List String) : graphAt inside top (p ++ [n]) = graphAt inside B p := by
  rw [graphAt_concat, hB, Option.bind_some]

theorem IsLeaf.append {n : String} {B : Graph} (hB : insideOf inside top n = some B) {p : Place} :
    IsLeaf inside top ⟨p.path ++ [n], p.port⟩ ↔ IsLeaf inside B p := by
  unfold IsLeaf
  rw [graphAt_append hB]

/-- A leaf has no inside. -/
theorem IsLeaf.insideOf_eq_none {p : Place} (h : IsLeaf inside top p) {g : Graph}
    (hg : graphAt inside top p.path = some g) : insideOf inside g p.port.owner = none := by
  obtain ⟨g', i, hg', hi, -, hm⟩ := h
  cases hg.symm.trans hg'
  rw [Option.eq_none_iff_forall_not_mem]
  intro B hB
  obtain ⟨j, hj, -, hB⟩ := insideOf_eq_some_iff.1 hB
  cases hi.symm.trans hj
  cases hm.symm.trans hB

/-- A source ends at a leaf or at a boundary of the whole graph. -/
theorem Origin.isLeaf_or {p s : Place} (h : Origin inside top p s) : IsLeaf inside top s ∨
    (s.path = [] ∧ ∃ i, top.instance? s.port.owner = some i ∧ i.role = .inputBoundary) := by
  induction h with
  | leaf h => exact Or.inl h
  | input hi hr => exact Or.inr ⟨rfl, _, hi, hr⟩
  | enter _ _ _ _ _ ih => exact ih
  | leave _ _ _ _ _ _ ih => exact ih

/-- The instance at a source is there. -/
theorem Origin.exists_instance {p s : Place} (h : Origin inside top p s) :
    ∃ g i, graphAt inside top p.path = some g ∧ g.instance? p.port.owner = some i := by
  cases h with
  | leaf h =>
    obtain ⟨g, i, hg, hi, -⟩ := h
    exact ⟨g, i, hg, hi⟩
  | input hi _ => exact ⟨top, _, rfl, hi⟩
  | enter hg hB _ _ _ =>
    obtain ⟨i, hi, -⟩ := insideOf_eq_some_iff.1 hB
    exact ⟨_, i, hg, hi⟩
  | leave hg hB hi _ _ _ => exact ⟨_, _, graphAt_cons_eq_some_iff.2 ⟨_, hg, hB⟩, hi⟩

/-- A source comes from one place only. -/
theorem Origin.unique {p s s' : Place} (h : Origin inside top p s) (h' : Origin inside top p s') :
    s = s' := by
  induction h generalizing s' with
  | leaf h =>
    cases h' with
    | leaf _ => rfl
    | input _ _ => rfl
    | enter hg hB _ _ _ => cases (h.insideOf_eq_none hg).symm.trans hB
    | leave hg hB hi hr _ _ =>
      obtain ⟨g, j, hg', hj, hrj, -⟩ := h
      cases (graphAt_cons_eq_some_iff.2 ⟨_, hg, hB⟩).symm.trans hg'
      cases hi.symm.trans hj
      cases hr.symm.trans hrj
  | input hi hr =>
    cases h' with
    | leaf _ => rfl
    | input _ _ => rfl
    | enter hg hB _ _ _ =>
      cases hg
      obtain ⟨j, hj, hrj, -⟩ := insideOf_eq_some_iff.1 hB
      cases hi.symm.trans hj
      cases hr.symm.trans hrj
  | enter hg hB ho hd _ ih =>
    cases h' with
    | leaf h => cases (h.insideOf_eq_none hg).symm.trans hB
    | input hi hr =>
      cases hg
      obtain ⟨j, hj, hrj, -⟩ := insideOf_eq_some_iff.1 hB
      cases hi.symm.trans hj
      cases hr.symm.trans hrj
    | enter hg' hB' ho' hd' h' =>
      cases hg.symm.trans hg'
      cases hB.symm.trans hB'
      cases ho.symm.trans ho'
      cases hd.symm.trans hd'
      exact ih h'
    | leave hg' hB' hi hr _ _ =>
      cases (graphAt_cons_eq_some_iff.2 ⟨_, hg', hB'⟩).symm.trans hg
      obtain ⟨j, hj, hrj, -⟩ := insideOf_eq_some_iff.1 hB
      cases hi.symm.trans hj
      cases hr.symm.trans hrj
  | leave hg hB hi hr hd _ ih =>
    cases h' with
    | leaf h =>
      obtain ⟨g, j, hg', hj, hrj, -⟩ := h
      cases (graphAt_cons_eq_some_iff.2 ⟨_, hg, hB⟩).symm.trans hg'
      cases hi.symm.trans hj
      cases hr.symm.trans hrj
    | enter hg' hB' _ _ _ =>
      cases (graphAt_cons_eq_some_iff.2 ⟨_, hg, hB⟩).symm.trans hg'
      obtain ⟨j, hj, hrj, -⟩ := insideOf_eq_some_iff.1 hB'
      cases hi.symm.trans hj
      cases hr.symm.trans hrj
    | leave hg' _ _ _ hd' h' =>
      cases hg.symm.trans hg'
      cases hd.symm.trans hd'
      exact ih h'

/-- A port is driven from one place only. -/
theorem Drives.unique {p s s' : Place} (h : Drives inside top s p) (h' : Drives inside top s' p) :
    s = s' := by
  obtain ⟨g, e, hg, hd, h⟩ := h
  obtain ⟨g', e', hg', hd', h'⟩ := h'
  cases hg.symm.trans hg'
  cases hd.symm.trans hd'
  exact h.unique h'

/-! ### Graphs in which the same is found -/

section Congr

variable {top' : Graph} (hinst : ∀ n, top.instance? n = top'.instance? n)
  (hdriver : ∀ n p, top.driver? n p = top'.driver? n p)

include hinst in
theorem insideOf_congr (n : String) : insideOf inside top n = insideOf inside top' n := by
  rw [insideOf, insideOf, hinst]

include hinst hdriver

/-- The same is found at all places. -/
private theorem exists_graphAt_congr {p : List String} {g : Graph}
    (hg : graphAt inside top p = some g) : ∃ g', graphAt inside top' p = some g' ∧
      (∀ n, g.instance? n = g'.instance? n) ∧ ∀ n q, g.driver? n q = g'.driver? n q := by
  induction p generalizing g with
  | nil =>
    cases hg
    exact ⟨top', rfl, hinst, hdriver⟩
  | cons k p ih =>
    obtain ⟨h, hh, hg⟩ := graphAt_cons_eq_some_iff.1 hg
    obtain ⟨h', hh', hi, -⟩ := ih hh
    exact ⟨g, graphAt_cons_eq_some_iff.2 ⟨h', hh', insideOf_congr hi k ▸ hg⟩, fun _ => rfl,
      fun _ _ => rfl⟩

theorem IsLeaf.congr {p : Place} (h : IsLeaf inside top p) : IsLeaf inside top' p := by
  obtain ⟨g, i, hg, hi, hr, hm⟩ := h
  obtain ⟨g', hg', hinst', -⟩ := exists_graphAt_congr hinst hdriver hg
  exact ⟨g', i, hg', hinst' _ ▸ hi, hr, hm⟩

theorem Origin.congr {p s : Place} (h : Origin inside top p s) : Origin inside top' p s := by
  induction h with
  | leaf h => exact .leaf (h.congr hinst hdriver)
  | input hi hr => exact .input (hinst _ ▸ hi) hr
  | enter hg hB ho hd _ ih =>
    obtain ⟨g', hg', hinst', -⟩ := exists_graphAt_congr hinst hdriver hg
    exact .enter hg' (insideOf_congr hinst' _ ▸ hB) ho hd ih
  | leave hg hB hi hr hd _ ih =>
    obtain ⟨g', hg', hinst', hdriver'⟩ := exists_graphAt_congr hinst hdriver hg
    exact .leave hg' (insideOf_congr hinst' _ ▸ hB) hi hr (hdriver' _ _ ▸ hd) ih

/-- Where the same instances and drivers are found, a graph amounts to the same wires. -/
theorem Connects.congr {w : Wire} (h : Connects inside top b w) : Connects inside top' b w := by
  obtain ⟨s, p, hpin, ⟨g, e, hg, hd, ho⟩, rfl⟩ := h
  obtain ⟨g', hg', -, hdriver'⟩ := exists_graphAt_congr hinst hdriver hg
  refine ⟨s, p, ?_, ⟨g', e, hg', hdriver' _ _ ▸ hd, ho.congr hinst hdriver⟩, rfl⟩
  rcases hpin with hl | ⟨hp, i, hi, hr⟩
  · exact Or.inl (hl.congr hinst hdriver)
  · exact Or.inr ⟨hp, i, hinst _ ▸ hi, hr⟩

end Congr

/-! ### Graphs without composites -/

section Leaves

variable (hleaf : ∀ i ∈ top.instances, i.role = .cell → inside i.module = none)
include hleaf

/-- There are no places inside of leaves. -/
theorem graphAt_cons_eq_none (n : String) (p : List String) :
    graphAt inside top (n :: p) = none := by
  rw [Option.eq_none_iff_forall_not_mem]
  intro B hB
  induction p generalizing n B with
  | nil =>
    obtain ⟨g, hg, hB⟩ := graphAt_cons_eq_some_iff.1 hB
    cases hg
    obtain ⟨i, hi, hr, hm⟩ := insideOf_eq_some_iff.1 hB
    cases (hleaf i (Graph.instance?_eq_some hi).1 hr).symm.trans hm
  | cons k p ih =>
    obtain ⟨g, hg, -⟩ := graphAt_cons_eq_some_iff.1 hB
    exact ih k g hg

theorem path_eq_nil {p : Place} {g : Graph} (hg : graphAt inside top p.path = some g) :
    p.path = [] := by
  cases hp : p.path with
  | nil => rfl
  | cons n q =>
    rw [hp, graphAt_cons_eq_none hleaf] at hg
    cases hg

/-- Where there are no composites, a source is where it comes from. -/
theorem Origin.eq_of_leaves {p s : Place} (h : Origin inside top p s) : s = p := by
  cases h with
  | leaf _ => rfl
  | input _ _ => rfl
  | enter hg hB _ _ _ =>
    cases (graphAt_cons_eq_none hleaf _ _).symm.trans (graphAt_cons_eq_some_iff.2 ⟨_, hg, hB⟩)
  | leave hg hB _ _ _ _ =>
    cases (graphAt_cons_eq_none hleaf _ _).symm.trans (graphAt_cons_eq_some_iff.2 ⟨_, hg, hB⟩)

/-- A graph without composites amounts to its own wires. -/
theorem connects_iff_of_leaves {c : Catalog} (hg : top.WellFormed) (hs : top.Sound c) {w : Wire} :
    Connects inside top b w ↔ w ∈ top.wires := by
  constructor
  · rintro ⟨s, p, -, ⟨g, e, hgp, hd, hs⟩, rfl⟩
    have hp := path_eq_nil hleaf hgp
    rw [hp] at hgp hs
    cases hgp
    cases hs.eq_of_leaves hleaf
    rw [Place.flat, Place.flat, hp]
    exact Graph.mem_wires_of_driver? hd
  · intro hw
    obtain ⟨i, j, hi, hj, hfit⟩ := hs.fits w hw
    refine ⟨⟨[], w.source⟩, ⟨[], w.dest⟩, ?_, ⟨top, w.source, rfl, hg.driver?_eq_some_iff.2 hw, ?_⟩,
      rfl⟩
    · cases hr : j.role with
      | cell => exact Or.inl ⟨top, j, rfl, hj, hr, hleaf j (Graph.instance?_eq_some hj).1 hr⟩
      | inputBoundary => exact absurd hr hfit.dest_role
      | outputBoundary => exact Or.inr ⟨rfl, j, hj, hr⟩
    · cases hr : i.role with
      | cell => exact .leaf ⟨top, i, rfl, hi, hr, hleaf i (Graph.instance?_eq_some hi).1 hr⟩
      | inputBoundary => exact .input hi hr
      | outputBoundary => exact absurd hr hfit.source_role

end Leaves

end Netlist.Hierarchy
