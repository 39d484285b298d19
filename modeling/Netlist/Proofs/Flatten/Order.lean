import Netlist.Proofs.Flatten.Connectivity
import Netlist.Proofs.Graph.Agree

/-!
# Flattening and the order of instances

Composite cells are inlined in the order of the instances. What they leave behind does not depend on
this order: the cells and links inside of each composite, and the wires that the graph amounts to
when it is read as a hierarchy of flat insides. Only names depend on it, since a composite cell
gives up its name when it is inlined, and a cell inside another composite may get this name, but not
before.

## Main definitions

* `Netlist.Flatten.flatInside`: the flat inside of a composite.
* `Netlist.Flatten.NameFreed`: two graphs differ in whether a name is given up before it is needed.

## Main results

* `Netlist.Flatten.Inlined.agree`: inlining the composites of two graphs that agree gives graphs
  that agree.
* `Netlist.Catalog.flattenGraph_agree`: flattening two graphs that agree gives graphs that agree, or
  fails for both, unless a name is given up in time for one of them only.
-/

namespace Netlist

open Flatten Hierarchy

namespace Flatten

variable {c : Catalog} {b : Boundary} {g h work work' : Graph} {module : String}
  {cells cells' : List (String × String)}

/-! ### Flat insides -/

/-- The flat inside of a composite, if there is one. -/
def flatInside (c : Catalog) (b : Boundary) (module : String) : Option Graph :=
  (c.flattenModule b module).toOption

theorem flatInside_eq_some_iff {f : Graph} :
    flatInside c b module = some f ↔ Expands c b module f := by
  rw [← flattenModule_eq_ok_iff, flatInside]
  cases c.flattenModule b module with
  | error e => exact ⟨fun h => (nomatch h), fun h => (nomatch h)⟩
  | ok f' => exact ⟨fun h => congrArg _ (Option.some.inj h), fun h => congrArg _ (Except.ok.inj h)⟩

theorem flatInside_eq_none (hm : c.HasLeaf module) : flatInside c b module = none := by
  rw [Option.eq_none_iff_forall_not_mem]
  intro f hf
  cases flatInside_eq_some_iff.1 hf with
  | mk hbody _ _ => cases hm.body?.symm.trans hbody

/-- A flat inside has the wires that it amounts to itself. -/
theorem Expands.isFlat_self (hc : ∀ m B, c.body? m = some B → Whole c m B) {f : Graph}
    (hf : Expands c b module f) : ∃ input output B, flatInside c b module = some B ∧
      IsFlat c b (flatInside c b) module input output B f := by
  obtain ⟨hleaf, hw, hs, input, output, hframe⟩ := hf.leaf_whole hc
  have hin : ∀ i ∈ f.instances, i.role = .cell → flatInside c b i.module = none :=
    fun i hi hr => flatInside_eq_none (hleaf i hi hr)
  refine ⟨input, output, f, flatInside_eq_some_iff.2 hf, hw, hframe, hw, hframe, hs, hin,
    fun p x hp hsome => ?_, fun w => (connects_iff_of_leaves hin hw hs).symm⟩
  -- there are no composites in it
  obtain ⟨k, q, rfl⟩ := List.exists_cons_of_ne_nil hp
  rw [graphAt_cons_eq_none hin] at hsome
  cases hsome

/-! ### Instances and links after a sequence of inlinings -/

/-- The cells that take the place of a composite cell. -/
def newCells (c : Catalog) (b : Boundary) (e : String × String) : List Instance :=
  ((flatInside c b e.2).map (Inline.innerCells b e.1)).getD []

theorem newCells_eq {name : String} {f : Graph} (hf : Expands c b module f) :
    newCells c b (name, module) = Inline.innerCells b name f := by
  rw [newCells, flatInside_eq_some_iff.2 hf]
  rfl

/-- A composite has a link between two cells that take the place of a composite cell. -/
def NewLink (c : Catalog) (b : Boundary) (e : String × String) (s d : String) : Prop :=
  ∃ f, Expands c b e.2 f ∧ ∃ s' d', f.Linked s' d' ∧ Inline.isCell f s' = true ∧
    Inline.isCell f d' = true ∧ s = b.join e.1 s' ∧ d = b.join e.1 d'

/-- Cells of a graph are told, each once. -/
structure Listed (g : Graph) (cells : List (String × String)) : Prop where
  mem : ∀ n ∈ cells.map Prod.fst, n ∈ g.names
  nodup : (cells.map Prod.fst).Nodup

theorem listed_of_compositeCells (hg : g.WellFormed)
    (hcells : compositeCells c g.instances = .ok cells) : Listed g cells :=
  ⟨(compositeCells_sublist hcells).subset, nodup_compositeCells hg.nodup_names hcells⟩

namespace Listed

/-- Inlining the first cell leaves the others. -/
theorem inline {name : String} {sub g₁ : Graph} (hl : Listed g ((name, module) :: cells))
    (hinline : g.inline c b name sub = .ok g₁) : Listed g₁ cells := by
  obtain ⟨hnot, hnodup⟩ := List.nodup_cons.1 hl.nodup
  refine ⟨fun n hn => ?_, hnodup⟩
  have hne : n ≠ name := fun he => hnot (he ▸ hn)
  rw [Graph.names, Graph.instances_inline hinline, List.map_append]
  exact List.mem_append_left _
    (Graph.mem_names_without.2 ⟨hl.mem n (List.mem_cons_of_mem _ hn), hne⟩)

/-- No new cell has the name of one that is told. -/
theorem join_notMem {name : String} {sub g₁ : Graph} (hl : Listed g cells)
    (hinline : g.inline c b name sub = .ok g₁) {i : Instance} (hi : i ∈ Inline.cells sub) :
    b.join name i.name ∉ cells.map Prod.fst := fun hn =>
  (Graph.inline_eq_ok_iff.1 hinline).2.1 i hi (hl.mem _ hn)

theorem of_append_left (hl : Listed g (cells ++ cells')) : Listed g cells := by
  obtain ⟨hmem, hnodup⟩ := hl
  rw [List.map_append] at hmem hnodup
  exact ⟨fun n hn => hmem n (List.mem_append_left _ hn), hnodup.of_append_left⟩

end Listed

/-- Each composite cell gives way to the cells inside. -/
theorem Inlined.instances_eq (hrun : Inlined c b (Expands c b) g cells work)
    (hl : Listed g cells) :
    work.instances = (g.instances.filter fun i => i.name ∉ cells.map Prod.fst) ++
      cells.flatMap (newCells c b) := by
  induction hrun with
  | nil => simp
  | @cons g g₁ work sub name module cells hsub hinline _ ih =>
    have hkept : ((Inline.innerCells b name sub).filter fun i => i.name ∉ cells.map Prod.fst) =
        Inline.innerCells b name sub := by
      refine List.filter_eq_self.2 fun i hi => decide_eq_true fun hn => ?_
      obtain ⟨j, hj, hr, rfl⟩ := Inline.mem_innerCells.1 hi
      exact hl.join_notMem hinline (Inline.mem_cells.2 ⟨hj, hr⟩) (List.mem_cons_of_mem _ hn)
    rw [ih (hl.inline hinline), Graph.instances_inline hinline, List.filter_append, hkept,
      List.flatMap_cons, newCells_eq hsub, List.append_assoc, Graph.without, List.filter_filter]
    refine congrArg (· ++ _) (List.filter_congr fun i _ => ?_)
    rw [← Bool.decide_and, decide_eq_decide, List.map_cons, List.mem_cons, not_or, and_comm]

/-- A name after a sequence of inlinings was there from the beginning, or is that of a new cell. -/
theorem Inlined.mem_names_iff (hrun : Inlined c b (Expands c b) g cells work)
    (hl : Listed g cells) {x : String} : x ∈ work.names ↔
      (x ∈ g.names ∧ x ∉ cells.map Prod.fst) ∨
        ∃ e ∈ cells, ∃ i ∈ newCells c b e, i.name = x := by
  simp only [Graph.mem_names, hrun.instances_eq hl, List.mem_append, List.mem_filter,
    List.mem_flatMap, decide_eq_true_eq]
  constructor
  · rintro ⟨i, ⟨hi, hn⟩ | ⟨e, he, hi⟩, rfl⟩
    · exact Or.inl ⟨⟨i, hi, rfl⟩, hn⟩
    · exact Or.inr ⟨e, he, i, hi, rfl⟩
  · rintro (⟨⟨i, hi, rfl⟩, hn⟩ | ⟨e, he, i, hi, rfl⟩)
    · exact ⟨i, Or.inl ⟨hi, hn⟩, rfl⟩
    · exact ⟨i, Or.inr ⟨e, he, hi⟩, rfl⟩

/-- A wire that touches no composite cell stays. -/
private theorem mem_wires_of_inlined (hrun : Inlined c b (Expands c b) g cells work)
    (hg : g.WellFormed) {w : Wire} (hw : w ∈ g.wires) (hs : w.source.owner ∉ cells.map Prod.fst)
    (hd : w.dest.owner ∉ cells.map Prod.fst) : w ∈ work.wires := by
  induction hrun with
  | nil => exact hw
  | cons hsub hinline _ ih =>
    obtain ⟨hsn, hs⟩ := not_or.1 (mt List.mem_cons.2 hs)
    obtain ⟨hdn, hd⟩ := not_or.1 (mt List.mem_cons.2 hd)
    exact ih (Graph.inline_wellFormed hg hinline)
      ((Graph.mem_wires_inline hg hinline).2 (Or.inl ⟨hw, hsn, hdn⟩)) hs hd

/-- The links after a sequence of inlinings are those that touched no composite cell, those inside
of the composites, and those of the wires there are. -/
theorem Inlined.linked_iff (hrun : Inlined c b (Expands c b) g cells work) (hg : g.WellFormed)
    (hl : Listed g cells) {s d : String} : work.Linked s d ↔
      (g.Linked s d ∧ s ∉ cells.map Prod.fst ∧ d ∉ cells.map Prod.fst) ∨
        (∃ e ∈ cells, NewLink c b e s d) ∨
        ∃ w ∈ work.wires, w.source.owner = s ∧ w.dest.owner = d := by
  induction hrun with
  | nil =>
    refine ⟨fun hl => Or.inl ⟨hl, List.not_mem_nil, List.not_mem_nil⟩, ?_⟩
    rintro (⟨hl, -⟩ | ⟨e, he, -⟩ | ⟨w, hw, rfl, rfl⟩)
    · exact hl
    · cases he
    · exact Graph.linked_of_mem_wires hw
  | @cons g g₁ work sub name module cells hsub hinline hrest ih =>
    have hfresh {y : String} (hy : Inline.isCell sub y = true) :
        b.join name y ∉ cells.map Prod.fst := fun hn => by
      obtain ⟨j, hj, rfl⟩ := Inline.mem_cells_of_isCell hy
      exact hl.join_notMem hinline hj (List.mem_cons_of_mem _ hn)
    have hhead : NewLink c b (name, module) s d ↔ ∃ s' d', sub.Linked s' d' ∧
        Inline.isCell sub s' = true ∧ Inline.isCell sub d' = true ∧ s = b.join name s' ∧
          d = b.join name d' := by
      refine ⟨fun ⟨f, hf, h⟩ => ?_, fun h => ⟨sub, hsub, h⟩⟩
      rwa [hf.unique hsub]
    rw [ih (Graph.inline_wellFormed hg hinline) (hl.inline hinline), Graph.linked_inline hinline,
      ← hhead, List.exists_mem_cons_iff, List.map_cons, List.mem_cons, List.mem_cons, not_or,
      not_or]
    constructor
    · rintro (⟨⟨hl, hs, hd⟩ | hl | ⟨w, hw, rfl, rfl⟩, hsn, hdn⟩ | hl | hw)
      · exact Or.inl ⟨hl, ⟨hs, hsn⟩, hd, hdn⟩
      · exact Or.inr (Or.inl (Or.inl hl))
      · have hw₁ : w ∈ g₁.wires := (Graph.mem_wires_inline hg hinline).2 (Or.inr (Or.inr hw))
        exact Or.inr (Or.inr ⟨w, mem_wires_of_inlined hrest
          (Graph.inline_wellFormed hg hinline) hw₁ hsn hdn, rfl, rfl⟩)
      · exact Or.inr (Or.inl (Or.inr hl))
      · exact Or.inr (Or.inr hw)
    · rintro (⟨hl, ⟨hs, hsn⟩, hd, hdn⟩ | (hl | hl) | hw)
      · exact Or.inl ⟨Or.inl ⟨hl, hs, hd⟩, hsn, hdn⟩
      · obtain ⟨s', d', -, hs', hd', rfl, rfl⟩ := hhead.1 hl
        exact Or.inl ⟨Or.inr (Or.inl hl), hfresh hs', hfresh hd'⟩
      · exact Or.inr (Or.inl hl)
      · exact Or.inr (Or.inr hw)

/-! ### Two orders -/

/-- Strays are dropped alike from graphs that agree. -/
theorem agree_dropStray (hwork : work.WellFormed) (hwork' : work'.WellFormed)
    (hnames : ∀ n, n ∈ g.names ↔ n ∈ h.names) (hagree : work.Agree work') :
    (dropStray g work).Agree (dropStray h work') := by
  obtain ⟨hinst, hlinked, hwires⟩ := (Graph.agree_iff hwork hwork').1 hagree
  have horphan (n : String) : work.isOrphan n = work'.isOrphan n := by
    rw [Bool.eq_iff_iff, Graph.isOrphan_iff, Graph.isOrphan_iff]
    simp only [hlinked]
  refine (Graph.agree_iff (dropStray_wellFormed hwork) (dropStray_wellFormed hwork')).2
    ⟨fun i => ?_, hlinked, hwires⟩
  rw [mem_instances_dropStray, mem_instances_dropStray, hinst, hnames, horphan]

section Agree

variable (hg : g.WellFormed) (hh : h.WellFormed) (hgh : g.Agree h)
  (hcells : compositeCells c g.instances = .ok cells)
  (hcells' : compositeCells c h.instances = .ok cells')

include hgh hcells hcells' in
theorem mem_compositeCells_of_agree {e : String × String} : e ∈ cells ↔ e ∈ cells' := by
  rw [mem_compositeCells hcells, mem_compositeCells hcells', hgh.mem_instances_iff]

include hgh hcells hcells' in
private theorem mem_cells_names_of_agree {n : String} :
    n ∈ cells.map Prod.fst ↔ n ∈ cells'.map Prod.fst := by
  simp only [List.mem_map, mem_compositeCells_of_agree hgh hcells hcells']

include hg hh hgh hcells hcells'

/-- Inlining the composites of two graphs that agree gives graphs that agree. -/
theorem Inlined.agree (hs : g.Sound c) (hs' : h.Sound c)
    (hc : ∀ m B, c.body? m = some B → Whole c m B)
    (hrun : Inlined c b (Expands c b) g cells work)
    (hrun' : Inlined c b (Expands c b) h cells' work') : work.Agree work' := by
  have hl := listed_of_compositeCells hg hcells
  have hl' := listed_of_compositeCells hh hcells'
  have hcell {e : String × String} := mem_compositeCells_of_agree hgh hcells hcells' (e := e)
  have hname {n : String} := mem_cells_names_of_agree hgh hcells hcells' (n := n)
  have hflat (m : String) (s : Graph) (hm : Expands c b m s) : LeafCells c s ∧
      ∃ input output B, flatInside c b m = some B ∧
        IsFlat c b (flatInside c b) m input output B s :=
    ⟨hm.leafCells, hm.isFlat_self hc⟩
  have hwires (w : Wire) : w ∈ work.wires ↔ w ∈ work'.wires := by
    rw [mem_wires_iff_of_inlined (fun _ => flatInside_eq_none) hg hs hcells hrun hflat,
      mem_wires_iff_of_inlined (fun _ => flatInside_eq_none) hh hs' hcells' hrun' hflat]
    exact ⟨.congr (hgh.instance?_eq hg hh) (hgh.driver?_eq hg hh),
      .congr (hgh.symm.instance?_eq hh hg) (hgh.symm.driver?_eq hh hg)⟩
  refine (Graph.agree_iff (hrun.wellFormed hg) (hrun'.wellFormed hh)).2
    ⟨fun i => ?_, fun s d => ?_, hwires⟩
  · simp only [hrun.instances_eq hl, hrun'.instances_eq hl', List.mem_append,
      List.mem_filter, List.mem_flatMap, decide_eq_true_eq, hcell, hname, hgh.mem_instances_iff]
  · simp only [hrun.linked_iff hg hl, hrun'.linked_iff hh hl', hcell, hname,
      hwires, ((Graph.agree_iff hg hh).1 hgh).2.1]

end Agree

/-! ### Names that are given up -/

/-- Two graphs differ in whether a name is given up before it is needed. The composite cell `x`
gives up its name when it is inlined, and the name goes to a cell inside the composite cell `n`. In
the graph `g` the cell `x` comes first, in the graph `h` it is the other way round. -/
structure NameFreed (c : Catalog) (b : Boundary) (g h : Graph) (x n : String) : Prop where
  ok : ∃ f, c.flattenGraph b g = .ok f
  error : c.flattenGraph b h = .error (.nameCollision x n)
  inner : ∃ m f, ⟨n, m, .cell⟩ ∈ g.instances ∧ c.flattenModule b m = .ok f ∧
    ∃ i ∈ Inline.cells f, x = b.join n i.name
  composite : ∀ k, k = x ∨ k = n → ∃ i ∈ g.instances, i.name = k ∧ isCompositeCell c i = true
  before : [x, n].Sublist g.names
  after : [n, x].Sublist h.names

/-- No two cells get the same name. -/
private theorem eq_of_mem_newCells (hrun : Inlined c b (Expands c b) g cells work)
    (hg : g.WellFormed) (hl : Listed g cells) {e e' : String × String} (he : e ∈ cells)
    (he' : e' ∈ cells) {i j : Instance} (hi : i ∈ newCells c b e) (hj : j ∈ newCells c b e')
    (hij : i.name = j.name) : e = e' := by
  have hnames := (hrun.wellFormed hg).nodup_names
  rw [Graph.names, hrun.instances_eq hl, List.map_append, List.map_flatMap] at hnames
  have hpair := (List.nodup_flatMap.1 hnames.of_append_right).2
  have : Std.Symm (Function.onFun List.Disjoint
      fun e => (newCells c b e).map Instance.name) := ⟨fun _ _ h _ hi hj => h hj hi⟩
  by_contra hne
  exact hpair.forall he he' hne (List.mem_map_of_mem hi) (hij ▸ List.mem_map_of_mem hj)

/-- No new cell gets a name that is kept. -/
private theorem mem_cells_of_mem_newCells (hrun : Inlined c b (Expands c b) g cells work)
    (hg : g.WellFormed) (hl : Listed g cells) {e : String × String} (he : e ∈ cells) {i : Instance}
    (hi : i ∈ newCells c b e) (hname : i.name ∈ g.names) : i.name ∈ cells.map Prod.fst := by
  have hnames := (hrun.wellFormed hg).nodup_names
  rw [Graph.names, hrun.instances_eq hl, List.map_append] at hnames
  by_contra hn
  obtain ⟨j, hj, hji⟩ := Graph.mem_names.1 hname
  exact List.disjoint_of_nodup_append hnames
    (List.mem_map.2 ⟨j, List.mem_filter.2 ⟨hj, decide_eq_true (hji ▸ hn)⟩, hji⟩)
    (List.mem_map_of_mem (List.mem_flatMap.2 ⟨e, he, hi⟩))

/-- Where a cell inside of `n` gets the name of an instance `x`, this instance is a composite cell
that was inlined before. -/
private theorem before_of_inlined (hrun : Inlined c b (Expands c b) g cells work)
    (hl : Listed g cells) {n m : String} {f : Graph} (he : (n, m) ∈ cells) (hf : Expands c b m f)
    {i : Instance} (hi : i ∈ Inline.cells f) (hname : b.join n i.name ∈ g.names) :
    b.join n i.name ≠ n ∧ [b.join n i.name, n].Sublist (cells.map Prod.fst) := by
  obtain ⟨cells₁, cells₂, rfl⟩ := List.append_of_mem he
  obtain ⟨g₁, hrun₁, hrun₂⟩ := hrun.exists_of_append
  have hl₁ := hl.of_append_left
  have hnodup := hl.nodup
  rw [List.map_append, List.map_cons] at hnodup ⊢
  have hx : b.join n i.name ∈ cells₁.map Prod.fst := by
    cases hrun₂ with
    | cons hsub hinline _ =>
      rw [hf.unique hsub] at hinline
      by_contra hnot
      exact (Graph.inline_eq_ok_iff.1 hinline).2.1 i hi
        ((hrun₁.mem_names_iff hl₁).2 (Or.inl ⟨hname, hnot⟩))
  exact ⟨fun hxn => List.disjoint_of_nodup_append hnodup (hxn ▸ hx) List.mem_cons_self,
    (List.singleton_sublist.2 hx).append (List.singleton_sublist.2 List.mem_cons_self)⟩

section Freed

variable (hg : g.WellFormed) (hh : h.WellFormed) (hgh : g.Agree h)
  (hcells : compositeCells c g.instances = .ok cells)
  (hcells' : compositeCells c h.instances = .ok cells')
include hg hh hgh hcells hcells'

/-- Where flattening succeeds for one of two graphs that agree and fails for the other because a
name is taken, the name is given up in time for the first graph only. -/
theorem nameFreed_of_collides (hrun : Inlined c b (Expands c b) g cells work) {x n : String}
    (hcollides : Collides c b (Expands c b) h cells' x n) : NameFreed c b g h x n := by
  have hl := listed_of_compositeCells hg hcells
  have hl' := listed_of_compositeCells hh hcells'
  have hcell {e : String × String} := mem_compositeCells_of_agree hgh hcells hcells' (e := e)
  obtain ⟨cells₁, m, cells₂, h₁, f, hsplit, hrun₁, hf, ⟨i, hi, hx⟩, htaken⟩ :=
    hcollides.exists_prefix
  have he' : (n, m) ∈ cells' := hsplit ▸ List.mem_append_right _ List.mem_cons_self
  have he : (n, m) ∈ cells := hcell.2 he'
  have hnew : ⟨x, i.module, .cell⟩ ∈ newCells c b (n, m) := by
    obtain ⟨hi, hr⟩ := Inline.mem_cells.1 hi
    rw [newCells_eq hf, hx]
    exact Inline.mem_innerCells.2 ⟨i, hi, hr, rfl⟩
  rw [hsplit] at hl'
  have hnodup' := hl'.nodup
  rw [List.map_append, List.map_cons] at hnodup'
  -- the name was there from the beginning
  have hxh : x ∈ h.names ∧ x ∉ cells₁.map Prod.fst := by
    refine ((hrun₁.mem_names_iff hl'.of_append_left).1 htaken).resolve_right ?_
    rintro ⟨e, he₁, j, hj, hjx⟩
    have he₂ : e ∈ cells := hcell.2 (hsplit ▸ List.mem_append_left _ he₁)
    cases eq_of_mem_newCells hrun hg hl he₂ he hj hnew hjx
    exact absurd List.mem_cons_self
      (List.disjoint_of_nodup_append hnodup' (List.mem_map_of_mem he₁))
  have hxg : x ∈ g.names := hgh.mem_names_iff.2 hxh.1
  have hxc : x ∈ cells.map Prod.fst :=
    mem_cells_of_mem_newCells hrun hg hl he hnew hxg
  obtain ⟨hne, hbefore⟩ := before_of_inlined hrun hl he hf hi (hx ▸ hxg)
  rw [← hx] at hne hbefore
  have hxc₂ : x ∈ cells₂.map Prod.fst := by
    have hxc' := (mem_cells_names_of_agree hgh hcells hcells').1 hxc
    rw [hsplit, List.map_append, List.map_cons, List.mem_append, List.mem_cons] at hxc'
    exact (hxc'.resolve_left hxh.2).resolve_left hne
  refine ⟨⟨_, flattenGraph_eq_ok_iff.2 ⟨cells, work, hcells, hrun, rfl⟩⟩,
    flattenGraph_eq_error hcells' hcollides,
    ⟨m, f, ((mem_compositeCells hcells).1 he).1, flattenModule_eq_ok_iff.2 hf, i, hi, hx⟩,
    fun k hk => ?_,
    hbefore.trans (compositeCells_sublist hcells), ?_⟩
  · have hkc : k ∈ cells.map Prod.fst := by
      rcases hk with rfl | rfl
      · exact hxc
      · exact List.mem_map_of_mem he
    obtain ⟨e, he, rfl⟩ := List.mem_map.1 hkc
    obtain ⟨hi, hbody⟩ := (mem_compositeCells hcells).1 he
    exact ⟨_, hi, rfl, isCompositeCell_iff.2 ⟨rfl, hbody⟩⟩
  · have hafter : [n, x].Sublist (cells'.map Prod.fst) := by
      rw [hsplit, List.map_append, List.map_cons]
      exact ((List.singleton_sublist.2 hxc₂).cons_cons n).trans (List.sublist_append_right _ _)
    exact hafter.trans (compositeCells_sublist hcells')

end Freed

/-- Where a composite cannot be flattened, no graph with a cell of it can be. -/
private theorem exists_flattenGraph_eq_error (hcells : compositeCells c g.instances = .ok cells)
    {e : String × String} (he : e ∈ cells) (hno : ¬∃ s, Expands c b e.2 s) :
    ∃ e, c.flattenGraph b g = .error e := by
  cases hflat : c.flattenGraph b g with
  | error e => exact ⟨e, rfl⟩
  | ok f =>
    obtain ⟨cells', work, hcells', hrun, -⟩ := flattenGraph_eq_ok_iff.1 hflat
    cases hcells.symm.trans hcells'
    exact absurd (hrun.exists_of_mem he) hno

end Flatten

namespace Catalog

variable {c : Catalog} {b : Boundary} {g h : Graph}

/-- Flattening depends on the order of instances in one way only. In a catalog of registered
composites whose insides pass validation, two graphs that agree and pass validation either both
cannot be flattened, or both can, with results that agree, or a composite cell gives up its name in
time in one of the graphs only. -/
theorem flattenGraph_agree (hc : c.Registered)
    (hv : ∀ m B, c.body? m = some B → B.validate c = .ok ()) (hg : g.WellFormed)
    (hh : h.WellFormed) (hgv : g.validate c = .ok ()) (hhv : h.validate c = .ok ())
    (hgh : g.Agree h) :
    (∃ e e', c.flattenGraph b g = .error e ∧ c.flattenGraph b h = .error e') ∨
      (∃ f f', c.flattenGraph b g = .ok f ∧ c.flattenGraph b h = .ok f' ∧ f.Agree f') ∨
      ∃ x n, NameFreed c b g h x n ∨ NameFreed c b h g x n := by
  have hwhole := hc.whole hv
  have hs := (Graph.validate_eq_ok_iff hg).1 hgv
  have hs' := (Graph.validate_eq_ok_iff hh).1 hhv
  obtain ⟨cells, hcells⟩ := exists_compositeCells hs
  obtain ⟨cells', hcells'⟩ := exists_compositeCells hs'
  have hcell {e : String × String} := mem_compositeCells_of_agree hgh hcells hcells' (e := e)
  by_cases hex : ∀ e ∈ cells, ∃ s, Expands c b e.2 s
  · have hp := pending_of_compositeCells hg.nodup_names hcells
    have hp' := pending_of_compositeCells hh.nodup_names hcells'
    have hR : ∀ m s, Expands c b m s → LeafCells c s ∧ Whole c m s :=
      fun _ _ hm => hm.leaf_whole hwhole
    rcases exists_inlined_or_collides hg hs hp hex hR with ⟨work, hrun⟩ | ⟨x, n, hcol⟩ <;>
      rcases exists_inlined_or_collides hh hs' hp' (fun e he => hex e (hcell.2 he)) hR with
        ⟨work', hrun'⟩ | ⟨x', n', hcol'⟩
    · refine Or.inr (Or.inl ⟨_, _, flattenGraph_eq_ok_iff.2 ⟨cells, work, hcells, hrun, rfl⟩,
        flattenGraph_eq_ok_iff.2 ⟨cells', work', hcells', hrun', rfl⟩, ?_⟩)
      exact agree_dropStray (hrun.wellFormed hg) (hrun'.wellFormed hh)
        (fun _ => hgh.mem_names_iff) (hrun.agree hg hh hgh hcells hcells' hs hs' hwhole hrun')
    · exact Or.inr (Or.inr ⟨x', n', Or.inl (nameFreed_of_collides hg hh hgh hcells hcells' hrun
        hcol')⟩)
    · exact Or.inr (Or.inr ⟨x, n, Or.inr (nameFreed_of_collides hh hg hgh.symm hcells' hcells
        hrun' hcol)⟩)
    · exact Or.inl ⟨_, _, flattenGraph_eq_error hcells hcol, flattenGraph_eq_error hcells' hcol'⟩
  · push Not at hex
    obtain ⟨e, he, hno⟩ := hex
    have hno : ¬∃ s, Expands c b e.2 s := fun ⟨s, hs⟩ => hno s hs
    obtain ⟨_, hfail⟩ := exists_flattenGraph_eq_error hcells he hno
    obtain ⟨_, hfail'⟩ := exists_flattenGraph_eq_error hcells' (hcell.1 he) hno
    exact Or.inl ⟨_, _, hfail, hfail'⟩

end Catalog

namespace Sample

/-- A leaf that drives a composite, which drives another one of the same kind. -/
def pair : Graph where
  instances := [⟨"t", "leaf", .cell⟩, ⟨"a", "stage", .cell⟩, ⟨"b", "stage", .cell⟩]
  links := [⟨⟨"a", "b", [⟨"o", "i"⟩]⟩, 1⟩, ⟨⟨"t", "a", [⟨"o", "i"⟩]⟩, 0⟩]
  freed := []

/-- The same cells and wires in another order, so that the other composite is inlined first. -/
def pairBack : Graph where
  instances := [⟨"b", "stage", .cell⟩, ⟨"a", "stage", .cell⟩, ⟨"t", "leaf", .cell⟩]
  links := [⟨⟨"t", "a", [⟨"o", "i"⟩]⟩, 1⟩, ⟨⟨"a", "b", [⟨"o", "i"⟩]⟩, 0⟩]
  freed := []

theorem built_pair : pair.Built stages :=
  .of_lists [("t", "leaf"), ("a", "stage"), ("b", "stage")]
    [⟨"t", "a", [⟨"o", "i"⟩]⟩, ⟨"a", "b", [⟨"o", "i"⟩]⟩] (by decide)

theorem built_pairBack : pairBack.Built stages :=
  .of_lists [("b", "stage"), ("a", "stage"), ("t", "leaf")]
    [⟨"a", "b", [⟨"o", "i"⟩]⟩, ⟨"t", "a", [⟨"o", "i"⟩]⟩] (by decide)

end Sample

namespace Catalog

theorem flattenGraph_agree_pair : ∃ f f',
    Sample.stages.flattenGraph .standard Sample.pair = .ok f ∧
      Sample.stages.flattenGraph .standard Sample.pairBack = .ok f' ∧ f.Agree f' := by
  obtain ⟨f, hf⟩ := exists_eq_ok_of_isOk
    (x := Sample.stages.flattenGraph .standard Sample.pair) (by decide_cbv)
  obtain ⟨f', hf'⟩ := exists_eq_ok_of_isOk
    (x := Sample.stages.flattenGraph .standard Sample.pairBack) (by decide_cbv)
  rcases flattenGraph_agree (b := .standard) Sample.built_stages.registered
      Sample.built_stages.validate_body Sample.built_pair.wellFormed
      Sample.built_pairBack.wellFormed (by decide) (by decide) (by decide) with
    ⟨e, -, he, -⟩ | hagree | ⟨x, n, hfreed | hfreed⟩
  · cases hf.symm.trans he
  · exact hagree
  · cases hf'.symm.trans hfreed.error
  · cases hf.symm.trans hfreed.error

end Catalog

namespace Sample

/-- Two composite cells, of which the first has the name that the leaf in the second one gets. -/
def freedInTime : Graph where
  instances := [⟨"t", "leaf", .cell⟩, ⟨"p.x", "stage", .cell⟩, ⟨"p", "stage", .cell⟩]
  links := [⟨⟨"t", "p", [⟨"o", "i"⟩]⟩, 1⟩, ⟨⟨"t", "p.x", [⟨"o", "i"⟩]⟩, 0⟩]
  freed := []

/-- The same cells in another order. -/
def freedTooLate : Graph :=
  { freedInTime with
    instances := [⟨"t", "leaf", .cell⟩, ⟨"p", "stage", .cell⟩, ⟨"p.x", "stage", .cell⟩] }

/-- What a composite is made of that hands its input through and has a second instance with the role
of its inputs. -/
def throughAssembly : Assembly where
  name := "through"
  inputs := .ofList [("i", .bits 8)]
  outputs := .ofList [("o", .bits 8)]
  inside := ⟨[⟨"y", "leaf", .inputBoundary⟩], [], []⟩
  inputSinks := .empty
  outputSources := .empty
  feedThrough := .ofList [("i", "o")]

/-- The inside of that composite. -/
def throughInside : Graph where
  instances := [⟨"y", "leaf", .inputBoundary⟩, ⟨"input_block", "through", .inputBoundary⟩,
    ⟨"output_block", "through", .outputBoundary⟩]
  links := [⟨⟨"input_block", "output_block", [⟨"i", "o"⟩]⟩, 0⟩]
  freed := []

/-- The catalog with that composite. -/
def throughs : Catalog :=
  leaves.put "through" ⟨throughAssembly.inputs, throughAssembly.outputs, some throughInside⟩

/-- What a composite around a leaf is made of whose output has the name of an input. -/
def feedAssembly : Assembly where
  name := "feed"
  inputs := .empty
  outputs := .ofList [("i", .bits 8)]
  inside := ⟨[⟨"x", "leaf", .cell⟩], [], []⟩
  inputSinks := .empty
  outputSources := .ofList [("i", ⟨"x", "o"⟩)]
  feedThrough := .empty

/-- The inside of that composite. -/
def feedInside : Graph where
  instances := [⟨"x", "leaf", .cell⟩, ⟨"input_block", "feed", .inputBoundary⟩,
    ⟨"output_block", "feed", .outputBoundary⟩]
  links := [⟨⟨"x", "output_block", [⟨"o", "i"⟩]⟩, 0⟩]
  freed := []

/-- The catalog with both composites. -/
def feeds : Catalog :=
  throughs.put "feed" ⟨feedAssembly.inputs, feedAssembly.outputs, some feedInside⟩

theorem register_through :
    (throughAssembly.register .standard).runOn leaves = (.ok (), throughs) :=
  Assembly.register_of_checks (by decide) (by decide) (by decide)
    (Catalog.checkBody_of_leaves (by decide))

theorem register_feed : (feedAssembly.register .standard).runOn throughs = (.ok (), feeds) :=
  Assembly.register_of_checks (by decide) (by decide) (by decide)
    (Catalog.checkBody_of_leaves (by decide))

/-- The first composite drives a leaf, and the second one has the name that the input of the first
one would get as a cell. -/
def feedLast : Graph where
  instances := [⟨"n", "through", .cell⟩, ⟨"n.input_block", "feed", .cell⟩, ⟨"s", "leaf", .cell⟩]
  links := [⟨⟨"n", "s", [⟨"o", "i"⟩]⟩, 0⟩]
  freed := []

/-- The same cells in another order. -/
def feedFirst : Graph :=
  { feedLast with
    instances := [⟨"n.input_block", "feed", .cell⟩, ⟨"n", "through", .cell⟩, ⟨"s", "leaf", .cell⟩] }

private theorem expands_feed : Expands feeds .standard "feed" feedInside := by
  have hcells : compositeCells feeds feedInside.instances = .ok [] := by decide
  exact dropStray_self feedInside ▸ .mk (by decide) hcells .nil

private theorem expands_through : Expands feeds .standard "through" throughInside := by
  have hcells : compositeCells feeds throughInside.instances = .ok [] := by decide
  exact dropStray_self throughInside ▸ .mk (by decide) hcells .nil

/-- What is left when the first composite is inlined first. -/
def feedThere : Graph where
  instances := [⟨"n.input_block", "feed", .cell⟩, ⟨"s", "leaf", .cell⟩]
  links := [⟨⟨"n.input_block", "s", [⟨"i", "i"⟩]⟩, 0⟩]
  freed := []

/-- What is left when the second composite is inlined first. -/
def feedGone : Graph :=
  { feedLast with
    instances := [⟨"n", "through", .cell⟩, ⟨"s", "leaf", .cell⟩,
      ⟨"n.input_block.x", "leaf", .cell⟩] }

theorem flattenGraph_feedLast : ∃ f, feeds.flattenGraph .standard feedLast = .ok f := by
  have h₁ : feedLast.inline feeds .standard "n" throughInside = .ok feedThere := by decide_cbv
  have hrewired : Inline.rewired .standard feedThere "n.input_block" (.ofGraph feedInside) =
      [⟨"n.input_block.x", "s", [⟨"o", "i"⟩]⟩] := by decide_cbv
  obtain ⟨work, h₂⟩ : ∃ work, feedThere.inline feeds .standard "n.input_block" feedInside =
      .ok work := by
    refine exists_eq_ok_of_isOk ?_
    rw [Graph.inline, hrewired]
    decide
  exact ⟨_, flattenGraph_eq_ok_iff.2 ⟨[("n", "through"), ("n.input_block", "feed")], work,
    by decide, .cons expands_through h₁ (.cons expands_feed h₂ .nil), rfl⟩⟩

theorem flattenGraph_feedFirst : ¬∃ f, feeds.flattenGraph .standard feedFirst = .ok f := by
  rintro ⟨f, h⟩
  obtain ⟨cells, work, hcells, hrun, -⟩ := flattenGraph_eq_ok_iff.1 h
  have hcells' : compositeCells feeds feedFirst.instances =
      .ok [("n.input_block", "feed"), ("n", "through")] := by decide
  cases hcells.symm.trans hcells'
  have h₁ : feedFirst.inline feeds .standard "n.input_block" feedInside = .ok feedGone := by
    decide
  have h₂ : (feedGone.inline feeds .standard "n" throughInside).isOk = false := by decide_cbv
  cases hrun with
  | cons hsub hinline hrest =>
    rw [expands_feed.unique hsub, h₁] at hinline
    cases hinline
    cases hrest with
    | cons hsub hinline _ =>
      rw [expands_through.unique hsub] at hinline
      rw [hinline] at h₂
      cases h₂

end Sample

namespace Catalog

open Sample hiding leaf leaves

/-- Two ways for the order of instances to decide whether flattening succeeds: a composite cell
gives up its name in time for a cell of that name in one order only, and the input of a composite
with two instances for its inputs is taken for a cell that another composite may stand for. -/
theorem flattenGraph_depends_on_order :
    ((stageAssembly.register .standard).runOn Sample.leaves = (.ok (), stages) ∧
      inside.validate stages = .ok () ∧ freedInTime.validate stages = .ok () ∧
      freedTooLate.validate stages = .ok () ∧ freedInTime.Agree freedTooLate ∧
      (∃ f, stages.flattenGraph .standard freedInTime = .ok f) ∧
      ¬∃ f, stages.flattenGraph .standard freedTooLate = .ok f) ∧
    (throughAssembly.register .standard).runOn Sample.leaves = (.ok (), throughs) ∧
      (feedAssembly.register .standard).runOn throughs = (.ok (), feeds) ∧
      throughInside.validate feeds = .ok () ∧ feedInside.validate feeds = .ok () ∧
      feedLast.validate feeds = .ok () ∧ feedFirst.validate feeds = .ok () ∧
      feedLast.Agree feedFirst ∧ (∃ f, feeds.flattenGraph .standard feedLast = .ok f) ∧
      ¬∃ f, feeds.flattenGraph .standard feedFirst = .ok f := by
  exact ⟨⟨register_stage, by decide, by decide, by decide, by decide,
    exists_eq_ok_of_isOk (by decide_cbv), not_exists_eq_ok_of_isOk (by decide_cbv)⟩,
    register_through, register_feed, by decide, by decide, by decide, by decide, by decide,
    flattenGraph_feedLast, flattenGraph_feedFirst⟩

end Catalog

end Netlist
