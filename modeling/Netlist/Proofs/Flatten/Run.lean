import Mathlib
import Netlist.Proofs.Flatten.Expansion
import Netlist.Sample

/-!
# Inlining one composite after the other

While composites are inlined, the graph's composite cells are those that are still to come. So what
one inlining of a composite cell preserves is preserved by all of them together.

## Main definitions

* `Netlist.Flatten.LeafCells`: all cells of a graph are leaves.
* `Netlist.Flatten.Pending`: what is still to be inlined are the composite cells of a graph.

## Main results

* `Netlist.Flatten.Expands.leafCells`: there are only leaves in flat insides.
* `Netlist.Flatten.Inlined.preserves`: from one inlining to a sequence of them.
* `Netlist.Flatten.flattenGraph_postconditions`: what holds of every flattened graph, whatever the
  catalog.
-/

namespace Netlist.Flatten

variable {c : Catalog} {b : Boundary} {g g' sub work : Graph} {name module : String}
  {cells : List (String × String)} {R : String → Graph → Prop}

/-! ### Graphs of leaves -/

/-- All cells of a graph are leaves. -/
def LeafCells (c : Catalog) (g : Graph) : Prop :=
  ∀ i ∈ g.instances, i.role = .cell → c.HasLeaf i.module

theorem LeafCells.compositeCells (h : LeafCells c g) : compositeCells c g.instances = .ok [] := by
  refine compositeCells_eq_ok_iff.2 ⟨fun i hi hr => ?_, ?_⟩
  · exact (h i hi (by simpa [Instance.isCell] using hr)).contains
  · rw [eq_comm, List.map_eq_nil_iff, List.filter_eq_nil_iff]
    intro i hi hc
    obtain ⟨hr, s, hs⟩ := isCompositeCell_iff.1 hc
    rw [(h i hi hr).body?] at hs
    cases hs

/-- A graph of leaves is left as it is. -/
theorem LeafCells.flattenGraph (h : LeafCells c g) : c.flattenGraph b g = .ok g :=
  flattenGraph_eq_ok_iff.2 ⟨[], g, h.compositeCells, .nil, (dropStray_self g).symm⟩

theorem LeafCells.dropStray (h : LeafCells c work) : LeafCells c (dropStray g work) :=
  fun i hi => h i (mem_instances_dropStray.1 hi).1

/-- Where the cells that are put in are leaves, a run leaves no composites but those it was not told
of. -/
private theorem Inlined.leafCells (h : Inlined c b R g cells g')
    (hR : ∀ m s, R m s → LeafCells c s)
    (hg : ∀ i ∈ g.instances, i.role = .cell → c.HasLeaf i.module ∨ i.name ∈ cells.map Prod.fst) :
    LeafCells c g' := by
  induction h with
  | nil => exact fun i hi hr => (hg i hi hr).resolve_right fun h => nomatch h
  | @cons g g₁ g' sub name module cells hsub hinline hrest ih =>
    refine ih fun i hi hr => ?_
    rw [Graph.instances_inline hinline] at hi
    rcases List.mem_append.1 hi with hi | hi
    · obtain ⟨hi, hn⟩ := List.mem_filter.1 hi
      refine (hg i hi hr).imp_right fun hm => ?_
      exact (List.mem_cons.1 hm).resolve_left (by simpa using hn)
    · obtain ⟨j, hj, hjr, rfl⟩ := Inline.mem_innerCells.1 hi
      exact Or.inl (hR _ _ hsub j hj hjr)

/-- Once the composite cells of a graph are inlined, all cells are leaves. -/
theorem leafCells_of_inlined (h : Inlined c b R g cells work)
    (hR : ∀ m s, R m s → LeafCells c s) (hcells : compositeCells c g.instances = .ok cells) :
    LeafCells c work := by
  refine h.leafCells hR fun i hi hr => ?_
  by_cases hm : (i.name, i.module) ∈ cells
  · exact Or.inr (List.mem_map_of_mem hm)
  · exact Or.inl (hasLeaf_of_compositeCells hcells hi hr hm)

/-- All cells in the flat inside of a composite are leaves. -/
theorem Expands.leafCells {f : Graph} (h : Expands c b module f) : LeafCells c f := by
  refine Expands.induct (P := fun _ f => LeafCells c f)
    (fun {module g work cells} _ hcells hwork => ?_) h
  exact (leafCells_of_inlined hwork (fun _ _ => And.right) hcells).dropStray

/-! ### Composites that are still to be inlined -/

/-- What is still to be inlined are the composite cells of a graph, each once. -/
structure Pending (c : Catalog) (g : Graph) (cells : List (String × String)) : Prop where
  nodup : (cells.map Prod.fst).Nodup
  mem_iff : ∀ n m, (n, m) ∈ cells ↔ ⟨n, m, .cell⟩ ∈ g.instances ∧ ∃ s, c.body? m = some s

theorem pending_of_compositeCells (hg : g.names.Nodup)
    (h : compositeCells c g.instances = .ok cells) : Pending c g cells :=
  ⟨nodup_compositeCells hg h, fun _ _ => mem_compositeCells h⟩

namespace Pending

theorem head_mem (hp : Pending c g ((name, module) :: cells)) :
    ⟨name, module, .cell⟩ ∈ g.instances ∧ ∃ s, c.body? module = some s :=
  (hp.mem_iff name module).1 List.mem_cons_self

/-- Inlining a composite without composites inside leaves the others to be inlined. -/
theorem inline (hp : Pending c g ((name, module) :: cells)) (hsub : LeafCells c sub)
    (h : g.inline c b name sub = .ok g') : Pending c g' cells := by
  obtain ⟨hnot, hnodup⟩ := List.nodup_cons.1 hp.nodup
  refine ⟨hnodup, fun n m => ?_⟩
  rw [Graph.instances_inline h, List.mem_append]
  constructor
  · intro hm
    obtain ⟨hi, hs⟩ := (hp.mem_iff n m).1 (List.mem_cons_of_mem _ hm)
    have hn : n ≠ name := by
      rintro rfl
      exact hnot (List.mem_map.2 ⟨(n, m), hm, rfl⟩)
    exact ⟨Or.inl (List.mem_filter.2 ⟨hi, by simpa using hn⟩), hs⟩
  · rintro ⟨hi | hi, s, hs⟩
    · obtain ⟨hi, hn⟩ := List.mem_filter.1 hi
      refine (List.mem_cons.1 ((hp.mem_iff n m).2 ⟨hi, s, hs⟩)).resolve_left fun he => ?_
      cases he
      simp at hn
    · obtain ⟨j, hj, hr, he⟩ := Inline.mem_innerCells.1 hi
      cases he
      rw [(hsub j hj hr).body?] at hs
      cases hs

end Pending

/-- What each inlining of a composite cell preserves is preserved by all of them together. The
graphs stay well formed on the way. -/
theorem Inlined.preserves {I : Graph → Prop} (h : Inlined c b R g cells g')
    (hR : ∀ m s, R m s → LeafCells c s) (hg : g.WellFormed) (hp : Pending c g cells) (hi : I g)
    (step : ∀ {work work' sub : Graph} {name module : String}, work.WellFormed → I work →
      (name, module) ∈ cells → ⟨name, module, .cell⟩ ∈ work.instances → R module sub →
      work.inline c b name sub = .ok work' → I work') :
    g'.WellFormed ∧ I g' := by
  induction h with
  | nil => exact ⟨hg, hi⟩
  | cons hsub hinline _ ih =>
    have hnext := step hg hi List.mem_cons_self hp.head_mem.1 hsub hinline
    exact ih (Graph.inline_wellFormed hg hinline) (hp.inline (hR _ _ hsub) hinline) hnext
      fun hw hi hm => step hw hi (List.mem_cons_of_mem _ hm)

theorem Inlined.wellFormed (h : Inlined c b R g cells g') (hg : g.WellFormed) : g'.WellFormed := by
  induction h with
  | nil => exact hg
  | cons _ hinline _ ih => exact ih (Graph.inline_wellFormed hg hinline)

/-- After several inlinings, an instance was there before or was inside one of the composites. -/
theorem Inlined.mem_instances_or (h : Inlined c b R g cells g') {i : Instance}
    (hi : i ∈ g'.instances) : i ∈ g.instances ∨
      ∃ n m s, (n, m) ∈ cells ∧ R m s ∧ i ∈ Inline.innerCells b n s := by
  induction h with
  | nil => exact Or.inl hi
  | cons hsub hinline _ ih =>
    rcases ih hi with hi | ⟨n, m, s, hmem, hs, hi⟩
    · rw [Graph.instances_inline hinline, List.mem_append] at hi
      exact hi.imp List.mem_of_mem_filter fun hi => ⟨_, _, _, List.mem_cons_self, hsub, hi⟩
    · exact Or.inr ⟨n, m, s, List.mem_cons_of_mem _ hmem, hs, hi⟩

/-- Inlining composite cells leaves the instances that are no cells. -/
theorem Inlined.frame_eq (h : Inlined c b R g cells g') (hg : g.WellFormed)
    (hp : Pending c g cells) (hR : ∀ m s, R m s → LeafCells c s) : g'.frame = g.frame := by
  refine (h.preserves (I := fun work => work.frame = g.frame) hR hg hp rfl ?_).2
  intro work work' sub name module hw hi _ hmem _ hinline
  rw [Graph.frame_inline hinline fun i hi hn => ?_, hi]
  exact List.inj_on_of_nodup_map hw.nodup_names hi hmem hn ▸ rfl

theorem dropStray_wellFormed (hw : work.WellFormed) : (dropStray g work).WellFormed :=
  hw.removeOrphans _

/-- Dropping strays leaves the instances that are no cells. -/
theorem frame_dropStray (g work : Graph) : (dropStray g work).frame = work.frame := by
  rw [dropStray, Graph.removeOrphans, Graph.frame, Graph.frame, List.filter_filter]
  refine List.filter_congr fun i _ => ?_
  cases i.isCell <;> simp

/-! ### Links without bindings -/

theorem Inlined.filled (h : Inlined c b R g cells g') (hg : g.Filled)
    (hR : ∀ m s, R m s → s.Filled) : g'.Filled := by
  induction h with
  | nil => exact hg
  | cons hsub hinline _ ih => exact ih (Graph.inline_filled hg (hR _ _ hsub) hinline)

theorem Expands.filled {f : Graph} (hc : ∀ m B, c.body? m = some B → B.Filled)
    (h : Expands c b module f) : f.Filled := by
  refine Expands.induct (P := fun _ f => f.Filled) (fun hbody _ hwork => ?_) h
  exact (hwork.filled (hc _ _ hbody) fun _ _ => And.right).removeOrphans _

/-- Flattening makes no links without bindings. -/
theorem flattenGraph_filled {flat : Graph} (hc : ∀ m B, c.body? m = some B → B.Filled)
    (hg : g.Filled) (h : c.flattenGraph b g = .ok flat) : flat.Filled := by
  obtain ⟨cells, work, -, hwork, rfl⟩ := flattenGraph_eq_ok_iff.1 h
  exact (hwork.filled hg fun _ _ hs => hs.filled hc).removeOrphans _

/-! ### Flattened graphs -/

theorem flattenGraph_wellFormed {flat : Graph} (hg : g.WellFormed)
    (h : c.flattenGraph b g = .ok flat) : flat.WellFormed := by
  obtain ⟨cells, work, -, hwork, rfl⟩ := flattenGraph_eq_ok_iff.1 h
  exact dropStray_wellFormed (hwork.wellFormed hg)

/-- A flattened graph has no composites and the same boundary as before. The leaves are all there,
and so are the wires that no composite was at. No port has two drivers, and flattening it again
changes nothing. -/
theorem flattenGraph_postconditions {flat : Graph} (hg : g.WellFormed)
    (h : c.flattenGraph b g = .ok flat) :
    (∀ i ∈ flat.instances, i.role = .cell → c.HasLeaf i.module) ∧
      flat.frame = g.frame ∧
      (∀ i ∈ g.instances, i.role = .cell → c.HasLeaf i.module → i ∈ flat.instances) ∧
      (∀ w ∈ g.wires,
        (∀ i ∈ g.instances, i.name = w.source.owner ∨ i.name = w.dest.owner →
          isCompositeCell c i = false) → w ∈ flat.wires) ∧
      (flat.wires.map Wire.dest).Nodup ∧
      c.flattenGraph b flat = .ok flat := by
  obtain ⟨cells, work, hcells, hrun, rfl⟩ := flattenGraph_eq_ok_iff.1 h
  have hR : ∀ m s, Expands c b m s → LeafCells c s := fun _ _ hs => hs.leafCells
  have hp := pending_of_compositeCells hg.nodup_names hcells
  have hleaf : LeafCells c (dropStray g work) := (leafCells_of_inlined hrun hR hcells).dropStray
  -- the names that are inlined are those of composite cells of the graph
  have hcomposite {n m : String} (hm : (n, m) ∈ cells) :
      isCompositeCell c ⟨n, m, .cell⟩ = true ∧ ⟨n, m, .cell⟩ ∈ g.instances :=
    ⟨isCompositeCell_iff.2 ⟨rfl, ((hp.mem_iff n m).1 hm).2⟩, ((hp.mem_iff n m).1 hm).1⟩
  refine ⟨hleaf, ?_, fun i hi hr hl => ?_, fun w hw hends => ?_, ?_, hleaf.flattenGraph⟩
  · rw [frame_dropStray, hrun.frame_eq hg hp hR]
  · have hmem : i ∈ work.instances := by
      refine (hrun.preserves (I := fun work => i ∈ work.instances) hR hg hp hi ?_).2
      intro work work' sub name module _ hi' hm _ _ hinline
      rw [Graph.instances_inline hinline]
      refine List.mem_append_left _ (List.mem_filter.2 ⟨hi', decide_eq_true fun hn => ?_⟩)
      obtain ⟨-, s, hs⟩ := isCompositeCell_iff.1 (hcomposite hm).1
      have he := List.inj_on_of_nodup_map hg.nodup_names hi (hcomposite hm).2 hn
      rw [he] at hl
      rw [hl.body?] at hs
      cases hs
    exact mem_instances_dropStray.2 ⟨hmem, fun _ hn => absurd (Graph.mem_names.2 ⟨i, hi, rfl⟩) hn⟩
  · rw [wires_dropStray]
    refine (hrun.preserves (I := fun work => w ∈ work.wires) hR hg hp hw ?_).2
    intro work work' sub name module hwork hw' hm _ _ hinline
    rw [Graph.mem_wires_inline hwork hinline]
    obtain ⟨hc, hmem⟩ := hcomposite hm
    refine Or.inl ⟨hw', fun he => ?_, fun he => ?_⟩
    · rw [hends _ hmem (Or.inl he.symm)] at hc
      cases hc
    · rw [hends _ hmem (Or.inr he.symm)] at hc
      cases hc
  · exact (hrun.wellFormed hg).nodup_dests

end Netlist.Flatten

namespace Netlist.Sample

/-- A leaf that drives a composite. -/
def row : Graph where
  instances := [⟨"t", "leaf", .cell⟩, ⟨"a", "stage", .cell⟩]
  links := [⟨⟨"t", "a", [⟨"o", "i"⟩]⟩, 0⟩]
  freed := []

theorem row_wellFormed : row.WellFormed where
  nodup_names := by decide
  ends_mem := by
    rintro s d ⟨l, hl, rfl, rfl⟩
    cases List.mem_singleton.1 hl
    decide
  oneLink := List.pairwise_singleton _ _
  nodup_dests := by decide

theorem exists_flattenGraph_row : ∃ flat, stages.flattenGraph .standard row = .ok flat :=
  exists_eq_ok_of_isOk (by decide_cbv)

end Netlist.Sample

namespace Netlist.Flatten

theorem flattenGraph_postconditions_row : ∃ flat,
    Sample.stages.flattenGraph .standard Sample.row = .ok flat ∧
      flat.frame = [] ∧ Sample.stages.flattenGraph .standard flat = .ok flat := by
  obtain ⟨flat, h⟩ := Sample.exists_flattenGraph_row
  obtain ⟨-, hframe, -, -, -, hagain⟩ := flattenGraph_postconditions Sample.row_wellFormed h
  exact ⟨flat, h, hframe, hagain⟩

end Netlist.Flatten
