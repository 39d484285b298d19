import Netlist.Proofs.Catalog.Refused
import Netlist.Proofs.Library.Acyclic
import Netlist.Proofs.Library.Lazy
import Netlist.Proofs.Library.Outcome
import Netlist.Proofs.Wiring.Connect

/-!
# Errors that a description cannot cause

A description is checked before it is known what the modules in it are. What the check has found in
order cannot go wrong any more when the composite is assembled: all instances that are asked for are
there, no name is taken, the ports of the boundary instances are those that are declared, and each
output is driven once. What is left are the modules: they can be missing, lack a port, have one of
another type, or be driven at an input twice.

## Main definitions

* `Netlist.Library.RuledOut`: an error that the check of a description rules out.
* `Netlist.Description.Suits`: the boundary instances have names of their own in a description.
* `Netlist.Library.FailsAt`: the description at which assembling a composite fails.

## Main results

* `Netlist.Graph.connect_not_ruledOut`: what requests for bindings are not refused for.
* `Netlist.Library.inside_not_ruledOut`, `Netlist.Library.wire_not_ruledOut`: neither the cells of
  a composite nor its boundary cause such an error.
* `Netlist.Library.buildOne_not_ruledOut`, `Netlist.Library.exists_failsAt_of_ruledOut`: assembling
  composites fails with such an error only if a description has not been checked.
* `Netlist.Library.check_rules_out`: what the check of a description is good for.
-/

namespace Netlist

variable {c c' : Catalog} {b : Boundary} {g : Graph} {d : Description} {e : Error}

/-- Errors that the check of a description rules out: an instance is missing or there already, or
its name is no identifier; a boundary instance lacks a port, or an output has a driver already. -/
inductive Library.RuledOut (b : Boundary) : Error → Prop where
  | missing (name : String) : RuledOut b (.instanceNotFound name)
  | taken (name : String) : RuledOut b (.instanceExists name)
  | misnamed (name : String) : RuledOut b (.invalidInstanceName name)
  | noPort {place : Endpoint} (module : String) (used : Direction)
      (h : b.isBlock place.owner = true) : RuledOut b (.portNotFound place module used)
  | driven {place : Endpoint} (driver : Endpoint) (h : place.owner = b.outputBlock) :
      RuledOut b (.portAlreadyDriven place driver)

/-- The names of the boundary instances are different from each other and from those of all
cells. -/
structure Description.Suits (d : Description) (b : Boundary) : Prop where
  ne : b.inputBlock ≠ b.outputBlock
  not_block : ∀ name ∈ d.cellNames, b.isBlock name = false

open Library (RuledOut)

theorem Boundary.isBlock_iff {name : String} :
    b.isBlock name = true ↔ name = b.inputBlock ∨ name = b.outputBlock := by
  simp [isBlock]

theorem Description.Suits.notMem (hb : d.Suits b) {name : String} (h : b.isBlock name = true) :
    name ∉ d.cellNames :=
  fun hmem => absurd ((hb.not_block name hmem).symm.trans h) Bool.false_ne_true

/-! ### Single requests -/

/-- A port is not withheld with an error that is ruled out, if boundary instances offer it. -/
theorem Instance.Withholds.not_ruledOut {i : Instance} {port : String} {used : Direction}
    (h : i.Withholds c port used e)
    (hoffers : b.isBlock i.name = true → ∃ type, i.Offers c port used type) : ¬RuledOut b e := by
  cases h with
  | noModule => exact nofun
  | noPort hm hnone =>
    rintro (_ | _ | _ | ⟨_, _, hblock⟩)
    obtain ⟨type, m, d, hm', hd, hport⟩ := hoffers hblock
    cases hm.symm.trans hm'
    cases (hnone d hd).symm.trans hport

namespace Graph

/-- An instance with a new name is not refused with an error that is ruled out. -/
theorem instantiate_not_ruledOut {name module : String} (hname : name ∉ g.names)
    (h : g.instantiate c name module = .error e) : ¬RuledOut b e := by
  unfold instantiate at h
  rw [if_neg (mt contains_iff.1 hname)] at h
  split_ifs at h
  cases h
  exact nofun

/-- Bindings between two instances of a graph are not refused with an error that is ruled out, if a
boundary instance offers the ports that are asked for and the outputs are free. -/
theorem connect_not_ruledOut (hg : g.WellFormed) {i j : Instance} {bs : List Binding}
    (hi : i ∈ g.instances) (hj : j ∈ g.instances)
    (hsource : b.isBlock i.name = true → ∀ k ∈ bs, ∃ type, i.Offers c k.source .output type)
    (hdest : b.isBlock j.name = true → ∀ k ∈ bs, ∃ type, j.Offers c k.dest .input type)
    (hfree : j.name = b.outputBlock →
      (bs.map Binding.dest).Nodup ∧ ∀ k ∈ bs, ∀ w ∈ g.wires, w.dest ≠ ⟨j.name, k.dest⟩)
    (h : g.connect c i.name j.name bs = .error e) : ¬RuledOut b e := by
  cases (connect_eq_error_iff hg).1 h with
  | source hnone => cases (hg.instance?_of_mem hi).symm.trans hnone
  | dest _ hnone => cases (hg.instance?_of_mem hj).symm.trans hnone
  | @binding i' j' before after k e hi' hj' hbs _ hk =>
    cases (hg.instance?_of_mem hi).symm.trans hi'
    cases (hg.instance?_of_mem hj).symm.trans hj'
    have hmem : k ∈ bs := hbs ▸ by simp
    cases hk with
    | unfit h =>
      cases h with
      | source h => exact h.not_ruledOut fun hblock => hsource hblock k hmem
      | dest _ h => exact h.not_ruledOut fun hblock => hdest hblock k hmem
      | mismatch => exact nofun
    | driven _ hw hd =>
      rintro (_ | _ | _ | _ | ⟨_, houtput⟩)
      exact (hfree houtput).2 k hmem _ hw hd
    | repeated _ _ hbefore hd =>
      rintro (_ | _ | _ | _ | ⟨_, houtput⟩)
      have hnodup := (hfree houtput).1
      rw [hbs, List.map_append, List.map_cons] at hnodup
      exact (List.nodup_append.1 hnodup).2.2 _ (List.mem_map_of_mem hbefore) _ List.mem_cons_self hd

end Graph

/-! ### The cells of a composite -/

namespace Library

theorem names_foldlM_instantiate {cells : List Description.Cell}
    (h : cells.foldlM (fun g i => g.instantiate c i.name i.module) Graph.empty = .ok g) :
    g.names = cells.map Description.Cell.name := by
  rw [Graph.names, (foldlM_instantiate h).1, Graph.empty, List.nil_append, List.map_map]
  rfl

theorem names_of_inside (h : inside c d = .ok g) : g.names = d.cellNames := by
  rw [Graph.names, (instances_of_inside h).1, List.map_map]
  rfl

/-- The cells of a composite do not cause an error that is ruled out. -/
theorem cells_not_ruledOut (hd : d.Consistent)
    (h : d.cells.foldlM (fun g i => g.instantiate c i.name i.module) Graph.empty = .error e) :
    ¬RuledOut b e := by
  obtain ⟨front, i, back, y, hcells, hy, h⟩ := foldlM_eq_error_iff.1 h
  refine Graph.instantiate_not_ruledOut (fun hmem => ?_) h
  rw [names_foldlM_instantiate hy] at hmem
  have hnodup := hd.nodup_cells
  rw [Description.cellNames, hcells, List.map_append, List.map_cons] at hnodup
  exact (List.nodup_append.1 hnodup).2.2 _ hmem _ List.mem_cons_self rfl

/-- The connections between the cells of a composite do not cause an error that is ruled out. -/
theorem connections_not_ruledOut (hd : d.Consistent) (hb : d.Suits b) (hg : g.WellFormed)
    (hnames : g.names = d.cellNames)
    (h : d.connections.foldlM (fun g l => g.connect c l.source l.dest
      (l.ports.pairs.map fun p => ⟨p.1, p.2⟩)) g = .error e) : ¬RuledOut b e := by
  obtain ⟨front, k, back, y, hconnections, hy, h⟩ := foldlM_eq_error_iff.1 h
  obtain ⟨hyg, hynames⟩ : y.WellFormed ∧ y.names = d.cellNames := by
    refine foldlM_keeps (I := fun g => g.WellFormed ∧ g.names = d.cellNames)
      (fun _ _ g g' hg h => ⟨Graph.connect_wellFormed hg.1 h, ?_⟩) ⟨hg, hnames⟩ hy
    obtain ⟨_, _, _, _, _, _, _, rfl⟩ := Graph.connect_eq_ok_iff.1 h
    exact (Graph.names_bind _ _ _ _).trans hg.2
  have hcell {i : Instance} (hi : i ∈ y.instances) : ¬b.isBlock i.name = true := fun hblock =>
    hb.notMem hblock (hynames ▸ Graph.mem_names.2 ⟨i, hi, rfl⟩)
  obtain ⟨hsource, hdest⟩ := hd.ends k (hconnections ▸ by simp)
  obtain ⟨i, hi, hiname⟩ := Graph.mem_names.1 (hynames ▸ hsource)
  obtain ⟨j, hj, hjname⟩ := Graph.mem_names.1 (hynames ▸ hdest)
  rw [← hiname, ← hjname] at h
  refine Graph.connect_not_ruledOut hyg hi hj (fun hblock => absurd hblock (hcell hi))
    (fun hblock => absurd hblock (hcell hj)) (fun houtput => ?_) h
  exact absurd (Boundary.isBlock_iff.2 (.inr houtput)) (hcell hj)

/-- Neither the cells of a composite nor the connections between them cause an error that is ruled
out. -/
theorem inside_not_ruledOut (hd : d.Consistent) (hb : d.Suits b) (h : inside c d = .error e) :
    ¬RuledOut b e := by
  rcases bind_eq_error_iff.1 h with h | ⟨g, hg, h⟩
  · exact cells_not_ruledOut hd h
  · refine connections_not_ruledOut hd hb ?_ (names_foldlM_instantiate hg) h
    exact foldlM_keeps (fun _ _ _ _ hg h => Graph.instantiate_wellFormed hg h) .empty hg

end Library

/-! ### The boundary of a composite -/

namespace Assembly

variable {a : Assembly}

/-- While a composite is wired, the input boundary offers its inputs to drive others. -/
theorem offers_input (hne : b.inputBlock ≠ b.outputBlock) {port : String}
    (h : port ∈ a.inputs.keys) : ∃ type, Instance.Offers (scaffolded c b a)
      ⟨b.inputBlock, a.scaffold b.inputBlock, .cell⟩ port .output type := by
  obtain ⟨type, htype⟩ := OrderedMap.contains_iff.1 (OrderedMap.contains_iff_mem_keys.2 h)
  refine ⟨type, ⟨.empty, a.inputs, none⟩, .output, ?_, rfl, htype⟩
  rw [scaffolded, Catalog.module?_put, if_neg (fun he => hne (scaffold_inj.1 he)),
    Catalog.module?_put, if_pos rfl]

/-- While a composite is wired, the output boundary offers its outputs to be driven. -/
theorem offers_output {port : String} (h : port ∈ a.outputs.keys) :
    ∃ type, Instance.Offers (scaffolded c b a)
      ⟨b.outputBlock, a.scaffold b.outputBlock, .cell⟩ port .input type := by
  obtain ⟨type, htype⟩ := OrderedMap.contains_iff.1 (OrderedMap.contains_iff_mem_keys.2 h)
  refine ⟨type, ⟨a.outputs, .empty, none⟩, .input, ?_, rfl, htype⟩
  rw [scaffolded, Catalog.module?_put, if_pos rfl]

end Assembly

namespace Library

open Assembly (boundaryWires)

open Catalog (Edit)

variable {w : Wire}

/-- A wire at the boundary begins at a declared input or at a cell. -/
theorem source_of_boundaryWires (hd : d.Consistent) (hw : w ∈ boundaryWires b (assembly d g)) :
    (w.source.owner = b.inputBlock ∧ w.source.port ∈ d.inputs.keys) ∨
      w.source.owner ∈ d.cellNames := by
  simp only [boundaryWires, List.mem_append, List.mem_flatMap, List.mem_map] at hw
  obtain (⟨e, he, sink, -, rfl⟩ | ⟨e, he, rfl⟩) | ⟨e, he, rfl⟩ := hw
  · exact .inl ⟨rfl, (hd.sinks e he).1⟩
  · exact .inr (hd.sources e he).2
  · exact .inl ⟨rfl, (hd.feeds e he).1⟩

/-- A wire at the boundary ends at a declared output or at a cell. -/
theorem dest_of_boundaryWires (hd : d.Consistent) (hw : w ∈ boundaryWires b (assembly d g)) :
    (w.dest.owner = b.outputBlock ∧ w.dest.port ∈ d.outputs.keys) ∨
      w.dest.owner ∈ d.cellNames := by
  simp only [boundaryWires, List.mem_append, List.mem_flatMap, List.mem_map] at hw
  obtain (⟨e, he, sink, hsink, rfl⟩ | ⟨e, he, rfl⟩) | ⟨e, he, rfl⟩ := hw
  · exact .inr ((hd.sinks e he).2 sink hsink)
  · exact .inl ⟨rfl, (hd.sources e he).1⟩
  · exact .inl ⟨rfl, (hd.feeds e he).2⟩

/-- No two wires at the boundary end at the same output. -/
theorem nodup_outputs_of_boundaryWires (hd : d.Consistent) (hb : d.Suits b) :
    (((boundaryWires b (assembly d g)).filter fun w => w.dest.owner = b.outputBlock).map
      Wire.dest).Nodup := by
  have hsinks : ((assembly d g).inputSinks.entries.flatMap fun e =>
      e.2.map fun sink => (⟨⟨b.inputBlock, e.1⟩, sink⟩ : Wire)).filter
        (fun w => w.dest.owner = b.outputBlock) = [] := by
    refine List.filter_eq_nil_iff.2 fun w hw => ?_
    simp only [List.mem_flatMap, List.mem_map] at hw
    obtain ⟨e, he, sink, hsink, rfl⟩ := hw
    rw [decide_eq_true_eq]
    exact fun houtput =>
      hb.notMem (Boundary.isBlock_iff.2 (.inr houtput)) ((hd.sinks e he).2 sink hsink)
  have hblocks (w : Wire) (hw : w ∈ ((assembly d g).outputSources.entries.map fun e =>
      (⟨e.2, ⟨b.outputBlock, e.1⟩⟩ : Wire)) ++ (assembly d g).feedThrough.entries.map fun e =>
        ⟨⟨b.inputBlock, e.1⟩, ⟨b.outputBlock, e.2⟩⟩) : w.dest.owner = b.outputBlock := by
    simp only [List.mem_append, List.mem_map] at hw
    obtain ⟨e, -, rfl⟩ | ⟨e, -, rfl⟩ := hw <;> rfl
  have houtputs : ((boundaryWires b (assembly d g)).filter
      fun w => w.dest.owner = b.outputBlock).map Wire.dest =
        (d.outputSources.keys ++ d.feedThrough.entries.map Prod.snd).map
          (Endpoint.mk b.outputBlock) := by
    rw [boundaryWires, List.append_assoc, List.filter_append, hsinks, List.nil_append,
      List.filter_eq_self.2 fun w hw => decide_eq_true (hblocks w hw)]
    simp [OrderedMap.keys, assembly, Function.comp_def]
  rw [houtputs]
  exact hd.nodup_outputs.map fun _ _ h => (Endpoint.mk.inj h).2

/-- No wire at the boundary ends at the same output as one before it. -/
theorem dest_ne_of_boundaryWires (hd : d.Consistent) (hb : d.Suits b) {front back : List Wire}
    (hwires : boundaryWires b (assembly d g) = front ++ w :: back)
    (hw : w.dest.owner = b.outputBlock) {v : Wire} (hv : v ∈ front) : v.dest ≠ w.dest := by
  intro hvw
  have hnodup := nodup_outputs_of_boundaryWires (g := g) hd hb
  have hfilter : (w :: back).filter (fun w => w.dest.owner = b.outputBlock) =
      w :: back.filter fun w => w.dest.owner = b.outputBlock :=
    List.filter_cons_of_pos (decide_eq_true hw)
  rw [hwires, List.filter_append, hfilter, List.map_append, List.map_cons] at hnodup
  refine (List.nodup_append.1 hnodup).2.2 _ (List.mem_map_of_mem ?_) _ List.mem_cons_self hvw
  exact List.mem_filter.2 ⟨hv, decide_eq_true (hvw ▸ hw)⟩

/-- While a composite is wired, each wire at the boundary begins and ends at an instance. If this is
a boundary instance, it offers the port. -/
theorem ends_of_boundaryWires (hd : d.Consistent) (hb : d.Suits b) (hnames : g.names = d.cellNames)
    (hw : w ∈ boundaryWires b (assembly d g)) {is : List Instance}
    (his : is = g.instances ++ [⟨b.inputBlock, (assembly d g).scaffold b.inputBlock, .cell⟩,
      ⟨b.outputBlock, (assembly d g).scaffold b.outputBlock, .cell⟩]) :
    (∃ i ∈ is, i.name = w.source.owner ∧ (b.isBlock i.name = true →
      ∃ type, i.Offers ((assembly d g).scaffolded c b) w.source.port .output type)) ∧
    ∃ j ∈ is, j.name = w.dest.owner ∧ (b.isBlock j.name = true →
      ∃ type, j.Offers ((assembly d g).scaffolded c b) w.dest.port .input type) := by
  have hcell {name : String} (h : name ∈ d.cellNames) :
      ∃ i ∈ is, i.name = name ∧ ¬b.isBlock i.name = true := by
    obtain ⟨i, hi, rfl⟩ := Graph.mem_names.1 (hnames ▸ h)
    exact ⟨i, his ▸ List.mem_append_left _ hi, rfl, fun hblock => hb.notMem hblock h⟩
  constructor
  · rcases source_of_boundaryWires hd hw with ⟨howner, hport⟩ | h
    · refine ⟨⟨b.inputBlock, (assembly d g).scaffold b.inputBlock, .cell⟩, ?_, howner.symm, ?_⟩
      · simp [his]
      · exact fun _ => Assembly.offers_input hb.ne hport
    · obtain ⟨i, hi, hname, hblock⟩ := hcell h
      exact ⟨i, hi, hname, fun h => absurd h hblock⟩
  · rcases dest_of_boundaryWires hd hw with ⟨howner, hport⟩ | h
    · refine ⟨⟨b.outputBlock, (assembly d g).scaffold b.outputBlock, .cell⟩, ?_, howner.symm, ?_⟩
      · simp [his]
      · exact fun _ => Assembly.offers_output hport
    · obtain ⟨i, hi, hname, hblock⟩ := hcell h
      exact ⟨i, hi, hname, fun h => absurd h hblock⟩

/-- Neither the boundary instances of a composite nor the wires at them cause an error that is ruled
out. -/
theorem wire_not_ruledOut (hd : d.Consistent) (hb : d.Suits b) (hg : g.WellFormed)
    (hnames : g.names = d.cellNames)
    (h : (assembly d g).wire ((assembly d g).scaffolded c b) b = .error e) : ¬RuledOut b e := by
  have hfresh {name : String} (hblock : b.isBlock name = true) : name ∉ g.names :=
    hnames ▸ hb.notMem hblock
  have hinput := hfresh (Boundary.isBlock_iff.2 (.inl rfl))
  have houtput : b.outputBlock ∉ (g.push ⟨b.inputBlock, (assembly d g).scaffold b.inputBlock,
      .cell⟩).names := by
    rw [Graph.names_push, List.mem_append, List.mem_singleton, not_or]
    exact ⟨hfresh (Boundary.isBlock_iff.2 (.inr rfl)), hb.ne.symm⟩
  rcases bind_eq_error_iff.1 h with h | ⟨g₁, h₁, h⟩
  · exact Graph.instantiate_not_ruledOut hinput h
  obtain ⟨-, -, rfl⟩ := Graph.instantiate_eq_ok_iff.1 h₁
  rcases bind_eq_error_iff.1 h with h | ⟨g₂, h₂, h⟩
  · exact Graph.instantiate_not_ruledOut houtput h
  obtain ⟨-, -, rfl⟩ := Graph.instantiate_eq_ok_iff.1 h₂
  -- the wires in front of the one that is rejected have been added
  obtain ⟨front, w, back, y, hwires, hy, h⟩ := foldlM_eq_error_iff.1 h
  have hwf := (hg.push (i := ⟨b.inputBlock, _, .cell⟩) hinput).push
    (i := ⟨b.outputBlock, (assembly d g).scaffold b.outputBlock, .cell⟩) houtput
  have hyg := Assembly.foldlM_addWire_wellFormed hwf hy
  have hperm := Assembly.foldlM_addWire_wires_perm hwf hy
  rw [Graph.wires_push, Graph.wires_push] at hperm
  obtain ⟨⟨i, hi, hiname, hsource⟩, j, hj, hjname, hdest⟩ :=
    ends_of_boundaryWires (c := c) hd hb hnames
      (hwires ▸ List.mem_append_right _ List.mem_cons_self)
      ((Assembly.instances_foldlM_addWire hy).trans (List.append_assoc _ _ _))
  rw [Assembly.addWire, ← hiname, ← hjname] at h
  refine Graph.connect_not_ruledOut hyg hi hj
    (fun hblock => List.forall_mem_singleton.2 (hsource hblock))
    (fun hblock => List.forall_mem_singleton.2 (hdest hblock))
    (fun hblock => ⟨List.nodup_singleton _, List.forall_mem_singleton.2 fun v hv hvw => ?_⟩) h
  rcases List.mem_append.1 (hperm.mem_iff.1 hv) with hv | hv
  · have howner : v.dest.owner = b.outputBlock := hvw ▸ hblock
    exact hfresh (Boundary.isBlock_iff.2 (.inr howner)) (hg.dest_mem hv)
  · exact dest_ne_of_boundaryWires hd hb hwires (hjname ▸ hblock) hv (by rw [hvw, hjname])

/-! ### Assembling -/

/-- A composite is not refused for the names of its cells. -/
theorem check_not_ruledOut (hd : d.Consistent) (hnames : g.names = d.cellNames)
    (h : (assembly d g).check c = .error e) : ¬RuledOut b e := by
  unfold Assembly.check at h
  split_ifs at h
  · cases h
    exact nofun
  · split at h
    · rename_i i hi
      have hname : i.name ∈ d.cellNames :=
        hnames ▸ Graph.mem_names.2 ⟨i, List.mem_of_find?_eq_some hi, rfl⟩
      simpa [hd.identifiers _ hname] using List.find?_some hi
    · cases h

theorem add_not_ruledOut {name : String} {m : Module} (h : c.add name m = .error e) :
    ¬RuledOut b e := by
  rcases Catalog.cases_of_add_eq_error h with rfl | ⟨_, rfl⟩ | ⟨_, _, rfl⟩ | ⟨_, rfl⟩ <;>
    exact nofun

/-- Assembling a composite whose description has been checked does not fail with an error that is
ruled out. -/
theorem buildOne_not_ruledOut (hd : d.check = .ok ()) (hb : d.Suits b)
    (h : (buildOne b d).runOn c = (.error e, c')) : ¬RuledOut b e := by
  have hconsistent := Description.check_eq_ok_iff.1 hd
  rw [buildOne, Edit.runOn_bind_eq_error_iff] at h
  obtain h | ⟨g, _, hquery, h⟩ := h
  · exact inside_not_ruledOut hconsistent hb (Edit.runOn_query_eq_error_iff.1 h).1
  · obtain ⟨hg, rfl⟩ := Edit.runOn_query_eq_ok_iff.1 hquery
    have hnames := names_of_inside hg
    rcases Assembly.cases_of_register_eq_error h with h | ⟨_, _, _, h⟩ | h
    · exact check_not_ruledOut hconsistent hnames h
    · exact add_not_ruledOut h
    · exact wire_not_ruledOut hconsistent hb (built_of_inside hg).wellFormed hnames h

/-- No link inside a composite whose description has been checked is without bindings. -/
theorem filled_of_buildOne {u : Unit} (hd : d.check = .ok ())
    (h : (buildOne b d).runOn c = (.ok u, c')) : ∃ g, c'.body? d.name = some g ∧ g.Filled := by
  obtain ⟨B, hB, -, rfl⟩ := buildOne_eq_ok_iff.1 h
  obtain ⟨g, hg, hgives⟩ := hB.gives
  exact ⟨B, by rw [Catalog.body?_put, if_pos rfl]; rfl, hgives.filled (filled_of_inside hd hg)⟩

/-- An order of assembly cannot be found if a module is not known or composites need each other. -/
theorem eq_of_buildOrder_eq_error {l : Library} {name : String}
    (h : l.buildOrder c name = .error e) :
    (∃ m, e = .moduleNotFound m) ∨ ∃ path, e = .cyclicContainment path := by
  by_cases hname : l.Pending c name
  · have houtcome := outcome_buildOrder hname
    rw [h] at houtcome
    cases houtcome with
    | absent => exact .inl ⟨_, rfl⟩
    | cyclic => exact .inr ⟨_, rfl⟩
  · rw [Pending, not_and_not_right] at hname
    unfold buildOrder at h
    split_ifs at h with hknown hlisted
    · cases h
    · cases h
      exact .inl ⟨_, rfl⟩
    · exact absurd (hname (by simpa using hlisted)) hknown

/-- Assembling a composite from a library fails at one of the descriptions in its order. -/
def FailsAt (l : Library) (name : String) (c c' : Catalog) (e : Error) (x : Description) : Prop :=
  ∃ order m d, l.buildOrder c name = .ok order ∧ m ∈ order ∧ l.description? m = some x ∧
    (buildOne l.boundary x).runOn d = (.error e, c')

/-- If assembling a composite from a library fails with an error that is ruled out, it fails at a
description that has not been checked or is not fit for the boundary. -/
theorem exists_failsAt_of_ruledOut {l : Library} {name : String}
    (h : (l.build name).runOn c = (.error e, c')) (he : RuledOut l.boundary e) :
    ∃ x, l.FailsAt name c c' e x ∧ ¬(x.check = .ok () ∧ x.Suits l.boundary) := by
  rw [build_eq, Edit.runOn_bind_eq_error_iff] at h
  obtain h | ⟨order, _, hquery, h⟩ := h
  · rcases eq_of_buildOrder_eq_error (Edit.runOn_query_eq_error_iff.1 h).1 with
      ⟨_, rfl⟩ | ⟨_, rfl⟩ <;> cases he
  · obtain ⟨horder, rfl⟩ := Edit.runOn_query_eq_ok_iff.1 hquery
    rcases Edit.runOn_bind_eq_error_iff.1 h with h | ⟨_, _, -, h⟩
    · obtain ⟨m, hm, d, hone⟩ := Edit.exists_of_runOn_forM_eq_error h
      unfold buildListed at hone
      cases hx : l.description? m with
      | none =>
        rw [hx] at hone
        cases hone
      | some x =>
        rw [hx] at hone
        exact ⟨x, ⟨order, m, d, horder, hm, hx, hone⟩, fun ⟨hcheck, hsuits⟩ =>
          buildOne_not_ruledOut hcheck hsuits hone he⟩
    · cases h

/-- No link inside the composites that are assembled for a given one is without bindings, as far as
their descriptions have been checked. -/
theorem filled_of_build {l : Library} {name : String} {order : List String}
    (h : (l.build name).runOn c = (.ok order, c')) {m : String} (hm : m ∈ order)
    (hdescribed : l.description? m = some d) (hd : d.check = .ok ()) :
    ∃ g, c'.body? d.name = some g ∧ g.Filled := by
  obtain ⟨-, hforM⟩ := build_eq_ok_iff.1 h
  obtain ⟨c₁, c₂, rest, hone, hrest⟩ := Edit.exists_of_runOn_forM_eq_ok hforM hm
  rw [buildListed, hdescribed] at hone
  obtain ⟨g, hg, hfilled⟩ := filled_of_buildOne hd hone
  obtain ⟨M, hM, hbody⟩ := Catalog.body?_eq_some_iff.1 hg
  exact ⟨g, Catalog.body?_eq_some_iff.2 ⟨M, (grows_of_forM hrest).module? _ _ hM, hbody⟩, hfilled⟩

/-- Let a description be read from a text, and let the boundary instances have names of their own in
it. On whatever catalog the composite is assembled, this does not fail with an error that is ruled
out. If assembling any composite from a library does, it fails at another description, which has not
been checked or is not fit for the boundary. And no link inside a composite is without bindings once
it is assembled from a description that has been checked. -/
theorem check_rules_out {text : String} (hd : Description.ofText text = .ok d) (hb : d.Suits b)
    (c : Catalog) :
    (∀ e c', (buildOne b d).runOn c = (.error e, c') → ¬RuledOut b e) ∧
    (∀ (l : Library) name e c', l.boundary = b → (l.build name).runOn c = (.error e, c') →
      RuledOut b e → ∃ x, l.FailsAt name c c' e x ∧ x ≠ d ∧ ¬(x.check = .ok () ∧ x.Suits b)) ∧
    (∀ c', (buildOne b d).runOn c = (.ok (), c') → ∃ g, c'.body? d.name = some g ∧ g.Filled) ∧
    ∀ (l : Library) name order c', (l.build name).runOn c = (.ok order, c') → ∀ m ∈ order, ∀ x,
      l.description? m = some x → x.check = .ok () → ∃ g, c'.body? x.name = some g ∧ g.Filled := by
  have hcheck := check_of_ofText hd
  refine ⟨fun _ _ h => buildOne_not_ruledOut hcheck hb h, fun l name e c' hl h he => ?_,
    fun _ h => filled_of_buildOne hcheck h, fun _ _ _ _ h _ hm _ => filled_of_build h hm⟩
  subst hl
  obtain ⟨x, hx, hfault⟩ := exists_failsAt_of_ruledOut h he
  exact ⟨x, hx, fun hxd => hfault ⟨hxd ▸ hcheck, hxd ▸ hb⟩, hfault⟩

end Library

namespace Library

/-- The composite can be assembled where its leaf is known, and only for want of it elsewhere. -/
theorem check_rules_out_stage : ¬RuledOut .standard (.moduleNotFound "leaf") ∧
    ∃ c g, (buildOne .standard (Sample.describeAround "stage" "x")).runOn Sample.leaves =
      (.ok (), c) ∧ c.body? "stage" = some g ∧ g.Filled := by
  have hread := Sample.ofText_stageText
  have hsuits : (Sample.describeAround "stage" "x").Suits .standard := ⟨by decide, by decide⟩
  have hfails : (buildOne .standard (Sample.describeAround "stage" "x")).runOn .empty =
      (.error (.moduleNotFound "leaf"), .empty) := by decide
  have hbuilt := buildOne_of_checks (c := Sample.leaves) (b := .standard)
    (x := Sample.describeAround "stage" "x") (B := Sample.around "stage" "x")
    (g := ⟨[⟨"x", "leaf", .cell⟩], [], []⟩) (by decide_cbv) (by decide_cbv) (by decide_cbv)
    (by decide_cbv) (by decide_cbv)
  obtain ⟨g, hg, hfilled⟩ := (check_rules_out hread hsuits Sample.leaves).2.2.1 _ hbuilt
  exact ⟨(check_rules_out hread hsuits .empty).1 _ _ hfails, _, g, hbuilt, hg, hfilled⟩

end Library

end Netlist
