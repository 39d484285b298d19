import Netlist.Proofs.Flatten.Bundles
import Netlist.Proofs.Flatten.Terminals

/-!
# What inlining does to a graph

Inlining takes an instance out, puts the cells inside its composite in its place, and adds the
wires between these cells and the wires that come about from those at the instance.

## Main definitions

* `Netlist.Inline.innerCells`: the cells inside a composite under their outer names.
* `Netlist.Inline.innerWires`, `Netlist.Inline.outerWires`: the wires that inlining adds.
* `Netlist.Terminals.ComesFrom`: the port that a source of a wire comes down to.

## Main results

* `Netlist.Graph.inline_eq_ok_iff`: inlining, step by step.
* `Netlist.Graph.exists_inline_eq_error`: inlining fails where a new name is taken.
* `Netlist.Graph.instances_inline`, `Netlist.Graph.mem_wires_inline`,
  `Netlist.Graph.linked_inline`: the instances, wires and links afterwards.
* `Netlist.Graph.inline_wellFormed`, `Netlist.Graph.inline_sound`: inlining keeps a graph well
  formed and sound.
-/

namespace Netlist

theorem Boundary.join_inj {b : Boundary} {name s t : String} :
    b.join name s = b.join name t ↔ s = t :=
  String.append_right_inj _

/-- The port that the source of a wire comes down to when the instance `name` is taken apart: a
port of another instance stays, and an output of `name` gives way to what drives it in the end. -/
def Terminals.ComesFrom (t : Terminals) (g : Graph) (name : String) (inner : Endpoint → Endpoint)
    (e s : Endpoint) : Prop :=
  (e.owner ≠ name ∧ s = e) ∨ (e.owner = name ∧ t.Traced g name inner e.port s)

namespace Inline

variable {c : Catalog} {b : Boundary} {g g' sub : Graph} {name : String}

/-! ### New instances -/

theorem mem_cells {i : Instance} : i ∈ cells sub ↔ i ∈ sub.instances ∧ i.role = .cell := by
  simp only [cells, List.mem_filter, Instance.isCell, decide_eq_true_eq]

theorem isCell_iff {n : String} :
    isCell sub n = true ↔ ∃ i, sub.instance? n = some i ∧ i.role = .cell := by
  simp only [isCell, Option.any_eq_true, Instance.isCell, decide_eq_true_eq]

/-- The cells inside a composite, under the names that they get inside the instance `name`. -/
def innerCells (b : Boundary) (name : String) (sub : Graph) : List Instance :=
  (cells sub).map fun i => ⟨b.join name i.name, i.module, .cell⟩

theorem mem_innerCells {i : Instance} : i ∈ innerCells b name sub ↔
    ∃ j ∈ sub.instances, j.role = .cell ∧ i = ⟨b.join name j.name, j.module, .cell⟩ := by
  simp only [innerCells, List.mem_map, mem_cells, and_assoc, eq_comm (a := i)]

/-- The graph with the cells inside a composite in the stead of its instance, before they are
wired. -/
def opened (b : Boundary) (g : Graph) (name : String) (sub : Graph) : Graph :=
  { g.without name with instances := (g.without name).instances ++ innerCells b name sub }

private theorem foldlM_instantiate_eq_ok_iff {f : Instance → String} {is : List Instance} :
    is.foldlM (fun g i => g.instantiate c (f i) i.module) g = .ok g' ↔
      (∀ i ∈ is, f i ∉ g.names) ∧ (is.map f).Nodup ∧ (∀ i ∈ is, c.contains i.module = true) ∧
        g' = { g with instances := g.instances ++ is.map fun i => ⟨f i, i.module, .cell⟩ } := by
  induction is generalizing g with
  | nil =>
    rw [List.foldlM_nil, List.map_nil, List.map_nil, List.append_nil]
    simp only [List.not_mem_nil, false_implies, implies_true, List.nodup_nil, true_and]
    exact ⟨fun h => (Except.ok.inj h).symm, fun h => h ▸ rfl⟩
  | cons i is ih =>
    rw [List.foldlM_cons, bind_eq_ok_iff]
    simp only [Graph.instantiate_eq_ok_iff, List.forall_mem_cons, List.map_cons, List.nodup_cons]
    constructor
    · rintro ⟨g₁, ⟨hi, hm, rfl⟩, h⟩
      obtain ⟨hnew, hnodup, hreg, rfl⟩ := ih.1 h
      simp only [Graph.names_push, List.mem_append, List.mem_singleton, not_or] at hnew
      refine ⟨⟨hi, fun j hj => (hnew j hj).1⟩, ⟨?_, hnodup⟩, ⟨hm, hreg⟩, ?_⟩
      · intro hmem
        obtain ⟨j, hj, he⟩ := List.mem_map.1 hmem
        exact (hnew j hj).2 he
      · simp only [Graph.push, List.append_assoc, List.singleton_append]
    · rintro ⟨⟨hi, hnew⟩, ⟨hnot, hnodup⟩, ⟨hm, hreg⟩, rfl⟩
      refine ⟨_, ⟨hi, hm, rfl⟩, ih.2 ⟨fun j hj => ?_, hnodup, hreg, ?_⟩⟩
      · rw [Graph.names_push, List.mem_append, List.mem_singleton, not_or]
        exact ⟨hnew j hj, fun he => hnot (List.mem_map.2 ⟨j, hj, he⟩)⟩
      · simp only [Graph.push, List.append_assoc, List.singleton_append]

theorem names_opened : (opened b g name sub).names =
    (g.without name).names ++ (cells sub).map fun i => b.join name i.name := by
  simp only [Graph.names, opened, innerCells, List.map_append, List.map_map]
  rfl

theorem opened_wellFormed (hg : g.WellFormed)
    (hnew : ∀ i ∈ cells sub, b.join name i.name ∉ g.names)
    (hnodup : ((cells sub).map Instance.name).Nodup) : (opened b g name sub).WellFormed where
  nodup_names := by
    rw [names_opened]
    refine (hg.without name).nodup_names.append ?_ ?_
    · have h := hnodup.map (f := b.join name) fun _ _ => Boundary.join_inj.1
      rwa [List.map_map] at h
    · intro n hn hm
      obtain ⟨i, hi, rfl⟩ := List.mem_map.1 hm
      exact hnew i hi (Graph.mem_names_without.1 hn).1
  ends_mem s d h := by
    rw [names_opened]
    obtain ⟨hs, hd⟩ := (hg.without name).ends_mem s d h
    exact ⟨List.mem_append_left _ hs, List.mem_append_left _ hd⟩
  oneLink := (hg.without name).oneLink
  nodup_dests := (hg.without name).nodup_dests

theorem instance?_opened_of_ne {n : String} {i : Instance} (h : g.instance? n = some i)
    (hn : n ≠ name) : (opened b g name sub).instance? n = some i := by
  have hw : (g.without name).instance? n = some i := by
    rw [← h, Graph.instance?, Graph.without, List.find?_filter, Graph.instance?]
    congr 1
    funext j
    by_cases hj : j.name = n
    · simp [hj, hn]
    · simp [hj]
  unfold Graph.instance? at hw ⊢
  rw [opened, List.find?_append, hw]
  rfl

theorem opened_sound (hs : g.Sound c) (hreg : ∀ i ∈ cells sub, c.contains i.module = true) :
    (opened b g name sub).Sound c := by
  refine ⟨fun i hi => ?_, fun w hw => ?_⟩
  · rcases List.mem_append.1 hi with hi | hi
    · exact hs.registered i (List.mem_of_mem_filter hi)
    · obtain ⟨j, hj, rfl⟩ := List.mem_map.1 hi
      exact hreg j hj
  · obtain ⟨hw, hsn, hdn⟩ := Graph.mem_wires_without.1 hw
    obtain ⟨i, j, hi, hj, hfit⟩ := hs.fits w hw
    exact ⟨i, j, instance?_opened_of_ne hi hsn, instance?_opened_of_ne hj hdn, hfit⟩

/-! ### Wires between new instances -/

/-- A wire inside a composite, under outer names. -/
def innerWire (b : Boundary) (name : String) (w : Wire) : Wire :=
  ⟨inner b name w.source, inner b name w.dest⟩

/-- The wires between cells inside a composite, under outer names. -/
def innerWires (b : Boundary) (name : String) (sub : Graph) : List Wire :=
  (sub.wires.filter fun w => isCell sub w.source.owner && isCell sub w.dest.owner).map
    (innerWire b name)

private theorem flatMap_wires_filter (ks : List Link) (p : Link → Bool) (q : Wire → Bool)
    (h : ∀ k : Link, ∀ w ∈ k.wires, q w = p k) :
    ((ks.filter p).flatMap fun l => l.wires) = (ks.flatMap fun l => l.wires).filter q := by
  induction ks with
  | nil => rfl
  | cons k ks ih =>
    rw [List.flatMap_cons, List.filter_append, ← ih]
    by_cases hp : p k = true
    · rw [List.filter_cons_of_pos hp, List.flatMap_cons,
        List.filter_eq_self.2 fun w hw => (h k w hw).trans hp]
    · rw [List.filter_cons_of_neg hp,
        List.filter_eq_nil_iff.2 fun w hw hq => hp ((h k w hw).symm.trans hq), List.nil_append]

theorem innerBundles_wires (b : Boundary) (name : String) (sub : Graph) :
    (innerBundles b name sub).flatMap Bundle.wires = innerWires b name sub := by
  have hcells : ∀ k : Link, ∀ w ∈ k.wires, (isCell sub w.source.owner && isCell sub w.dest.owner) =
      (isCell sub k.source && isCell sub k.dest) := by
    intro k w hw
    obtain ⟨hs, hd, -⟩ := Bundle.mem_wires.1 hw
    rw [hs, hd]
  rw [innerWires, Graph.wires, ← flatMap_wires_filter _ _ _ hcells, List.map_flatMap,
    innerBundles, List.flatMap_map]
  refine congrArg (List.flatMap · _) (funext fun k => ?_)
  rw [Bundle.wires, Bundle.wires, List.map_map]
  rfl

theorem mem_innerWires {w : Wire} : w ∈ innerWires b name sub ↔ ∃ v ∈ sub.wires,
    isCell sub v.source.owner = true ∧ isCell sub v.dest.owner = true ∧
      w = innerWire b name v := by
  simp only [innerWires, List.mem_map, List.mem_filter, Bool.and_eq_true, and_assoc,
    eq_comm (a := w)]

theorem linked_innerBundles {s d : String} :
    (∃ l ∈ innerBundles b name sub, l.source = s ∧ l.dest = d) ↔ ∃ s' d', sub.Linked s' d' ∧
      isCell sub s' = true ∧ isCell sub d' = true ∧ s = b.join name s' ∧ d = b.join name d' := by
  simp only [innerBundles, List.mem_map, List.mem_filter, Graph.mem_connections, Bool.and_eq_true]
  constructor
  · rintro ⟨_, ⟨l, ⟨hl, hs, hd⟩, rfl⟩, rfl, rfl⟩
    exact ⟨l.source, l.dest, ⟨l, hl, rfl, rfl⟩, hs, hd, rfl, rfl⟩
  · rintro ⟨_, _, ⟨l, hl, rfl, rfl⟩, hs, hd, rfl, rfl⟩
    exact ⟨_, ⟨l, ⟨hl, hs, hd⟩, rfl⟩, rfl, rfl⟩

/-! ### Wires across the boundary -/

theorem touching_eq (g : Graph) (name : String) :
    touching g name = (g.wires.filter fun w => w.dest.owner = name) ++
      g.wires.filter fun w => w.source.owner = name ∧ w.dest.owner ≠ name := by
  have hdest : ∀ k : Link, ∀ w ∈ k.wires,
      decide (w.dest.owner = name) = decide (k.dest = name) := by
    intro k w hw
    rw [(Bundle.mem_wires.1 hw).2.1]
  have hsource : ∀ k : Link, ∀ w ∈ k.wires, decide (w.source.owner = name ∧ w.dest.owner ≠ name) =
      (decide (k.dest ≠ name) && decide (k.source = name)) := by
    intro k w hw
    obtain ⟨hs, hd, -⟩ := Bundle.mem_wires.1 hw
    rw [hs, hd, Bool.decide_and, Bool.and_comm]
  rw [touching, List.flatMap_append, Graph.incoming, Graph.outgoing, List.filter_filter]
  exact congrArg₂ _ (flatMap_wires_filter _ _ _ hdest) (flatMap_wires_filter _ _ _ hsource)

theorem mem_touching {w : Wire} :
    w ∈ touching g name ↔ w ∈ g.wires ∧ (w.source.owner = name ∨ w.dest.owner = name) := by
  simp only [touching_eq, List.mem_append, List.mem_filter, decide_eq_true_eq]
  tauto

theorem nodup_dests_touching (hg : g.WellFormed) : ((touching g name).map Wire.dest).Nodup := by
  rw [touching_eq, List.map_append]
  refine List.Nodup.append (hg.nodup_dests.sublist (List.filter_sublist.map _))
    (hg.nodup_dests.sublist (List.filter_sublist.map _)) ?_
  intro e he he'
  obtain ⟨w, hw, rfl⟩ := List.mem_map.1 he
  obtain ⟨v, hv, hwv⟩ := List.mem_map.1 he'
  simp only [List.mem_filter, decide_eq_true_eq] at hw hv
  exact hv.2.2 (hwv ▸ hw.2)

/-- The wires that come about from those at the instance. -/
def outerWires (b : Boundary) (g : Graph) (name : String) (sub : Graph) : List Wire :=
  (touching g name).flatMap (reroute b g name (.ofGraph sub))

theorem mem_reroute {t : Terminals} {w x : Wire} : x ∈ reroute b g name t w ↔
    t.ComesFrom g name (inner b name) w.source x.source ∧
      ((w.dest.owner = name ∧ ∃ e ∈ t.sinksOf w.dest.port, x.dest = inner b name e) ∨
        (w.dest.owner ≠ name ∧ x.dest = w.dest)) := by
  have hsource (s : Endpoint) : (if w.source.owner = name then
      t.source? g name (inner b name) [] w.source.port else some w.source) = some s ↔
        t.ComesFrom g name (inner b name) w.source s := by
    unfold Terminals.ComesFrom
    split_ifs with h
    · simp [h, Terminals.source?_eq_some_iff]
    · simp [h, eq_comm]
  have hdest (d : Endpoint) : d ∈ (if w.dest.owner = name then
      (t.sinksOf w.dest.port).map (inner b name) else [w.dest]) ↔
        (w.dest.owner = name ∧ ∃ e ∈ t.sinksOf w.dest.port, d = inner b name e) ∨
          (w.dest.owner ≠ name ∧ d = w.dest) := by
    split_ifs with h
    · simp [h, eq_comm]
    · simp [h]
  rw [← hsource, ← hdest]
  unfold reroute
  obtain ⟨s, d⟩ := x
  cases hs : (if w.source.owner = name then t.source? g name (inner b name) [] w.source.port
    else some w.source) with
  | none => simp only [List.not_mem_nil, reduceCtorEq, false_and]
  | some s' =>
    simp only [List.mem_map, Wire.mk.injEq, Option.some.injEq]
    constructor
    · rintro ⟨d', hd', rfl, rfl⟩
      exact ⟨rfl, hd'⟩
    · rintro ⟨rfl, hd⟩
      exact ⟨d, hd, rfl, rfl⟩

theorem mem_outerWires {x : Wire} : x ∈ outerWires b g name sub ↔
    ∃ w ∈ g.wires, (w.source.owner = name ∨ w.dest.owner = name) ∧
      (Terminals.ofGraph sub).ComesFrom g name (inner b name) w.source x.source ∧
      ((w.dest.owner = name ∧
          ∃ e ∈ (Terminals.ofGraph sub).sinksOf w.dest.port, x.dest = inner b name e) ∨
        (w.dest.owner ≠ name ∧ x.dest = w.dest)) := by
  simp only [outerWires, List.mem_flatMap, mem_touching, mem_reroute, and_assoc]

end Inline

/-! ### Inlining -/

namespace Graph

open Inline

variable {c : Catalog} {b : Boundary} {g g' sub : Graph} {name : String}

private theorem checkNames_eq_ok_iff : checkNames b g name sub = .ok () ↔
    ∀ i ∈ cells sub, b.join name i.name ∉ g.names := by
  rw [checkNames, forM_eq_ok_iff]
  refine forall₂_congr fun i _ => ?_
  rw [ite_error_eq_ok_iff, contains_iff]
  exact and_iff_left rfl

/-- Where a name that inlining creates is taken, inlining fails with such a name. -/
theorem exists_inline_eq_error {i : Instance} (hi : i ∈ cells sub)
    (htaken : b.join name i.name ∈ g.names) : ∃ j ∈ cells sub, b.join name j.name ∈ g.names ∧
      g.inline c b name sub = .error (.nameCollision (b.join name j.name) name) := by
  have hfails : checkNames b g name sub ≠ .ok () := fun h => checkNames_eq_ok_iff.1 h i hi htaken
  obtain ⟨j, hj, e, he, hall⟩ := exists_forM_eq_error hfails
  split_ifs at he with hc
  cases he
  refine ⟨j, hj, contains_iff.1 hc, ?_⟩
  rw [inline, checkNames, hall]
  rfl

private theorem remove_eq_ok_iff {r : Instance × Graph} : g.remove name = .ok r ↔
    g.instance? name = some r.1 ∧ r.2 = g.without name := by
  unfold remove
  obtain ⟨i, h⟩ := r
  cases g.instance? name <;> simp [eq_comm]

/-- Inlining, step by step: the instance is there, the new names are free and distinct, the modules
of the new cells are registered, and the wires between the new cells and across the boundary can
be added. -/
theorem inline_eq_ok_iff : g.inline c b name sub = .ok g' ↔
    name ∈ g.names ∧ (∀ i ∈ cells sub, b.join name i.name ∉ g.names) ∧
      ((cells sub).map Instance.name).Nodup ∧ (∀ i ∈ cells sub, c.contains i.module = true) ∧
      ∃ g₁, connectAll c (opened b g name sub) (innerBundles b name sub) = .ok g₁ ∧
        connectAll c g₁ (rewired b g name (.ofGraph sub)) = .ok g' := by
  have hnodup : ((cells sub).map fun i => b.join name i.name).Nodup ↔
      ((cells sub).map Instance.name).Nodup := by
    rw [← List.nodup_map_iff (f := b.join name) (l := (cells sub).map Instance.name)
      fun _ _ => Boundary.join_inj.1, List.map_map]
    rfl
  unfold inline
  simp only [bind_eq_ok_iff, foldlM_instantiate_eq_ok_iff, hnodup]
  constructor
  · rintro ⟨⟨⟩, hnew, ⟨i, _⟩, hr, _, ⟨-, hnd, hreg, rfl⟩, g₁, h₁, h⟩
    obtain ⟨hi, rfl⟩ := remove_eq_ok_iff.1 hr
    exact ⟨mem_names_of_instance? hi, checkNames_eq_ok_iff.1 hnew, hnd, hreg, g₁, h₁, h⟩
  · rintro ⟨hname, hnew, hnd, hreg, g₁, h₁, h⟩
    obtain ⟨i, hi⟩ := exists_instance? hname
    refine ⟨⟨⟩, checkNames_eq_ok_iff.2 hnew, (i, g.without name), remove_eq_ok_iff.2 ⟨hi, rfl⟩, _,
      ⟨?_, hnd, hreg, rfl⟩, g₁, h₁, h⟩
    exact fun i hi hm => hnew i hi (mem_names_without.1 hm).1

theorem instances_inline (h : g.inline c b name sub = .ok g') :
    g'.instances = (g.without name).instances ++ innerCells b name sub := by
  obtain ⟨-, -, -, -, g₁, h₁, h⟩ := inline_eq_ok_iff.1 h
  rw [instances_connectAll h, instances_connectAll h₁]
  rfl

/-- Inlining leaves the wires that do not touch the instance and adds those inside the composite
and across its boundary. -/
theorem wires_inline_perm (hg : g.WellFormed) (h : g.inline c b name sub = .ok g') :
    g'.wires.Perm ((g.without name).wires ++ innerWires b name sub ++
      outerWires b g name sub) := by
  obtain ⟨-, hnew, hnodup, -, g₁, h₁, h⟩ := inline_eq_ok_iff.1 h
  have hopen := opened_wellFormed hg hnew hnodup
  have hinner := connectAll_wires_perm hopen h₁
  rw [innerBundles_wires] at hinner
  have houter := connectAll_wires_perm (connectAll_wellFormed hopen h₁) h
  exact houter.trans (hinner.append (bundle_wires_perm _))

theorem mem_wires_inline (hg : g.WellFormed) (h : g.inline c b name sub = .ok g') {w : Wire} :
    w ∈ g'.wires ↔ (w ∈ g.wires ∧ w.source.owner ≠ name ∧ w.dest.owner ≠ name) ∨
      w ∈ innerWires b name sub ∨ w ∈ outerWires b g name sub := by
  rw [(wires_inline_perm hg h).mem_iff, List.mem_append, List.mem_append, mem_wires_without,
    or_assoc]

theorem linked_inline (h : g.inline c b name sub = .ok g') {s d : String} :
    g'.Linked s d ↔ (g.Linked s d ∧ s ≠ name ∧ d ≠ name) ∨
      (∃ s' d', sub.Linked s' d' ∧ isCell sub s' = true ∧ isCell sub d' = true ∧
        s = b.join name s' ∧ d = b.join name d') ∨
      ∃ w ∈ outerWires b g name sub, w.source.owner = s ∧ w.dest.owner = d := by
  obtain ⟨-, -, -, -, g₁, h₁, h⟩ := inline_eq_ok_iff.1 h
  rw [linked_connectAll h, linked_connectAll h₁, linked_innerBundles, rewired,
    exists_mem_bundle_iff, ← linked_without, or_assoc]
  rfl

theorem inline_wellFormed (hg : g.WellFormed) (h : g.inline c b name sub = .ok g') :
    g'.WellFormed := by
  obtain ⟨-, hnew, hnodup, -, g₁, h₁, h⟩ := inline_eq_ok_iff.1 h
  exact connectAll_wellFormed (connectAll_wellFormed (opened_wellFormed hg hnew hnodup) h₁) h

theorem inline_filled (hg : g.Filled) (hsub : sub.Filled)
    (h : g.inline c b name sub = .ok g') : g'.Filled := by
  obtain ⟨-, -, -, -, g₁, h₁, h⟩ := inline_eq_ok_iff.1 h
  have hinner : ∀ l ∈ innerBundles b name sub, l.bindings ≠ [] :=
    List.forall_mem_map.2 fun l hl => hsub l (mem_connections.1 (List.mem_filter.1 hl).1)
  have hopen : (opened b g name sub).Filled := hg.without name
  exact connectAll_filled (connectAll_filled hopen hinner h₁)
    (fun l hl => bindings_ne_nil_of_mem_bundle hl) h

theorem inline_sound (hg : g.WellFormed) (hs : g.Sound c) (h : g.inline c b name sub = .ok g') :
    g'.Sound c := by
  obtain ⟨-, hnew, hnodup, hreg, g₁, h₁, h⟩ := inline_eq_ok_iff.1 h
  have hopen := opened_wellFormed hg hnew hnodup
  exact connectAll_sound (connectAll_wellFormed hopen h₁)
    (connectAll_sound hopen (opened_sound hs hreg) h₁) h

/-- Inlining a cell leaves the instances that are no cells. -/
theorem frame_inline (h : g.inline c b name sub = .ok g')
    (hname : ∀ i ∈ g.instances, i.name = name → i.role = .cell) : g'.frame = g.frame := by
  have hcells : (innerCells b name sub).filter (fun i => !i.isCell) = [] := by
    rw [List.filter_eq_nil_iff]
    intro i hi
    obtain ⟨j, -, -, rfl⟩ := mem_innerCells.1 hi
    exact Bool.noConfusion
  rw [frame, instances_inline h, List.filter_append, hcells, List.append_nil, without,
    List.filter_filter, frame]
  refine List.filter_congr fun i hi => ?_
  by_cases hn : i.name = name
  · simp [Instance.isCell, hname i hi hn]
  · simp [hn]

end Graph

end Netlist
