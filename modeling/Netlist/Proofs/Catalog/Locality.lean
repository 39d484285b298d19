import Netlist.Library.Basic
import Netlist.Proofs.Assembly

/-!
# What wiring and assembling look at

Instances are added and connected by what a catalog knows of the modules that they are bound to, and
by its types. It does not matter which other modules there are. A composite is assembled in the same
way in two catalogs that agree on the modules of its cells.

## Main definitions

* `Netlist.Catalog.AgreeOn`: two catalogs have the same types and agree on some modules.
* `Netlist.Graph.BoundTo`: the instances of a graph are bound to some modules.

## Main results

* `Netlist.Graph.instantiate_congr`, `Netlist.Graph.connect_congr`: checked changes.
* `Netlist.Library.inside_congr`: the inside of a described composite.
* `Netlist.Assembly.Gives.of_agreeOn`: the inside that an assembly is registered with.
-/

namespace Netlist

variable {p : String → Prop} {c d : Catalog} {g g' : Graph}

/-- Two catalogs have the same types, and agree on some modules: they know the same of them. -/
structure Catalog.AgreeOn (p : String → Prop) (c d : Catalog) : Prop where
  types : c.types = d.types
  module? : ∀ n, p n → c.module? n = d.module? n

/-- The instances of a graph are bound to some modules. -/
def Graph.BoundTo (p : String → Prop) (g : Graph) : Prop :=
  ∀ i ∈ g.instances, p i.module

theorem Catalog.AgreeOn.contains (h : c.AgreeOn p d) {n : String} (hn : p n) :
    c.contains n = d.contains n :=
  congrArg Option.isSome (h.module? n hn)

namespace Graph

/-! ### Checked changes -/

theorem portType_eq_of_agreeOn (h : c.AgreeOn p d) {i : Instance} (hi : p i.module) :
    portType c i = portType d i := by
  funext port used
  rw [portType, portType, h.module? _ hi]

theorem checkBinding_congr (h : c.AgreeOn p d) {i j : Instance} (hi : p i.module)
    (hj : p j.module) : checkBinding c i j = checkBinding d i j := by
  funext b
  rw [checkBinding, checkBinding, portType_eq_of_agreeOn h hi, portType_eq_of_agreeOn h hj, h.types]

theorem checkBindings_congr (h : c.AgreeOn p d) {i j : Instance} (hi : p i.module)
    (hj : p j.module) (seen bs : List Binding) :
    checkBindings c g i j seen bs = checkBindings d g i j seen bs := by
  induction bs generalizing seen with
  | nil => rfl
  | cons b bs ih => simp only [checkBindings, checkBinding_congr h hi hj, ih]

/-- Two instances are connected by what is known of their modules. -/
theorem connect_congr (h : c.AgreeOn p d) (hg : g.BoundTo p) (s t : String) (bs : List Binding) :
    g.connect c s t bs = g.connect d s t bs := by
  have hfound {n : String} {i : Instance} (hi : g.find n = .ok i) : p i.module :=
    hg i (instance?_eq_some (find_eq_ok_iff.1 hi)).1
  refine bind_congr_of_ok fun i hi => bind_congr_of_ok fun j hj => ?_
  rw [checkBindings_congr h (hfound hi) (hfound hj)]

theorem instantiate_congr (h : c.AgreeOn p d) {module : String} (hm : p module) (name : String) :
    g.instantiate c name module = g.instantiate d name module := by
  rw [instantiate, instantiate, h.contains hm]

theorem BoundTo.instantiate (hg : g.BoundTo p) {name module : String} (hm : p module)
    (h : g.instantiate c name module = .ok g') : g'.BoundTo p := by
  obtain ⟨-, -, rfl⟩ := instantiate_eq_ok_iff.1 h
  exact List.forall_mem_append.2 ⟨hg, List.forall_mem_singleton.2 hm⟩

theorem BoundTo.connect (hg : g.BoundTo p) {s t : String} {bs : List Binding}
    (h : g.connect c s t bs = .ok g') : g'.BoundTo p := by
  obtain ⟨_, _, _, _, _, _, _, rfl⟩ := connect_eq_ok_iff.1 h
  exact fun i hi => hg i (instances_bind g s t bs ▸ hi)

end Graph

/-! ### Described composites -/

namespace Library

variable {x : Description}

theorem mem_dependencies {m : String} :
    m ∈ x.dependencies ↔ ∃ i ∈ x.cells, i.module = m := by
  rw [Description.dependencies, Description.mem_distinct, List.mem_map]
  exact and_iff_left List.not_mem_nil

theorem foldlM_instantiate {is : List Description.Cell}
    (h : is.foldlM (fun g i => g.instantiate c i.name i.module) g = .ok g') :
    g'.instances = g.instances ++ is.map (fun i => ⟨i.name, i.module, .cell⟩) ∧
      ∀ i ∈ is, c.contains i.module = true := by
  induction is generalizing g with
  | nil =>
    cases h
    exact ⟨(List.append_nil _).symm, fun _ hi => nomatch hi⟩
  | cons i is ih =>
    rw [List.foldlM_cons, bind_eq_ok_iff] at h
    obtain ⟨g₁, h₁, h⟩ := h
    obtain ⟨-, hi, rfl⟩ := Graph.instantiate_eq_ok_iff.1 h₁
    obtain ⟨hinstances, his⟩ := ih h
    refine ⟨hinstances.trans ?_, List.forall_mem_cons.2 ⟨hi, his⟩⟩
    rw [Graph.push, List.map_cons, List.append_assoc, List.singleton_append]

/-- The instances inside a described composite are its cells, and their modules are registered. -/
theorem instances_of_inside (h : inside c x = .ok g) :
    g.instances = x.cells.map (fun i => ⟨i.name, i.module, .cell⟩) ∧
      ∀ m ∈ x.dependencies, c.contains m = true := by
  obtain ⟨g₁, hcells, hconnections⟩ := bind_eq_ok_iff.1 h
  obtain ⟨hinstances, hcontains⟩ := foldlM_instantiate hcells
  refine ⟨?_, fun m hm => ?_⟩
  · refine foldlM_keeps (I := fun g => g.instances = _) (fun _ _ _ _ hg hy => ?_) hinstances
      hconnections
    obtain ⟨_, _, _, _, _, _, _, rfl⟩ := Graph.connect_eq_ok_iff.1 hy
    exact (Graph.instances_bind _ _ _ _).trans hg
  · obtain ⟨i, hi, rfl⟩ := mem_dependencies.1 hm
    exact hcontains i hi

theorem boundTo_of_inside (hp : ∀ m ∈ x.dependencies, p m) (h : inside c x = .ok g) :
    g.BoundTo p := by
  intro i hi
  rw [(instances_of_inside h).1] at hi
  obtain ⟨k, hk, rfl⟩ := List.mem_map.1 hi
  exact hp _ (mem_dependencies.2 ⟨k, hk, rfl⟩)

/-- The inside of a described composite is put together by what is known of the modules in it. -/
theorem inside_congr (h : c.AgreeOn p d) (hp : ∀ m ∈ x.dependencies, p m) :
    inside c x = inside d x := by
  have hcell {i : Description.Cell} (hi : i ∈ x.cells) : p i.module :=
    hp _ (mem_dependencies.2 ⟨i, hi, rfl⟩)
  have hempty : Graph.empty.BoundTo p := fun _ hi => (List.not_mem_nil hi).elim
  have hkeep : ∀ i ∈ x.cells, ∀ g g' : Graph, g.BoundTo p →
      g.instantiate c i.name i.module = .ok g' → g'.BoundTo p :=
    fun i hi _ _ hg hy => hg.instantiate (hcell hi) hy
  unfold inside
  rw [← foldlM_congr_of_keeps hkeep
    (fun i hi _ _ => Graph.instantiate_congr h (hcell hi) i.name) hempty]
  refine bind_congr_of_ok fun g hg => ?_
  exact foldlM_congr_of_keeps (fun _ _ _ _ hg hy => hg.connect hy)
    (fun l _ _ hg => Graph.connect_congr h hg _ _ _) (foldlM_keeps hkeep hempty hg)

end Library

/-! ### Assemblies -/

namespace Assembly

variable {b : Boundary} {a : Assembly} {B : Graph}

theorem wire_congr (h : c.AgreeOn p d) (hin : a.inside.BoundTo p)
    (hinput : p (a.scaffold b.inputBlock)) (houtput : p (a.scaffold b.outputBlock)) :
    a.wire c b = a.wire d b := by
  unfold wire
  rw [← Graph.instantiate_congr h hinput]
  refine bind_congr_of_ok fun g₁ h₁ => ?_
  have hg₁ := hin.instantiate hinput h₁
  rw [← Graph.instantiate_congr h houtput]
  refine bind_congr_of_ok fun g₂ h₂ => ?_
  exact foldlM_congr_of_keeps (fun _ _ _ _ hg hy => hg.connect hy)
    (fun w _ _ hg => Graph.connect_congr h hg _ _ _) (hg₁.instantiate houtput h₂)

/-- Where two catalogs agree on some modules, they agree besides on those that exist while a
composite is wired. -/
theorem agreeOn_scaffolded (h : c.AgreeOn p d) (b : Boundary) (a : Assembly) :
    (scaffolded c b a).AgreeOn
      (fun n => p n ∨ n = a.scaffold b.inputBlock ∨ n = a.scaffold b.outputBlock)
      (scaffolded d b a) where
  types := h.types
  module? n hn := by
    simp only [scaffolded, Catalog.module?_put]
    split_ifs with hout hin
    · rfl
    · rfl
    · exact h.module? n (hn.resolve_right (by simp [hin, hout]))

/-- An assembly is registered with the same inside in another catalog that agrees on the modules of
its cells, if its names are new there. -/
theorem Gives.of_agreeOn (hgives : Gives c b a B) (h : c.AgreeOn p d) (hin : a.inside.BoundTo p)
    (hname : ¬d.contains a.name = true) (hinput : ¬d.contains (a.scaffold b.inputBlock) = true)
    (houtput : ¬d.contains (a.scaffold b.outputBlock) = true) : Gives d b a B where
  check := by
    have hcheck := hgives.check
    unfold Assembly.check at hcheck ⊢
    split_ifs at hcheck
    rw [if_neg hname]
    exact hcheck
  input_new := hinput
  output_new := houtput
  ne := hgives.ne
  wired := by
    rw [← wire_congr (agreeOn_scaffolded h b a) (fun i hi => .inl (hin i hi)) (.inr (.inl rfl))
      (.inr (.inr rfl))]
    exact hgives.wired

end Assembly

end Netlist
