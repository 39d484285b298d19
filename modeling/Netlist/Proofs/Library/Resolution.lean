import Netlist.Proofs.Library.Acyclic
import Netlist.Proofs.Library.Loading

/-!
# Modules that are found

Assembling a composite fails for want of a module only if a module that it instantiates is missing.
The modules that its boundary instances are bound to for a while are there as long as they are asked
for.

## Main definitions

* `Netlist.Resolves`: something does not fail for want of a module.

## Main results

* `Netlist.Graph.connect_resolves`: ports of instances whose modules are registered are looked up.
* `Netlist.Assembly.not_refused`: an assembly is refused for other reasons.
* `Netlist.Library.buildOne_resolves`: so is a composite if what it instantiates is registered.
-/

namespace Netlist

universe u

variable {c d : Catalog} {g : Graph}

/-- Something does not fail for want of a module. -/
def Resolves {α : Type u} (x : Except Error α) : Prop :=
  ∀ m, x ≠ .error (.moduleNotFound m)

namespace Resolves

variable {α β : Type u}

theorem ok (a : α) : Resolves (.ok a : Except Error α) :=
  fun _ h => nomatch h

/-- Two steps find their modules if each of them does. -/
theorem bind {x : Except Error α} {f : α → Except Error β} (hx : Resolves x)
    (hf : ∀ a, x = .ok a → Resolves (f a)) : Resolves (x >>= f) := by
  intro m h
  rcases bind_eq_error_iff.1 h with h | ⟨a, ha, h⟩
  · exact hx m h
  · exact hf a ha m h

/-- The steps of a fold find their modules where a property holds which these steps keep. -/
theorem foldlM {γ : Type*} {I : α → Prop} {f : α → γ → Except Error α} {as : List γ} {x : α}
    (hkeep : ∀ a ∈ as, ∀ x y, I x → f x a = .ok y → I y)
    (hf : ∀ a ∈ as, ∀ x, I x → Resolves (f x a)) (hx : I x) : Resolves (as.foldlM f x) := by
  induction as generalizing x with
  | nil => exact ok x
  | cons a as ih =>
    obtain ⟨hka, hkeep⟩ := List.forall_mem_cons.1 hkeep
    obtain ⟨hfa, hf⟩ := List.forall_mem_cons.1 hf
    rw [List.foldlM_cons]
    exact (hfa x hx).bind fun y hy => ih hkeep hf (hka x y hx hy)

end Resolves

/-! ### Changes of a graph -/

namespace Graph

theorem find_resolves (g : Graph) (name : String) : Resolves (g.find name) := by
  intro m h
  unfold find at h
  split at h <;> cases h

theorem portType_resolves {i : Instance} (hi : c.contains i.module = true) (port : String)
    (used : Direction) : Resolves (portType c i port used) := by
  intro m h
  obtain ⟨M, hM⟩ := Catalog.contains_iff_module?.1 hi
  unfold portType at h
  rw [hM] at h
  dsimp only at h
  split at h <;> cases h

theorem checkBinding_resolves {i j : Instance} (hi : c.contains i.module = true)
    (hj : c.contains j.module = true) (b : Binding) : Resolves (checkBinding c i j b) := by
  refine (portType_resolves hi _ _).bind fun s _ => (portType_resolves hj _ _).bind fun t _ => ?_
  intro m h
  split_ifs at h
  cases h

theorem checkBindings_resolves {i j : Instance} (hi : c.contains i.module = true)
    (hj : c.contains j.module = true) (seen bs : List Binding) :
    Resolves (checkBindings c g i j seen bs) := by
  induction bs generalizing seen with
  | nil => exact .ok _
  | cons b bs ih =>
    refine (checkBinding_resolves hi hj b).bind fun _ _ => ?_
    split
    · exact fun _ h => nomatch h
    · split
      · exact fun _ h => nomatch h
      · exact ih _

/-- Instances of registered modules are connected or not, but their ports are looked up. -/
theorem connect_resolves (hg : g.BoundTo fun m => c.contains m = true) (s t : String)
    (bs : List Binding) : Resolves (g.connect c s t bs) := by
  have hfound {n : String} {i : Instance} (hi : g.find n = .ok i) : c.contains i.module = true :=
    hg i (instance?_eq_some (find_eq_ok_iff.1 hi)).1
  refine (find_resolves g s).bind fun i hi => (find_resolves g t).bind fun j hj => ?_
  exact (checkBindings_resolves (hfound hi) (hfound hj) [] bs).bind fun _ _ => .ok _

theorem instantiate_resolves {module : String} (hm : c.contains module = true) (name : String) :
    Resolves (g.instantiate c name module) := by
  intro m h
  unfold instantiate at h
  rw [if_pos hm] at h
  split_ifs at h
  cases h

theorem relabel_resolves (g : Graph) (name module : String) (role : Role) :
    Resolves (g.relabel name module role) := by
  intro m h
  unfold relabel at h
  split_ifs at h
  cases h

end Graph

/-! ### Changes of a catalog -/

namespace Catalog

theorem add_resolves (c : Catalog) (name : String) (m : Module) : Resolves (c.add name m) := by
  intro n h
  rcases cases_of_add_eq_error h with he | ⟨_, he⟩ | ⟨_, _, he⟩ | ⟨_, he⟩ <;> cases he

end Catalog

/-! ### Assembling -/

namespace Assembly

variable {b : Boundary} {a : Assembly}

theorem contains_scaffolded {n : String} (h : c.contains n = true ∨ n = a.scaffold b.inputBlock ∨
    n = a.scaffold b.outputBlock) : (scaffolded c b a).contains n = true := by
  rw [scaffolded, Catalog.contains_put, Catalog.contains_put]
  tauto

theorem wire_resolves (hin : a.inside.BoundTo fun m => c.contains m = true) :
    Resolves (a.wire (scaffolded c b a) b) := by
  have hinput := contains_scaffolded (c := c) (b := b) (a := a) (.inr (.inl rfl))
  have houtput := contains_scaffolded (c := c) (b := b) (a := a) (.inr (.inr rfl))
  have hin : a.inside.BoundTo fun m => (scaffolded c b a).contains m = true :=
    fun i hi => contains_scaffolded (.inl (hin i hi))
  refine (Graph.instantiate_resolves hinput _).bind fun g₁ h₁ => ?_
  refine (Graph.instantiate_resolves houtput _).bind fun g₂ h₂ => ?_
  exact Resolves.foldlM (fun _ _ _ _ hg hy => hg.connect hy)
    (fun w _ _ hg => Graph.connect_resolves hg _ _ _)
    ((hin.instantiate hinput h₁).instantiate houtput h₂)

/-- An assembly of instances whose modules are registered is not refused for want of a module. -/
theorem not_refused (hin : a.inside.BoundTo fun m => c.contains m = true) (m : String) :
    ¬Refused c b a (.moduleNotFound m) := by
  rintro (h | h | h | h | ⟨W, h⟩ | ⟨B, h⟩)
  · unfold check at h
    split_ifs at h
    · cases h
    · split at h <;> cases h
  · exact Catalog.add_resolves _ _ _ m h
  · exact Catalog.add_resolves _ _ _ m h
  · exact wire_resolves hin m h
  · exact (Graph.relabel_resolves _ _ _ _).bind (fun _ _ => Graph.relabel_resolves _ _ _ _) m h
  · exact Catalog.add_resolves _ _ _ m h

end Assembly

namespace Library

open Catalog (Edit)

variable {l : Library} {x : Description} {b : Boundary}

theorem inside_resolves (h : ∀ m ∈ x.dependencies, c.contains m = true) :
    Resolves (inside c x) := by
  have hcell {i : Description.Cell} (hi : i ∈ x.cells) : c.contains i.module = true :=
    h _ (mem_dependencies.2 ⟨i, hi, rfl⟩)
  have hempty : Graph.empty.BoundTo fun m => c.contains m = true :=
    fun _ hi => (List.not_mem_nil hi).elim
  have hkeep : ∀ i ∈ x.cells, ∀ g g' : Graph, g.BoundTo (fun m => c.contains m = true) →
      g.instantiate c i.name i.module = .ok g' → g'.BoundTo fun m => c.contains m = true :=
    fun i hi _ _ hg hy => hg.instantiate (hcell hi) hy
  refine (Resolves.foldlM hkeep
    (fun i hi _ _ => Graph.instantiate_resolves (hcell hi) i.name) hempty).bind fun g hg => ?_
  exact Resolves.foldlM (fun _ _ _ _ hg hy => hg.connect hy)
    (fun k _ _ hg => Graph.connect_resolves hg _ _ _) (foldlM_keeps hkeep hempty hg)

/-- A composite is not refused for want of a module if all that it instantiates is registered. -/
theorem buildOne_resolves (h : ∀ m ∈ x.dependencies, c.contains m = true) :
    Resolves ((buildOne b x).runOn c).1 := by
  intro m hm
  obtain ⟨hinside | ⟨g, hg, hrefused⟩, -⟩ :=
    refused_of_buildOne (d := ((buildOne b x).runOn c).2) (Prod.ext hm rfl)
  · exact inside_resolves h m hinside
  · exact Assembly.not_refused (boundTo_of_inside h hg) m hrefused

/-- Composites in an order in which prerequisites come first are not refused for want of a module,
if nothing that they instantiate is missing from the library. -/
theorem forM_resolves {done order : List String} (hready : Order.Ready (l.needs c) done order)
    (hl : l.Filed) (hbuildable : ∀ m ∈ order, l.Buildable c m) (hgrows : c.Grows d)
    (hdone : ∀ m ∈ done, d.contains m = true) :
    Resolves ((order.forM l.buildListed).runOn d).1 := by
  induction order generalizing d done with
  | nil => exact .ok _
  | cons m order ih =>
    obtain ⟨hneeds, hready⟩ := hready
    obtain ⟨hm, hbuildable⟩ := List.forall_mem_cons.1 hbuildable
    obtain ⟨x, hx⟩ := contains_iff_description?.1 hm.pending.1
    have hdeps : ∀ n ∈ x.dependencies, d.contains n = true := by
      intro n hn
      by_cases hc : c.contains n = true
      · exact hgrows.contains hc
      · refine hdone n (hneeds n ?_)
        rw [needs_eq hx (hm.found x hx), List.mem_filter]
        exact ⟨hn, by simpa using hc⟩
    have hone : l.buildListed m = buildOne l.boundary x := by rw [buildListed, hx]
    intro n hfail
    rw [Edit.runOn_forM_cons, hone, Edit.runOn_bind] at hfail
    split at hfail <;> rename_i hrun
    · obtain ⟨B, hy, -, rfl⟩ := buildOne_eq_ok_iff.1 hrun
      have hput : d.Grows (d.put x.name (x.toModule B)) := .put hy.new _
      have hdone : ∀ k ∈ m :: done, (d.put x.name (x.toModule B)).contains k = true :=
        List.forall_mem_cons.2 ⟨Catalog.contains_put.2 (.inl (hl m x hx).symm),
          fun k hk => hput.contains (hdone k hk)⟩
      exact ih hready hbuildable (hgrows.trans hput) hdone n hfail
    · cases hfail
      exact buildOne_resolves hdeps n (congrArg Prod.fst hrun)

/-- Where there is an order, nothing is missing when composites are assembled in it. -/
theorem build_resolves (hl : l.Filed) {name : String} {order : List String}
    (h : l.buildOrder c name = .ok order) : Resolves ((l.build name).runOn c).1 := by
  obtain ⟨-, hbuildable, hready⟩ := ready_of_buildOrder h
  have hforM := forM_resolves hready hl hbuildable .refl fun _ hn => nomatch hn
  intro m hfail
  rw [build_eq, Edit.runOn_bind, Edit.runOn_query, h] at hfail
  dsimp only at hfail
  rw [Edit.runOn_bind] at hfail
  split at hfail
  · cases hfail
  · rename_i hrun
    cases hfail
    exact hforM m (congrArg Prod.fst hrun)

end Library

end Netlist
