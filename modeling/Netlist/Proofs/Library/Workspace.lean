import Netlist.Graph.Call
import Netlist.Proofs.Catalog.Growth
import Netlist.Proofs.Library.Registration

/-!
# Graphs and catalogs that grow together

A graph is wired while modules are registered. Each change of the graph is checked against the
catalog of that moment, which may know less than the catalog later on. What was sound stays sound,
because registering never takes back what the check has looked at.

## Main definitions

* `Netlist.Registrar`: a loader that only registers.
* `Netlist.Workspace`: a catalog and a graph; `Netlist.Workspace.Step` is what happens to them.
* `Netlist.Workspace.after`: both after several steps, each of which may fail.

## Main results

* `Netlist.Workspace.step_valid`: each step keeps the graph sound for the catalog.
* `Netlist.Workspace.validate_after`: the graph passes its test after any steps.
-/

namespace Netlist

open Catalog (Enduring)

/-! ### Loaders -/

/-- A loader that registers types and modules and does nothing else to a catalog. -/
structure Registrar where
  load : Loader
  keeps : ∀ {I : Catalog → Prop}, Enduring I → ∀ module, Keeps I (load module)

/-- A library is asked for a module by assembling it. -/
def Library.registrar (l : Library) : Registrar where
  load := l.load
  keeps hI module := (Keeping.of_enduring hI l).load module

/-- A catalog that is asked for a module only grows, whether or not the module is found. -/
theorem Registrar.grows (r : Registrar) (c : Catalog) (module : String) :
    c.Grows ((r.load module).runOn c).2 :=
  r.keeps (Catalog.enduring_grows c) module c .refl

/-! ### Workspaces -/

/-- A catalog, and a graph whose changes are checked against it. -/
structure Workspace where
  catalog : Catalog
  graph : Graph

namespace Workspace

/-- The workspace without types, modules and instances. -/
def empty : Workspace :=
  ⟨.empty, .empty⟩

/-- What happens in a workspace. -/
inductive Step where
  /-- Types or modules are registered. -/
  | register (r : Registration)
  | instantiate (name module : String)
  /-- An instance is added, and a loader is asked for its module if it is not registered. -/
  | instantiateWith (r : Registrar) (name module : String)
  | connect (source dest : String) (bindings : List Binding)
  | remove (name : String)
  | removeOrphans (eligible : Instance → Bool)

/-- The workspace with what a call makes of its graph. -/
def call (w : Workspace) (x : Call) : Workspace :=
  { w with graph := w.graph.after [x] }

/-- The catalog after an instance was added with a loader. The loader is asked for a module that is
not registered if the instance's name is new, and what it does stays done if it fails. -/
def asked (w : Workspace) (r : Registrar) (name module : String) : Catalog :=
  if w.graph.contains name || w.catalog.contains module then w.catalog
  else ((r.load module).runOn w.catalog).2

/-- The workspace after a step, which may fail. -/
def step (w : Workspace) : Step → Workspace
  | .register r => { w with catalog := (r.edit.runOn w.catalog).2 }
  | .instantiate name module => w.call (.instantiate w.catalog name module)
  | .instantiateWith r name module =>
    { w.call (.instantiateWith r.load w.catalog name module) with
      catalog := w.asked r name module }
  | .connect source dest bindings => w.call (.connect w.catalog source dest bindings)
  | .remove name => w.call (.remove name)
  | .removeOrphans eligible => w.call (.removeOrphans eligible)

/-- The workspace after several steps. -/
def after (w : Workspace) (steps : List Step) : Workspace :=
  steps.foldl step w

/-- The graph of a workspace is well formed and sound for the catalog. -/
structure Valid (w : Workspace) : Prop where
  wellFormed : w.graph.WellFormed
  sound : w.graph.Sound w.catalog

variable {w : Workspace} {c : Catalog}

theorem empty_valid : empty.Valid where
  wellFormed := .empty
  sound := ⟨nofun, nofun⟩

/-- The graph stays valid when the catalog grows. -/
theorem Valid.grow (hw : w.Valid) (hc : w.catalog.Grows c) : Valid { w with catalog := c } :=
  ⟨hw.wellFormed, hw.sound.mono hc⟩

/-- A call that fails changes nothing, so only what it gives if it succeeds has to be valid. -/
theorem Valid.call (hw : w.Valid) {x : Call}
    (hx : ∀ g, w.graph.call x = .ok g → g.WellFormed ∧ g.Sound w.catalog) : (w.call x).Valid := by
  unfold Workspace.call Graph.after
  rw [List.foldl_cons, List.foldl_nil]
  cases hg : w.graph.call x with
  | error e => exact hw
  | ok g => exact ⟨(hx g hg).1, (hx g hg).2⟩

theorem grows_asked (w : Workspace) (r : Registrar) (name module : String) :
    w.catalog.Grows (w.asked r name module) := by
  unfold asked
  split_ifs
  · exact .refl
  · exact r.grows w.catalog module

/-- An instance that is added with a loader is added against the catalog that the loader leaves. -/
theorem instantiate_of_instantiateWith {r : Registrar} {name module : String} {g : Graph}
    (h : w.graph.instantiateWith r.load w.catalog name module = .ok g) :
    w.graph.instantiate (w.asked r name module) name module = .ok g := by
  unfold Graph.instantiateWith at h
  split_ifs at h with hname
  · cases h
  · obtain ⟨c, hc, h⟩ := bind_eq_ok_iff.1 h
    have hasked : w.asked r name module = c := by
      unfold Catalog.loaded at hc
      unfold asked
      by_cases hmodule : w.catalog.contains module = true
      · rw [if_pos hmodule] at hc
        rw [if_pos (by simp [hmodule])]
        exact Except.ok.inj hc
      · rw [if_neg hmodule] at hc
        rw [if_neg (by simp [hname, hmodule])]
        split at hc
        · rename_i hrun
          rw [hrun]
          exact Except.ok.inj hc
        · cases hc
    exact hasked ▸ h

/-- Whatever happens in a workspace, and whether or not it fails, keeps the workspace valid. -/
theorem step_valid (hw : w.Valid) (x : Step) : (w.step x).Valid := by
  cases x with
  | register r => exact hw.grow (r.edit_keeps (Catalog.enduring_grows _) _ .refl)
  | instantiate name module =>
    exact hw.call fun g hg =>
      ⟨Graph.instantiate_wellFormed hw.wellFormed hg, Graph.instantiate_sound hw.sound hg⟩
  | instantiateWith r name module =>
    have hgrown := hw.grow (w.grows_asked r name module)
    refine hgrown.call fun g hg => ?_
    have hg := instantiate_of_instantiateWith (w := w) hg
    exact ⟨Graph.instantiate_wellFormed hw.wellFormed hg,
      Graph.instantiate_sound hgrown.sound hg⟩
  | connect source dest bindings =>
    exact hw.call fun g hg =>
      ⟨Graph.connect_wellFormed hw.wellFormed hg, Graph.connect_sound hw.wellFormed hw.sound hg⟩
  | remove name =>
    refine hw.call fun g hg => ?_
    obtain ⟨⟨i, g'⟩, hg', rfl⟩ := map_eq_ok_iff.1 hg
    unfold Graph.remove at hg'
    split at hg'
    · cases hg'
      exact ⟨hw.wellFormed.without name, hw.sound.without hw.wellFormed name⟩
    · cases hg'
  | removeOrphans eligible =>
    refine hw.call fun g hg => ?_
    cases hg
    exact ⟨hw.wellFormed.removeOrphans eligible, hw.sound.removeOrphans hw.wellFormed eligible⟩

theorem after_valid (hw : w.Valid) (steps : List Step) : (w.after steps).Valid := by
  induction steps generalizing w with
  | nil => exact hw
  | cons x steps ih => exact ih (step_valid hw x)

/-- After any steps, each of which may fail, the graph passes its test against the catalog of that
moment. -/
theorem validate_after (steps : List Step) :
    (empty.after steps).graph.validate (empty.after steps).catalog = .ok () :=
  have h := after_valid empty_valid steps
  (Graph.validate_eq_ok_iff h.wellFormed).2 h.sound

end Workspace

end Netlist
