import Netlist.Proofs.Library.Acyclic
import Netlist.Proofs.Library.Loading

/-!
# Assembling in another order

Once every described composite has been assembled, each of them can be assembled again in any other
order in which prerequisites come first. It finds the modules that it instantiates as they were. And
whatever else is registered by then, the check of containment has nothing against it: a way that
meets itself would be an endless way into the composite in the final catalog too, and there is none.
The one thing that can be in its way is a composite whose name is that of a module that its boundary
instances are bound to for a while. Identifiers are no such names.

## Main definitions

* `Netlist.Library.Finished`: every described composite has been assembled.
* `Netlist.Library.Clashes`: in an order of assembly, a composite comes behind such a name.
* `Netlist.Library.Clear`: no composite is described under such a name.

## Main results

* `Netlist.Catalog.agreeOn_of_grows`: catalogs that grow into the same one agree.
* `Netlist.Library.Finished.complete`, `Netlist.Library.Finished.acyclic`: on the way there, nothing
  is missing from the library, and no composite needs itself.
* `Netlist.Library.Finished.forM_or_clash`: prerequisites first, composites can be assembled up to a
  clash.
* `Netlist.Library.Finished.build_or_clash`: so can each composite after those that it needs.
* `Netlist.Library.Finished.exists_buildAll`: without such names, all composites can be assembled in
  any order.
-/

namespace Netlist

/-- Catalogs with the same types agree on what both know if they grow into the same catalog. -/
theorem Catalog.agreeOn_of_grows {c d e : Catalog} {p : String → Prop} (htypes : c.types = d.types)
    (hce : c.Grows e) (hde : d.Grows e) (hc : ∀ n, p n → c.contains n = true)
    (hd : ∀ n, p n → d.contains n = true) : c.AgreeOn p d := by
  refine ⟨htypes, fun n hn => ?_⟩
  obtain ⟨M, hM⟩ := contains_iff_module?.1 (hc n hn)
  obtain ⟨N, hN⟩ := contains_iff_module?.1 (hd n hn)
  rw [hM, hN, ← hce.module? n M hM, hde.module? n N hN]

namespace Library

open Catalog (Edit)
open Relation (TransGen)

variable {l : Library} {c e f f₀ : Catalog} {m : String} {x : Description} {B : Graph}

/-- Every described composite has been assembled, if it was not registered before. -/
structure Finished (l : Library) (c e : Catalog) : Prop where
  filed : l.Filed
  gathered : Gathered l c e
  contains : ∀ m, l.contains m = true → e.contains m = true

/-- Loading everything assembles every described composite. -/
theorem finished_of_loadAll (hl : l.Filed) {n : Nat} (h : l.loadAll.runOn c = (.ok n, e)) :
    l.Finished c e where
  filed := hl
  gathered := Edit.of_keeps ((gathered_keeping hl c).buildAll l.names) (.refl l c) h
  contains _ hm := contains_of_loadAll hl h hm

/-- In an order of assembly, the composite `name` comes behind one that is called like one of the
modules that its boundary instances are bound to for a while. -/
def Clashes (l : Library) (order : List String) (name taken : String) : Prop :=
  taken ∈ scaffolds l.boundary name ∧ [taken, name].Sublist order

instance (order : List String) (name taken : String) : Decidable (l.Clashes order name taken) :=
  inferInstanceAs (Decidable (_ ∧ _))

/-- No composite is described under the name of a module that boundary instances are bound to for a
while. -/
def Clear (l : Library) : Prop :=
  ∀ name, ∀ taken ∈ scaffolds l.boundary name, ¬l.contains taken = true

theorem Parsed.clear (hl : l.Parsed) : l.Clear := by
  intro name taken hmem h
  have hpart := all_isPart_of_isIdentifier (hl.isIdentifier h) ':' (by
    rcases List.mem_cons.1 hmem with rfl | hmem
    · simp
    · simp [List.mem_singleton.1 hmem])
  exact absurd hpart (by decide)

namespace Finished

variable (he : l.Finished c e)
include he

theorem exists_recorded (hm : l.contains m = true) (hc : ¬c.contains m = true) :
    ∃ x B, Recorded l c e m x B :=
  (he.gathered.recorded m (he.contains m hm)).resolve_left hc

/-! ### Prerequisites on the way -/

/-- What has been instantiated by the end is registered or described all the way. -/
theorem complete (hf : c.Grows f) : l.Complete f := by
  intro m x hx hm n hn
  obtain ⟨y, B, hrec⟩ := he.exists_recorded (contains_iff_description?.2 ⟨x, hx⟩)
    fun hc => hm (hf.contains hc)
  cases hx.symm.trans hrec.described
  obtain ⟨c', -, -, hgrows, hy⟩ := hrec.yields
  refine (he.gathered.recorded n (hgrows.contains (hy.dependencies n hn))).imp hf.contains ?_
  rintro ⟨y, _, hrec'⟩
  exact contains_iff_description?.2 ⟨y, hrec'.described⟩

theorem mem_needs (hf : c.Grows f) (hx : l.description? m = some x)
    (hm : ¬f.contains m = true) {n : String} :
    n ∈ l.needs f m ↔ n ∈ x.dependencies ∧ ¬f.contains n = true := by
  rw [needs_eq hx (he.complete hf m x hx hm), List.mem_filter]
  simp

/-- No composite needs itself, because none contains itself in the end. -/
theorem acyclic (hf : c.Grows f) (m : String) :
    ¬TransGen (fun n m => l.Pending f m ∧ n ∈ l.needs f m) m m := by
  intro hcycle
  have hwithin : TransGen e.Within m m := by
    refine TransGen.mono (fun n m (h : l.Pending f m ∧ n ∈ l.needs f m) => ?_) m m hcycle
    obtain ⟨x, B, hrec⟩ := he.exists_recorded h.1.1 fun hc => h.1.2 (hf.contains hc)
    obtain ⟨c', -, -, -, hy⟩ := hrec.yields
    have hn := ((he.mem_needs hf hrec.described h.1.2).1 h.2).1
    obtain ⟨i, hi, hcell, hmodule⟩ := hy.exists_cell hn
    exact ⟨B, Catalog.body?_eq_some_iff.2 ⟨_, hrec.registered, rfl⟩, i, hi, hcell, hmodule⟩
  obtain ⟨n, -, hm, -⟩ := TransGen.tail'_iff.1 hcycle
  exact not_transGen_of_acc (he.gathered.acc m fun hc => hm.2 (hf.contains hc)) hwithin

/-! ### Assembling -/

/-- A described composite was put together in a catalog that agrees on what it instantiates, once
those are registered that it has needed in an earlier catalog. -/
private theorem exists_agreeOn (hf₀ : c.Grows f₀) (hf₀f : f₀.Grows f) (hf : Gathered l c f)
    (hfe : f.Grows e) (hm : l.contains m = true) (hnew : ¬f.contains m = true)
    (hneeds : ∀ n ∈ l.needs f₀ m, f.contains n = true) :
    ∃ x B c', Recorded l c e m x B ∧ x.name = m ∧ c.Grows c' ∧ Yields c' l.boundary x B ∧
      c'.AgreeOn (· ∈ x.dependencies) f := by
  have hnew₀ : ¬f₀.contains m = true := fun h => hnew (hf₀f.contains h)
  obtain ⟨x, B, hrec⟩ := he.exists_recorded hm fun h => hnew₀ (hf₀.contains h)
  have hdeps : ∀ n ∈ x.dependencies, f.contains n = true := by
    intro n hn
    by_cases hn₀ : f₀.contains n = true
    · exact hf₀f.contains hn₀
    · exact hneeds n ((he.mem_needs hf₀ hrec.described hnew₀).2 ⟨hn, hn₀⟩)
  obtain ⟨c', htypes, hc, hgrows, hy⟩ := hrec.yields
  exact ⟨x, B, c', hrec, he.filed m x hrec.described, hc, hy,
    Catalog.agreeOn_of_grows (htypes.trans hf.types.symm) hgrows hfe hy.dependencies hdeps⟩

/-- A composite can be assembled once those are registered that it has needed in an earlier catalog,
if the names of the modules for its boundary instances are free. -/
theorem exists_buildListed (hf₀ : c.Grows f₀) (hf₀f : f₀.Grows f) (hf : Gathered l c f)
    (hfe : f.Grows e) (hm : l.contains m = true) (hnew : ¬f.contains m = true)
    (hneeds : ∀ n ∈ l.needs f₀ m, f.contains n = true)
    (hfree : ∀ taken ∈ scaffolds l.boundary m, ¬f.contains taken = true) :
    ∃ M, (l.buildListed m).runOn f = (.ok (), f.put m M) ∧ Gathered l c (f.put m M) ∧
      (f.put m M).Grows e := by
  obtain ⟨x, B, c', hrec, rfl, -, hy', hagree⟩ :=
    he.exists_agreeOn hf₀ hf₀f hf hfe hm hnew hneeds
  have hx := hrec.described
  have hy := hy'.of_agreeOn hagree hnew hfree
  have hgrows : (f.put x.name (x.toModule B)).Grows e := by
    refine ⟨fun n M hM => ?_, hfe.alike⟩
    rw [Catalog.module?_put] at hM
    split_ifs at hM with hn
    · cases hM
      exact hn ▸ hrec.registered
    · exact hfe.module? n M hM
  have hmc : ¬c.contains x.name = true := fun h => hnew (hf.grows.contains h)
  have hbody : f.checkBody x.name B = .ok () := by
    refine Catalog.checkBody_of_acc hnew (m := x.toModule B) rfl ?_
    exact Subrelation.accessible (fun hin => hgrows.within hin) (he.gathered.acc _ hmc)
  refine ⟨x.toModule B, ?_, hf.step he.filed hx hy hbody, hgrows⟩
  rw [buildListed, hx]
  exact buildOne_eq_ok_iff.2 ⟨B, hy, hbody, rfl⟩

/-- If one of these names is taken, the composite is refused for such a name. -/
theorem buildListed_eq_duplicate (hf₀ : c.Grows f₀) (hf₀f : f₀.Grows f) (hf : Gathered l c f)
    (hfe : f.Grows e) (hm : l.contains m = true) (hnew : ¬f.contains m = true)
    (hneeds : ∀ n ∈ l.needs f₀ m, f.contains n = true) {taken : String}
    (hmem : taken ∈ scaffolds l.boundary m) (htaken : f.contains taken = true) :
    ∃ taken ∈ scaffolds l.boundary m, f.contains taken = true ∧
      (l.buildListed m).runOn f = (.error (.duplicateModule taken), f) := by
  obtain ⟨x, B, c', hrec, rfl, -, hy', hagree⟩ :=
    he.exists_agreeOn hf₀ hf₀f hf hfe hm hnew hneeds
  rw [buildListed, hrec.described]
  exact hy'.buildOne_eq_duplicate hagree hnew hmem htaken

/-- Composites can be assembled in an order in which prerequisites come first, up to one that has
the name of a module for its boundary instances taken, by what was there before or by a composite
that comes earlier. -/
theorem forM_or_clash {done order : List String} (hf₀ : c.Grows f₀)
    (hready : Order.Ready (l.needs f₀) done order) (hnodup : order.Nodup)
    (hdescribed : ∀ m ∈ order, l.contains m = true) (hf₀f : f₀.Grows f) (hf : Gathered l c f)
    (hfe : f.Grows e) (hdone : ∀ m ∈ done, f.contains m = true)
    (hnew : ∀ m ∈ order, ¬f.contains m = true) :
    ((∀ name ∈ order, ∀ taken ∈ scaffolds l.boundary name,
        ¬(f.contains taken = true ∨ [taken, name].Sublist order)) ∧
      ∃ f', (order.forM l.buildListed).runOn f = (.ok (), f') ∧ Gathered l c f' ∧ f'.Grows e) ∨
    ∃ name ∈ order, ∃ taken ∈ scaffolds l.boundary name, ∃ f',
      (f.contains taken = true ∨ [taken, name].Sublist order) ∧
        (order.forM l.buildListed).runOn f = (.error (.duplicateModule taken), f') := by
  induction order generalizing f done with
  | nil => exact .inl ⟨List.forall_mem_nil _, f, rfl, hf, hfe⟩
  | cons m order ih =>
    obtain ⟨hneeds, hready⟩ := hready
    obtain ⟨hnot, hnodup⟩ := List.nodup_cons.1 hnodup
    obtain ⟨hm, hdescribed⟩ := List.forall_mem_cons.1 hdescribed
    obtain ⟨hmnew, hnew⟩ := List.forall_mem_cons.1 hnew
    have hneeds : ∀ n ∈ l.needs f₀ m, f.contains n = true := fun n hn => hdone n (hneeds n hn)
    by_cases hfree : ∀ taken ∈ scaffolds l.boundary m, ¬f.contains taken = true
    · obtain ⟨M, hrun, hf₁, hfe₁⟩ :=
        he.exists_buildListed hf₀ hf₀f hf hfe hm hmnew hneeds hfree
      have hgrows : f.Grows (f.put m M) := .put hmnew M
      have hdone : ∀ n ∈ m :: done, (f.put m M).contains n = true :=
        List.forall_mem_cons.2 ⟨Catalog.contains_put.2 (.inl rfl),
          fun n hn => hgrows.contains (hdone n hn)⟩
      have hnew : ∀ n ∈ order, ¬(f.put m M).contains n = true := fun n hn hc =>
        hnew n hn ((Catalog.contains_put.1 hc).resolve_left fun h => hnot (h ▸ hn))
      -- a name that is taken by then was taken before, or is that of the composite itself
      have hbefore {name taken : String} (hname : name ∈ order) :
          ((f.put m M).contains taken = true ∨ [taken, name].Sublist order) ↔
            f.contains taken = true ∨ [taken, name].Sublist (m :: order) := by
        rw [Catalog.contains_put, List.cons_sublist_cons', List.singleton_sublist]
        tauto
      rcases ih hready hnodup hdescribed (hf₀f.trans hgrows) hf₁ hfe₁ hdone hnew with
        ⟨hclear, f', hrest, hf', hfe'⟩ | ⟨name, hname, taken, hmem, f', htaken, hrest⟩
      · refine .inl ⟨List.forall_mem_cons.2 ⟨fun taken hmem htaken => ?_,
          fun name hname taken hmem => mt (hbefore hname).2 (hclear name hname taken hmem)⟩,
          f', ?_, hf', hfe'⟩
        · have hlater := htaken.resolve_left (hfree taken hmem)
          rw [List.cons_sublist_cons', List.singleton_sublist] at hlater
          exact hnot (hlater.elim (fun h => h.subset (by simp)) And.right)
        · exact Edit.runOn_bind_eq_ok_iff.2 ⟨(), _, hrun, hrest⟩
      · refine .inr ⟨name, List.mem_cons_of_mem _ hname, taken, hmem, f',
          (hbefore hname).1 htaken, ?_⟩
        rw [Edit.runOn_forM_cons, Edit.runOn_bind, hrun]
        exact hrest
    · push Not at hfree
      obtain ⟨taken, hmem, htaken⟩ := hfree
      obtain ⟨taken, hmem, htaken, hrun⟩ :=
        he.buildListed_eq_duplicate hf₀ hf₀f hf hfe hm hmnew hneeds hmem htaken
      refine .inr ⟨m, List.mem_cons_self, taken, hmem, f, .inl htaken, ?_⟩
      rw [Edit.runOn_forM_cons, Edit.runOn_bind, hrun]

/-- The names of the modules for the boundary instances of a described composite are not taken from
the beginning. -/
theorem scaffolds_new (hm : l.Pending c m) :
    ∀ taken ∈ scaffolds l.boundary m, ¬c.contains taken = true := by
  obtain ⟨x, B, hrec⟩ := he.exists_recorded hm.1 hm.2
  obtain ⟨c', -, hc, -, hy⟩ := hrec.yields
  obtain rfl := he.filed m x hrec.described
  exact fun taken hmem htaken => hy.scaffolds_new taken hmem (hc.contains htaken)

/-- A described composite can be assembled after those that it needs, up to a clash. -/
theorem build_or_clash (hm : l.Pending c m) : ∃ order, l.buildOrder c m = .ok order ∧
    (((∀ name taken, ¬l.Clashes order name taken) ∧
      ∃ f, (l.build m).runOn c = (.ok order, f) ∧ Gathered l c f ∧ f.Grows e ∧
        f.contains m = true) ∨
    ∃ name taken f, l.Clashes order name taken ∧
      (l.build m).runOn c = (.error (.duplicateModule taken), f)) := by
  obtain ⟨order, horder, -, hnodup, hpending, hready⟩ :=
    exists_buildOrder (he.complete .refl) (he.acyclic .refl) hm
  refine ⟨order, horder, ?_⟩
  rcases he.forM_or_clash .refl hready hnodup (fun n hn => (hpending n hn).1) .refl (.refl l c)
    he.gathered.grows (fun _ hn => nomatch hn) (fun n hn => (hpending n hn).2) with
    ⟨hclear, f, hrun, hf, hfe⟩ | ⟨name, hname, taken, hmem, f, htaken, hrun⟩
  · refine .inl ⟨fun name taken hclash => ?_, f, build_eq_ok_iff.2 ⟨horder, hrun⟩, hf, hfe,
      contains_of_forM he.filed hrun (mem_of_buildOrder horder hm.2) hm.1⟩
    have hname : name ∈ order := hclash.2.subset (by simp)
    exact hclear name hname taken hclash.1 (.inr hclash.2)
  · have hclash := htaken.resolve_left (he.scaffolds_new (hpending name hname) taken hmem)
    exact .inr ⟨name, taken, f, ⟨hmem, hclash⟩, build_of_forM_error horder hrun⟩

/-! ### Libraries without clashes -/

section Clear

variable (hclear : l.Clear)
include hclear

/-- Whatever has been assembled already, a described composite can be assembled after those that it
needs. -/
theorem exists_build (hf : Gathered l c f) (hfe : f.Grows e) (hm : l.Pending f m) :
    ∃ order f', (l.build m).runOn f = (.ok order, f') ∧ Gathered l c f' ∧ f'.Grows e ∧
      f'.contains m = true := by
  obtain ⟨order, horder, hmem, hnodup, hpending, hready⟩ :=
    exists_buildOrder (he.complete hf.grows) (he.acyclic hf.grows) hm
  rcases he.forM_or_clash hf.grows hready hnodup (fun n hn => (hpending n hn).1) .refl hf hfe
    (fun _ hn => nomatch hn) (fun n hn => (hpending n hn).2) with
    ⟨-, f', hrun, hf', hfe'⟩ | ⟨name, hname, taken, hscaffold, -, htaken, -⟩
  · exact ⟨order, f', build_eq_ok_iff.2 ⟨horder, hrun⟩, hf', hfe',
      contains_of_forM he.filed hrun hmem hm.1⟩
  · have hnot := hclear name taken hscaffold
    rcases htaken with htaken | hbefore
    · rcases hf.recorded taken htaken with hc | ⟨x, B, hrec⟩
      · have hname : l.Pending c name :=
          ⟨(hpending name hname).1, fun h => (hpending name hname).2 (hf.grows.contains h)⟩
        exact absurd hc (he.scaffolds_new hname taken hscaffold)
      · exact absurd (contains_iff_description?.2 ⟨x, hrec.described⟩) hnot
    · exact absurd (hpending taken (hbefore.subset List.mem_cons_self)).1 hnot

/-- Described composites can be assembled in any order, each after those that it needs. -/
theorem exists_buildAll {names : List String} (hnames : ∀ m ∈ names, l.contains m = true)
    (hf : Gathered l c f) (hfe : f.Grows e) :
    ∃ n f', (l.buildAll names).runOn f = (.ok n, f') ∧ f'.Grows e := by
  induction names generalizing f with
  | nil => exact ⟨0, f, rfl, hfe⟩
  | cons m names ih =>
    obtain ⟨hm, hnames⟩ := List.forall_mem_cons.1 hnames
    by_cases hc : f.contains m = true
    · rw [runOn_buildAll_of_contains hc]
      exact ih hnames hf hfe
    · obtain ⟨order, f₁, hbuild, hf₁, hfe₁, -⟩ := he.exists_build hclear hf hfe ⟨hm, hc⟩
      obtain ⟨n, f', hrest, hfe'⟩ := ih hnames hf₁ hfe₁
      exact ⟨_, f', runOn_buildAll_of_build hc hbuild hrest, hfe'⟩

end Clear

end Finished

end Library

end Netlist
