import Netlist.Library.Basic
import Netlist.Proofs.Library.Order
import Netlist.Proofs.OrderedMap
import Netlist.Proofs.Sequencing

/-!
# The order of assembly

For a described composite, the library lists what has to be assembled: the composite itself and all
described composites that it needs, directly or indirectly, and that are not registered. The list is
closed, each composite comes after those that it needs, and there is such a list whenever nothing is
missing and no composite needs itself.

## Main definitions

* `Netlist.Library.Pending`: a composite is described and not registered.
* `Netlist.Library.Complete`: what a described composite instantiates is registered or described.
* `Netlist.Library.Buildable`: a composite is pending and nothing that it instantiates is missing.

## Main results

* `Netlist.Library.missing_eq_ok_iff`, `Netlist.Library.needs_eq`: the prerequisites of a composite.
* `Netlist.Library.mem_of_closure`, `Netlist.Library.closed_of_closure`,
  `Netlist.Library.exists_closure`: what is reached over prerequisites.
* `Netlist.Library.mem_of_buildOrder`: the order contains the composite that it is made for.
* `Netlist.Library.ready_of_buildOrder`: prerequisites come first in an order.
* `Netlist.Library.exists_buildOrder`: an order in which prerequisites come first.
-/

namespace Netlist.Library

open Relation (TransGen)

variable {c : Catalog} {l : Library} {name : String} {found pending ms ns r : List String}

/-- A composite is described and not registered. -/
def Pending (c : Catalog) (l : Library) (name : String) : Prop :=
  l.contains name = true ∧ ¬c.contains name = true

theorem contains_iff_description? : l.contains name = true ↔ ∃ d, l.description? name = some d := by
  rw [contains, OrderedMap.contains_iff]
  simp [description?]

/-! ### Prerequisites -/

/-- Those of several modules that are not registered are described, or one of them is not. -/
theorem missing_eq_ok_iff : l.missing c ms = .ok ns ↔
    (∀ m ∈ ms, c.contains m = true ∨ l.contains m = true) ∧
      ns = ms.filter fun m => !c.contains m := by
  induction ms generalizing ns with
  | nil => exact ⟨fun h => ⟨fun _ hm => (nomatch hm), (Except.ok.inj h).symm⟩, fun h => h.2 ▸ rfl⟩
  | cons m ms ih =>
    rw [List.forall_mem_cons, missing]
    by_cases hc : c.contains m = true
    · simp [hc, ih]
    · by_cases hl : l.contains m = true
      · rw [if_neg hc, if_pos hl, map_eq_ok_iff]
        constructor
        · rintro ⟨_, h, rfl⟩
          obtain ⟨hall, rfl⟩ := ih.1 h
          exact ⟨⟨.inr hl, hall⟩, by simp [hc]⟩
        · rintro ⟨⟨-, hall⟩, rfl⟩
          exact ⟨_, ih.2 ⟨hall, rfl⟩, by simp [hc]⟩
      · simp [hc, hl]

theorem mem_of_missing (h : l.missing c ms = .ok ns) {m : String} (hm : m ∈ ns) :
    l.Pending c m := by
  obtain ⟨hall, rfl⟩ := missing_eq_ok_iff.1 h
  obtain ⟨hm, hc⟩ := List.mem_filter.1 hm
  have hc : ¬c.contains m = true := by simpa using hc
  exact ⟨(hall m hm).resolve_left hc, hc⟩

/-- What a described composite instantiates is registered or described, if the composite is not
registered itself. -/
def Complete (c : Catalog) (l : Library) : Prop :=
  ∀ m d, l.description? m = some d → ¬c.contains m = true →
    ∀ n ∈ d.dependencies, c.contains n = true ∨ l.contains n = true

/-- The prerequisites of a composite are the modules that it instantiates and that are not
registered. -/
theorem needs_eq {d : Description} (hd : l.description? name = some d)
    (h : ∀ n ∈ d.dependencies, c.contains n = true ∨ l.contains n = true) :
    l.needs c name = d.dependencies.filter fun n => !c.contains n := by
  unfold needs prerequisites
  rw [hd]
  simp only [missing_eq_ok_iff.2 ⟨h, rfl⟩]

/-! ### What is reached over prerequisites -/

theorem mem_of_closure (h : l.closure c found pending = .ok r) {n : String}
    (hn : n ∈ found ∨ n ∈ pending) : n ∈ r := by
  fun_induction closure c l found pending with
  | case1 =>
    cases h
    exact hn.resolve_right List.not_mem_nil
  | case2 found m ms hm ih =>
    refine ih h ?_
    rcases hn with hn | hn
    · exact .inl hn
    · rcases List.mem_cons.1 hn with rfl | hn
      · exact .inl hm
      · exact .inr hn
  | case3 found m ms _ _ ih =>
    refine ih h ?_
    simp only [List.mem_append, List.mem_singleton]
    simpa [or_assoc] using hn
  | case4 => cases h
  | case5 found m ms _ d _ needs _ ih =>
    refine ih h ?_
    rcases hn with hn | hn
    · exact .inl (List.mem_append_left _ hn)
    · rcases List.mem_cons.1 hn with rfl | hn
      · exact .inl (by simp)
      · exact .inr (List.mem_append_right _ hn)

theorem nodup_of_closure (h : l.closure c found pending = .ok r) (hfound : found.Nodup) :
    r.Nodup := by
  have hnew {found : List String} {m : String} (hfound : found.Nodup) (hm : m ∉ found) :
      (found ++ [m]).Nodup :=
    hfound.append (List.nodup_singleton m) (List.disjoint_singleton.2 hm)
  fun_induction closure c l found pending with
  | case1 =>
    cases h
    exact hfound
  | case2 found m ms _ ih => exact ih h hfound
  | case3 found m ms hm _ ih => exact ih h (hnew hfound hm)
  | case4 => cases h
  | case5 found m ms hm d _ needs _ ih => exact ih h (hnew hfound hm)

/-- What is reached over prerequisites is closed under them. -/
theorem closed_of_closure (h : l.closure c found pending = .ok r)
    (hfound : ∀ m ∈ found, ∀ n ∈ l.needs c m, n ∈ found ∨ n ∈ pending) :
    ∀ m ∈ r, ∀ n ∈ l.needs c m, n ∈ r := by
  fun_induction closure c l found pending with
  | case1 found =>
    cases h
    exact fun m hm n hn => (hfound m hm n hn).resolve_right List.not_mem_nil
  | case2 found m ms hm ih =>
    refine ih h fun x hx n hn => ?_
    rcases hfound x hx n hn with hn | hn
    · exact .inl hn
    · rcases List.mem_cons.1 hn with rfl | hn
      · exact .inl hm
      · exact .inr hn
  | case3 found m ms hm hd ih =>
    refine ih h fun x hx n hn => ?_
    rcases List.mem_append.1 hx with hx | hx
    · rcases hfound x hx n hn with hn | hn
      · exact .inl (List.mem_append_left _ hn)
      · rcases List.mem_cons.1 hn with rfl | hn
        · exact .inl (by simp)
        · exact .inr hn
    · rw [List.mem_singleton.1 hx, needs, prerequisites, hd] at hn
      cases hn
  | case4 => cases h
  | case5 found m ms hm d hd needs hneeds ih =>
    refine ih h fun x hx n hn => ?_
    rcases List.mem_append.1 hx with hx | hx
    · rcases hfound x hx n hn with hn | hn
      · exact .inl (List.mem_append_left _ hn)
      · rcases List.mem_cons.1 hn with rfl | hn
        · exact .inl (by simp)
        · exact .inr (List.mem_append_right _ hn)
    · rw [List.mem_singleton.1 hx, Library.needs, prerequisites, hd] at hn
      simp only [hneeds] at hn
      by_cases hnf : n ∈ found ++ [m]
      · exact .inl hnf
      · refine .inr (List.mem_append_left _ (List.mem_reverse.2 (List.mem_filter.2 ⟨hn, ?_⟩)))
        exact decide_eq_true hnf

/-- If nothing is missing, all is reached over prerequisites, and what is reached is described and
not registered. -/
theorem exists_closure (hl : l.Complete c) (hfound : ∀ m ∈ found, l.Pending c m)
    (hpending : ∀ m ∈ pending, l.Pending c m) :
    ∃ r, l.closure c found pending = .ok r ∧ ∀ m ∈ r, l.Pending c m := by
  fun_induction closure c l found pending with
  | case1 => exact ⟨_, rfl, hfound⟩
  | case2 found m ms _ ih => exact ih hfound (List.forall_mem_cons.1 hpending).2
  | case3 found m ms _ hd =>
    obtain ⟨d, hd'⟩ := contains_iff_description?.1 (hpending m List.mem_cons_self).1
    cases hd.symm.trans hd'
  | case4 found m ms _ d hd e he =>
    have hmissing := missing_eq_ok_iff.2 ⟨hl m d hd (hpending m List.mem_cons_self).2, rfl⟩
    cases he.symm.trans hmissing
  | case5 found m ms _ d _ needs hneeds ih =>
    obtain ⟨hm, hms⟩ := List.forall_mem_cons.1 hpending
    refine ih (List.forall_mem_append.2 ⟨hfound, List.forall_mem_singleton.2 hm⟩)
      (List.forall_mem_append.2 ⟨fun n hn => ?_, hms⟩)
    exact mem_of_missing hneeds (List.mem_filter.1 (List.mem_reverse.1 hn)).1

/-- A composite is described and not registered, and what it instantiates is registered or
described. -/
structure Buildable (c : Catalog) (l : Library) (name : String) : Prop where
  pending : l.Pending c name
  found : ∀ d, l.description? name = some d →
    ∀ n ∈ d.dependencies, c.contains n = true ∨ l.contains n = true

/-- What is reached over prerequisites is described and not registered, and nothing that it
instantiates is missing. -/
theorem buildable_of_closure (h : l.closure c found pending = .ok r)
    (hfound : ∀ m ∈ found, l.Buildable c m) (hpending : ∀ m ∈ pending, l.Pending c m) :
    ∀ m ∈ r, l.Buildable c m := by
  fun_induction closure c l found pending with
  | case1 =>
    cases h
    exact hfound
  | case2 found m ms _ ih => exact ih h hfound (List.forall_mem_cons.1 hpending).2
  | case3 found m ms _ hd =>
    obtain ⟨d, hd'⟩ := contains_iff_description?.1 (hpending m List.mem_cons_self).1
    cases hd.symm.trans hd'
  | case4 => cases h
  | case5 found m ms _ d hd needs hneeds ih =>
    obtain ⟨hm, hms⟩ := List.forall_mem_cons.1 hpending
    have hbuildable : l.Buildable c m :=
      ⟨hm, fun d' hd' => Option.some.inj (hd.symm.trans hd') ▸ (missing_eq_ok_iff.1 hneeds).1⟩
    refine ih h (List.forall_mem_append.2 ⟨hfound, List.forall_mem_singleton.2 hbuildable⟩)
      (List.forall_mem_append.2 ⟨fun n hn => ?_, hms⟩)
    exact mem_of_missing hneeds (List.mem_filter.1 (List.mem_reverse.1 hn)).1

/-! ### The order -/

/-- What the members are that an order is made of. -/
private theorem exists_members {order : List String} (h : l.buildOrder c name = .ok order)
    (hname : ¬c.contains name = true) : l.contains name = true ∧
      ∃ members, l.closure c [] [name] = .ok members ∧
        order = Order.candidate members (l.needs c) ∧
        (∀ m ∈ members, m ∉ l.needs c m) ∧ Order.misplaced? (l.needs c) [] order = none := by
  unfold buildOrder at h
  rw [if_neg hname] at h
  dsimp only at h
  split_ifs at h with hdescribed
  · cases h
  · obtain ⟨members, hmembers, h⟩ := bind_eq_ok_iff.1 h
    refine ⟨by simpa using hdescribed, members, hmembers, ?_⟩
    split at h
    · cases h
    · rename_i hself
      split at h
      · rename_i hmisplaced
        cases h
        exact ⟨rfl, fun m hm hn => List.find?_eq_none.1 hself m hm (decide_eq_true hn), hmisplaced⟩
      · cases h

/-- The order contains the composite that it is made for. -/
theorem mem_of_buildOrder {order : List String} (h : l.buildOrder c name = .ok order)
    (hname : ¬c.contains name = true) : name ∈ order := by
  obtain ⟨-, members, hmembers, rfl, -⟩ := exists_members h hname
  exact (Order.mem_candidate (nodup_of_closure hmembers List.nodup_nil)).2
    (mem_of_closure hmembers (.inr (List.mem_singleton_self name)))

/-- The order lists composites that can be built, each once and after those that it needs. -/
theorem ready_of_buildOrder {order : List String} (h : l.buildOrder c name = .ok order) :
    order.Nodup ∧ (∀ m ∈ order, l.Buildable c m) ∧ Order.Ready (l.needs c) [] order := by
  by_cases hname : c.contains name = true
  · unfold buildOrder at h
    rw [if_pos hname] at h
    cases h
    exact ⟨List.nodup_nil, fun _ hm => (nomatch hm), trivial⟩
  · obtain ⟨hdescribed, members, hmembers, rfl, hself, hmisplaced⟩ := exists_members h hname
    have hnodup : members.Nodup := nodup_of_closure hmembers List.nodup_nil
    have hmem (m : String) (hm : m ∈ Order.candidate members (l.needs c)) : m ∈ members :=
      (Order.mem_candidate hnodup).1 hm
    have hbuildable := buildable_of_closure hmembers (fun _ hm => nomatch hm)
      (List.forall_mem_singleton.2 ⟨hdescribed, hname⟩)
    exact ⟨Order.nodup_candidate hnodup, fun m hm => hbuildable m (hmem m hm),
      Order.ready_of_misplaced? (fun m hm => hself m (hmem m hm)) hmisplaced⟩

/-- If nothing is missing and no composite needs itself, directly or indirectly, then there is an
order in which prerequisites come first. -/
theorem exists_buildOrder (hl : l.Complete c)
    (hacyc : ∀ m, ¬TransGen (fun n m => l.Pending c m ∧ n ∈ l.needs c m) m m)
    (hname : l.Pending c name) : ∃ order, l.buildOrder c name = .ok order ∧ name ∈ order ∧
      order.Nodup ∧ (∀ m ∈ order, l.Pending c m) ∧ Order.Ready (l.needs c) [] order := by
  have hnone : ∀ m ∈ ([] : List String), l.Pending c m := fun _ hm => nomatch hm
  obtain ⟨members, hmembers, hpending⟩ :=
    exists_closure hl hnone (List.forall_mem_singleton.2 hname)
  have hnodup : members.Nodup := nodup_of_closure hmembers List.nodup_nil
  have hclosed := closed_of_closure hmembers fun _ hm => nomatch hm
  have hprecedes : ∀ m, ¬TransGen (Order.Precedes members (l.needs c)) m m := fun m h =>
    hacyc m (TransGen.mono (fun n m (h : Order.Precedes _ _ n m) => ⟨hpending m h.1, h.2⟩) m m h)
  have hself : ∀ m ∈ members, m ∉ l.needs c m := fun m hm hn =>
    hacyc m (.single ⟨hpending m hm, hn⟩)
  have hmisplaced := Order.misplaced?_candidate hprecedes hnodup hclosed
  have hfind : (members.find? fun m => m ∈ l.needs c m) = none :=
    List.find?_eq_none.2 fun m hm hn => hself m hm (of_decide_eq_true hn)
  have hmem (m : String) : m ∈ Order.candidate members (l.needs c) ↔ m ∈ members :=
    Order.mem_candidate hnodup
  refine ⟨Order.candidate members (l.needs c), ?_, ?_, Order.nodup_candidate hnodup,
    fun m hm => hpending m ((hmem m).1 hm), ?_⟩
  · unfold buildOrder
    rw [if_neg hname.2, hname.1]
    refine bind_eq_ok_iff.2 ⟨members, hmembers, ?_⟩
    simp only [hfind, hmisplaced]
    rfl
  · exact (hmem name).2 (mem_of_closure hmembers (.inr (List.mem_singleton_self name)))
  · exact Order.ready_of_misplaced? (fun m hm => hself m ((hmem m).1 hm)) hmisplaced

/-- A composite is alone in its order if all that it instantiates is registered. -/
theorem buildOrder_of_registered {d : Description} (hd : l.description? name = some d)
    (hname : ¬c.contains name = true) (h : ∀ n ∈ d.dependencies, c.contains n = true) :
    l.buildOrder c name = .ok [name] := by
  have hmissing : l.missing c d.dependencies = .ok [] :=
    missing_eq_ok_iff.2 ⟨fun n hn => .inl (h n hn),
      (List.filter_eq_nil_iff.2 (by simpa using h)).symm⟩
  have hneeds : l.needs c name = [] := by
    simp only [needs, prerequisites, hd, hmissing]
  have hmembers : l.closure c [] [name] = .ok [name] := by
    rw [closure, if_neg List.not_mem_nil]
    split
    · rename_i hnone
      cases hd.symm.trans hnone
    · rename_i d' hd'
      cases hd.symm.trans hd'
      rw [hmissing]
      simp [closure]
  have hcandidate : Order.candidate [name] (l.needs c) = [name] := by
    simp [Order.candidate, Order.searchAll, Order.search, Order.dependents, hneeds]
  unfold buildOrder
  rw [if_neg hname, contains_iff_description?.2 ⟨d, hd⟩]
  refine bind_eq_ok_iff.2 ⟨[name], hmembers, ?_⟩
  simp only [List.find?_cons, hneeds, hcandidate, Order.misplaced?]
  rfl
end Netlist.Library
