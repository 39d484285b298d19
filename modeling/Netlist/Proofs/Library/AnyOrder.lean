import Netlist.Proofs.Catalog.Reordered
import Netlist.Proofs.Library.Extension

/-!
# Libraries in another order

The order in which a library holds its descriptions decides which composite is assembled first, but
not which composites can be assembled nor what they are. If all of them can be in one order, each is
assembled the same in any other.

## Main definitions

* `Netlist.Library.descriptions`: the descriptions in a library in order.
* `Netlist.Library.Reordered`: two libraries hold the same descriptions.

## Main results

* `Netlist.Library.reordered_of_ofDescriptions`: libraries of the same descriptions.
* `Netlist.Library.exists_loadAll_of_reordered`: if one library is loaded, so is the other.
* `Netlist.Library.loadAll_of_reordered`: loading everything does not depend on the order.
-/

namespace Netlist

namespace Library

variable {b : Boundary} {c e : Catalog} {l l' : Library} {name : String} {x : Description}

/-- The descriptions in a library in order. -/
def descriptions (l : Library) : List Description :=
  l.entries.values.map Entry.description

/-- Two libraries assemble with the same boundary and hold the same descriptions, in whatever order
and from whatever files. -/
structure Reordered (l l' : Library) : Prop where
  boundary : l.boundary = l'.boundary
  descriptions : l.descriptions.Perm l'.descriptions

theorem Reordered.symm (h : l.Reordered l') : l'.Reordered l :=
  ⟨h.boundary.symm, h.descriptions.symm⟩

/-! ### Libraries of the same descriptions -/

/-- A description that is added comes last. -/
theorem descriptions_of_insert {path : Option String} (h : l.insert x path = .ok l') :
    l'.boundary = l.boundary ∧ l'.descriptions = l.descriptions ++ [x] := by
  unfold Library.insert at h
  split at h
  · rename_i hnew
    cases h
    refine ⟨rfl, ?_⟩
    have hentries := OrderedMap.entries_insert_of_notMem (⟨x, path⟩ : Entry)
      (OrderedMap.get?_eq_none_iff.1 hnew)
    simp only [descriptions, OrderedMap.values, hentries, List.map_append, List.map_cons,
      List.map_nil]
  · split at h <;> cases h

/-- A library of several descriptions holds them in their order. -/
theorem descriptions_of_ofDescriptions {xs : List Description}
    (h : ofDescriptions b xs = .ok l) : l.boundary = b ∧ l.descriptions = xs := by
  have hfold (xs : List Description) (l₀ : Library)
      (h : xs.foldlM (fun l d => l.insert d none) l₀ = .ok l) :
      l.boundary = l₀.boundary ∧ l.descriptions = l₀.descriptions ++ xs := by
    induction xs generalizing l₀ with
    | nil =>
      cases h
      exact ⟨rfl, (List.append_nil _).symm⟩
    | cons x xs ih =>
      obtain ⟨l₁, hinsert, h⟩ := bind_eq_ok_iff.1 h
      obtain ⟨hboundary₁, hdescriptions₁⟩ := descriptions_of_insert hinsert
      obtain ⟨hboundary, hdescriptions⟩ := ih l₁ h
      refine ⟨hboundary.trans hboundary₁, ?_⟩
      rw [hdescriptions, hdescriptions₁, List.append_assoc, List.singleton_append]
  exact hfold xs (empty b) h

theorem reordered_of_ofDescriptions {xs ys : List Description} (hxs : ofDescriptions b xs = .ok l)
    (hys : ofDescriptions b ys = .ok l') (h : xs.Perm ys) : l.Reordered l' := by
  obtain ⟨hb, rfl⟩ := descriptions_of_ofDescriptions hxs
  obtain ⟨hb', rfl⟩ := descriptions_of_ofDescriptions hys
  exact ⟨hb.trans hb'.symm, h⟩

/-! ### What the order does not matter for -/

/-- In a library of parsed descriptions, the description of a composite is the one with its name. -/
theorem Parsed.description?_eq_some_iff (hl : l.Parsed) :
    l.description? name = some x ↔ x ∈ l.descriptions ∧ x.name = name := by
  constructor
  · intro hx
    refine ⟨?_, hl.filed name x hx⟩
    obtain ⟨e, he, rfl⟩ := Option.map_eq_some_iff.1 hx
    exact List.mem_map_of_mem (List.mem_map_of_mem (OrderedMap.get?_eq_some_iff.1 he))
  · rintro ⟨hx, rfl⟩
    obtain ⟨_, hvalue, rfl⟩ := List.mem_map.1 hx
    obtain ⟨⟨key, e⟩, he, rfl⟩ := List.mem_map.1 hvalue
    have hkey : l.description? key = some e.description :=
      Option.map_eq_some_iff.2 ⟨e, OrderedMap.get?_eq_some_iff.2 he, rfl⟩
    rw [hl.filed key _ hkey]
    exact hkey

namespace Reordered

/-- In another order, descriptions under their names are as good as before. -/
theorem parsed (h : l.Reordered l') (hl : l.Parsed)
    (hnames : ∀ e ∈ l'.entries.entries, e.2.description.name = e.1) : l'.Parsed := by
  refine parsed_of_entries fun e he => ⟨hnames e he, ?_⟩
  have hmem : e.2.description ∈ l.descriptions :=
    h.descriptions.mem_iff.2 (List.mem_map_of_mem (List.mem_map_of_mem he))
  exact hl.checked _ _ (hl.description?_eq_some_iff.2 ⟨hmem, rfl⟩)

variable (h : l.Reordered l') (hl : l.Parsed) (hl' : l'.Parsed)
include h hl hl'

theorem description?_eq : l.description? = l'.description? := by
  refine funext fun name => Option.ext fun x => ?_
  rw [hl.description?_eq_some_iff, hl'.description?_eq_some_iff, h.descriptions.mem_iff]

theorem contains_iff : l.contains name = true ↔ l'.contains name = true := by
  rw [contains_iff_description?, contains_iff_description?, h.description?_eq hl hl']

/-- What one library has assembled, the other one has. -/
theorem finished (he : l.Finished c e) : l'.Finished c e where
  filed := hl'.filed
  gathered := by
    refine ⟨he.gathered.types, he.gathered.grows, he.gathered.acc, fun m hm => ?_⟩
    refine (he.gathered.recorded m hm).imp_right ?_
    rintro ⟨x, B, hdescribed, hregistered, hyields⟩
    exact ⟨x, B, h.description?_eq hl hl' ▸ hdescribed, hregistered, h.boundary ▸ hyields⟩
  contains m hm := he.contains m ((h.contains_iff hl hl').2 hm)

end Reordered

/-! ### Loading -/

/-- Loading everything appends as many modules as it answers. -/
theorem size_of_loadAll (hl : l.Parsed) {n : Nat} (h : l.loadAll.runOn c = (.ok n, e)) :
    e.modules.entries.length = c.modules.entries.length + n := by
  obtain ⟨es, hes, hcount⟩ := extends_of_buildAll hl h
  rw [hes.entries, List.length_append, hcount n rfl]

/-- If everything can be loaded in one order, it can be in another. The same modules are registered
then, and as many. -/
theorem exists_loadAll_of_reordered (hl : l.Parsed) (hl' : l'.Parsed) (h : l.Reordered l') {n : Nat}
    (hrun : l.loadAll.runOn c = (.ok n, e)) :
    ∃ e', l'.loadAll.runOn c = (.ok n, e') ∧ e.Reordered e' := by
  have he : l'.Finished c e := h.finished hl hl' (finished_of_loadAll hl.filed hrun)
  obtain ⟨n', e', hrun', hgrows⟩ := he.exists_buildAll hl'.clear
    (fun m hm => OrderedMap.contains_iff_mem_keys.2 hm) (.refl l' c) he.gathered.grows
  have he' : l'.Finished c e' := finished_of_loadAll hl'.filed hrun'
  -- both runs register what was registered before and what is described
  have hcontains (m : String) (hm : e.contains m = true) : e'.contains m = true := by
    rcases he.gathered.recorded m hm with hm | ⟨x, B, hrec⟩
    · exact he'.gathered.grows.contains hm
    · exact he'.contains m (contains_iff_description?.2 ⟨x, hrec.described⟩)
  have hmodule : e.module? = e'.module? := by
    refine funext fun m => Option.ext fun M => ⟨fun hM => ?_, hgrows.module? m M⟩
    obtain ⟨M', hM'⟩ := Catalog.contains_iff_module?.1
      (hcontains m (Catalog.contains_iff_module?.2 ⟨M, hM⟩))
    rw [hM', ← hgrows.module? m M' hM', hM]
  have hmodules : e.modules.entries.Perm e'.modules.entries := OrderedMap.perm_of_get?_eq hmodule
  have hcount : n' = n := by
    have hsize := size_of_loadAll hl hrun
    have hsize' := size_of_loadAll hl' hrun'
    rw [hmodules.length_eq, hsize'] at hsize
    exact Nat.add_left_cancel hsize
  refine ⟨e', hcount ▸ hrun', ?_, hmodules⟩
  rw [he.gathered.types, he'.gathered.types]

/-- In any two orders, all descriptions can be loaded on top of a catalog or not all of them can be.
If they can, the catalogs that result agree, and as many composites are assembled. -/
theorem loadAll_of_reordered (hl : l.Parsed) (hl' : l'.Parsed) (h : l.Reordered l')
    (c : Catalog) :
    ((∃ n e, l.loadAll.runOn c = (.ok n, e)) ↔ ∃ n e, l'.loadAll.runOn c = (.ok n, e)) ∧
      ∀ n n' e e', l.loadAll.runOn c = (.ok n, e) → l'.loadAll.runOn c = (.ok n', e') →
        e.Agree e' ∧ n = n' := by
  refine ⟨⟨?_, ?_⟩, ?_⟩
  · rintro ⟨n, e, hrun⟩
    obtain ⟨e', hrun', -⟩ := exists_loadAll_of_reordered hl hl' h hrun
    exact ⟨n, e', hrun'⟩
  · rintro ⟨n, e, hrun⟩
    obtain ⟨e', hrun', -⟩ := exists_loadAll_of_reordered hl' hl h.symm hrun
    exact ⟨n, e', hrun'⟩
  · intro n n' e e' hrun hrun'
    obtain ⟨e₁, hrun₁, hreordered⟩ := exists_loadAll_of_reordered hl hl' h hrun
    cases hrun₁.symm.trans hrun'
    exact ⟨hreordered.agree, rfl⟩

end Library

/-- The descriptions of the sample library with the row in front of its stages. -/
def Sample.rowFirst : Library :=
  ⟨.standard, .ofList [("row", ⟨describeRow, none⟩), ("stage", ⟨describeAround "stage" "x", none⟩),
    ("aside", ⟨describeAround "aside" "y", none⟩)]⟩

namespace Library

/-- The sample library is loaded in either order. -/
theorem loadAll_of_reordered_rowFirst : Sample.library.Parsed ∧ Sample.rowFirst.Parsed ∧
    Sample.library.Reordered Sample.rowFirst ∧ Sample.library.names ≠ Sample.rowFirst.names ∧
      ∃ e, Sample.rowFirst.loadAll.runOn Sample.leaves = (.ok 3, e) ∧ Sample.allLoaded.Agree e := by
  have hl := Sample.parsed_library
  have hreordered : Sample.library.Reordered Sample.rowFirst := ⟨rfl, by decide_cbv⟩
  have hl' : Sample.rowFirst.Parsed := hreordered.parsed hl (by decide)
  obtain ⟨hiff, hsame⟩ := loadAll_of_reordered hl hl' hreordered Sample.leaves
  obtain ⟨n, e, hrun⟩ := hiff.1 ⟨3, Sample.allLoaded, Sample.loadAll_library⟩
  obtain ⟨hagree, rfl⟩ := hsame 3 n Sample.allLoaded e Sample.loadAll_library hrun
  exact ⟨hl, hl', hreordered, by decide, e, hrun, hagree⟩

end Library

end Netlist
