import Mathlib
import Netlist.Proofs.Catalog.Containment
import Netlist.Proofs.Document.Merging

/-!
# Saved catalogs

A catalog is checked as a whole when it is read. What passes these checks is printed and read back
with the links in it numbered anew, and a catalog that was read is read back as it is.

## Main definitions

* `Netlist.Catalog.Reads`: the module that an entry of a document stands for.
* `Netlist.Catalog.packed`: a catalog with the links inside its composites numbered anew.
* `Netlist.Catalog.Reloadable`: a catalog passes the checks of reading.

## Main results

* `Netlist.Catalog.ofDocument_eq_ok_iff`: which catalog is read from a document.
* `Netlist.Catalog.Reloadable.ofText_toText`: such a catalog is read back.
* `Netlist.Catalog.Reloadable.agree_packed`: what is read back agrees with what was printed.
* `Netlist.Catalog.reloadable_of_ofDocument`: catalogs that were read pass the checks.
* `Netlist.Catalog.ofText_toText_of_ofText`: a catalog that was read is read back as it is.
-/

namespace Netlist.Catalog

variable {c d : Catalog}

/-! ### Numbering links anew -/

/-- The module with the links inside it numbered anew. -/
def packModule (m : Module) : Module :=
  { m with body := m.body.map Graph.packed }

/-- The catalog with the links inside its composites numbered anew. -/
def packed (c : Catalog) : Catalog :=
  { c with modules := c.modules.map packModule }

@[simp] theorem names_packed (c : Catalog) : c.packed.names = c.names :=
  OrderedMap.keys_map _ _

theorem module?_packed (c : Catalog) (name : String) :
    c.packed.module? name = (c.module? name).map packModule :=
  OrderedMap.get?_map _ _ _

theorem body?_packed (c : Catalog) (name : String) :
    c.packed.body? name = (c.body? name).map Graph.packed := by
  rw [body?, body?, module?_packed]
  cases c.module? name <;> rfl

theorem contains_packed (c : Catalog) (name : String) :
    c.packed.contains name = c.contains name := by
  rw [Bool.eq_iff_iff, contains_iff_module?, contains_iff_module?, module?_packed]
  simp only [Option.map_eq_some_iff, exists_comm, exists_and_left, exists_eq', and_true]

theorem mem_bodies {name : String} {g : Graph} :
    (name, g) ∈ c.bodies ↔ c.body? name = some g := by
  simp only [bodies, List.mem_filterMap, Option.map_eq_some_iff, Prod.mk.injEq, body?_eq_some_iff,
    module?, OrderedMap.get?_eq_some_iff]
  constructor
  · rintro ⟨⟨name, m⟩, hm, g, hg, rfl, rfl⟩
    exact ⟨m, hm, hg⟩
  · rintro ⟨m, hm, hg⟩
    exact ⟨_, hm, g, hg, rfl, rfl⟩

/-- Numbering links anew does not change what is contained in what. -/
theorem within_packed (c : Catalog) : c.packed.Within = c.Within := by
  funext inner outer
  simp only [Within, body?_packed, Option.map_eq_some_iff, exists_exists_and_eq_and,
    Graph.instances_packed]

/-- Instances offer the same ports. -/
private theorem portType_packed {i : Instance} {port : String} {used : Direction}
    {type : PortType} : Graph.portType c.packed i port used = .ok type ↔
      Graph.portType c i port used = .ok type := by
  simp only [Graph.portType_eq_ok_iff, module?_packed, Option.map_eq_some_iff]
  constructor
  · rintro ⟨_, dir, ⟨m, hm, rfl⟩, hd, ht⟩
    refine ⟨m, dir, hm, hd, ?_⟩
    cases dir <;> exact ht
  · rintro ⟨m, dir, hm, hd, ht⟩
    refine ⟨_, dir, ⟨m, hm, rfl⟩, hd, ?_⟩
    cases dir <;> exact ht

/-- A sound graph stays sound when links are numbered anew, in it and in the catalog. -/
theorem sound_packed {g : Graph} (h : g.Sound c) : g.packed.Sound c.packed where
  registered i hi := (contains_packed c i.module).trans (h.registered i hi)
  fits w hw := by
    obtain ⟨i, j, hi, hj, s, t, hs, ht, hst⟩ := h.fits w (g.wires_packed ▸ hw)
    exact ⟨i, j, hi, hj, s, t, portType_packed.2 hs, portType_packed.2 ht, hst⟩

/-! ### Reading -/

/-- The module that an entry of a document stands for. Its ports are legal. -/
structure Reads (types : TypeTable) (r : String × ModuleRecord) (e : String × Module) : Prop where
  name : e.1 = r.1
  inputs : e.2.inputs = r.2.inputs
  outputs : e.2.outputs = r.2.outputs
  body : bodyOfRecord r.1 r.2 = .ok e.2.body
  ports : checkPorts types e.1 e.2.inputs e.2.outputs = .ok ()

/-- The inside of a module that was read is a graph that was read. -/
theorem Reads.inside {types : TypeTable} {r : String × ModuleRecord} {e : String × Module}
    (h : Reads types r e) {g : Graph} (hg : e.2.body = some g) :
    g.WellFormed ∧ g.Filled ∧ g.packed = g := by
  have hbody := h.body
  rw [hg] at hbody
  unfold bodyOfRecord at hbody
  split at hbody
  · cases hbody
  · obtain ⟨_, hread, heq⟩ := map_eq_ok_iff.1 hbody
    cases heq
    exact Graph.ofDocument_eq_ok hread
  · cases hbody
  · cases hbody

/-- The module of an entry is added under a new name. -/
theorem addRecord_eq_ok_iff {r : String × ModuleRecord} : addRecord c r = .ok d ↔
    r.1 ∉ c.modules.keys ∧ ∃ m, Reads c.types r (r.1, m) ∧ d = c.put r.1 m := by
  have hkeys : c.contains r.1 = true ↔ r.1 ∈ c.modules.keys := OrderedMap.contains_iff_mem_keys
  rw [← hkeys]
  constructor
  · intro h
    obtain ⟨body, hbody, h⟩ := bind_eq_ok_iff.1 h
    split_ifs at h with hnew
    · cases h
    · obtain ⟨⟨⟩, hports, h⟩ := bind_eq_ok_iff.1 h
      cases h
      exact ⟨hnew, ⟨r.2.inputs, r.2.outputs, body⟩, ⟨rfl, rfl, rfl, hbody, hports⟩, rfl⟩
  · rintro ⟨hnew, ⟨inputs, outputs, body⟩, ⟨-, hinputs, houtputs, hbody, hports⟩, rfl⟩
    cases hinputs
    cases houtputs
    refine bind_eq_ok_iff.2 ⟨body, hbody, ?_⟩
    rw [if_neg hnew]
    exact bind_eq_ok_iff.2 ⟨⟨⟩, hports, rfl⟩

/-- The modules of several entries with new names are added in order. -/
theorem foldlM_addRecord_eq_ok_iff {rs : List (String × ModuleRecord)}
    (hnew : (c.modules.keys ++ rs.map Prod.fst).Nodup) : rs.foldlM addRecord c = .ok d ↔
      d.types = c.types ∧ ∃ es, rs.Forall₂ (Reads c.types) es ∧
        d.modules.entries = c.modules.entries ++ es := by
  induction rs generalizing c with
  | nil =>
    constructor
    · intro h
      cases h
      exact ⟨rfl, [], .nil, (List.append_nil _).symm⟩
    · rintro ⟨htypes, es, hes, hentries⟩
      cases hes
      obtain ⟨types, modules⟩ := d
      cases htypes
      rw [List.append_nil] at hentries
      obtain rfl : modules = c.modules := OrderedMap.ext_entries hentries
      rfl
  | cons r rs ih =>
    rw [List.map_cons, List.append_cons] at hnew
    have hr : r.1 ∉ c.modules.keys := fun hm =>
      List.disjoint_of_nodup_append hnew.of_append_left hm (List.mem_singleton_self _)
    have hentries (m : Module) :
        (c.put r.1 m).modules.entries = c.modules.entries ++ [(r.1, m)] :=
      OrderedMap.entries_insert_of_notMem m hr
    have hkeys (m : Module) : (c.put r.1 m).modules.keys = c.modules.keys ++ [r.1] := by
      rw [OrderedMap.keys, hentries, List.map_append]
      rfl
    rw [List.foldlM_cons, bind_eq_ok_iff]
    simp only [addRecord_eq_ok_iff]
    constructor
    · rintro ⟨_, ⟨-, m, hm, rfl⟩, h⟩
      obtain ⟨htypes, es, hes, hd⟩ := (ih (hkeys m ▸ hnew)).1 h
      exact ⟨htypes, (r.1, m) :: es, .cons hm hes,
        by rw [hd, hentries, List.append_assoc, List.singleton_append]⟩
    · rintro ⟨htypes, es, hes, hd⟩
      obtain ⟨⟨name, m⟩, es, hm, hrest, rfl⟩ := List.forall₂_cons_left_iff.1 hes
      obtain rfl : name = r.1 := hm.name
      refine ⟨_, ⟨hr, m, hm, rfl⟩, (ih (hkeys m ▸ hnew)).2 ⟨htypes, es, hrest, ?_⟩⟩
      rw [hd, hentries, List.append_assoc, List.singleton_append]

/-- A document is read as the catalog of its types and of the modules that its entries stand for, if
its types are valid, the insides of composites are sound for this catalog, and none is inside of
itself. -/
theorem ofDocument_eq_ok_iff {r : CatalogDocument} : ofDocument r = .ok c ↔
    r.types.validate = .ok () ∧ c.types = r.types ∧
      r.modules.entries.Forall₂ (Reads r.types) c.modules.entries ∧
      (∀ name g, c.body? name = some g → g.Sound c) ∧ WellFounded c.Within := by
  have hmodules (c' : Catalog) : r.modules.entries.foldlM addRecord (ofTypes r.types) = .ok c' ↔
      c'.types = r.types ∧ r.modules.entries.Forall₂ (Reads r.types) c'.modules.entries := by
    rw [foldlM_addRecord_eq_ok_iff (c := ofTypes r.types) r.modules.nodup_keys]
    exact and_congr_right fun _ => ⟨fun ⟨_, hes, he⟩ => he ▸ hes, fun hes => ⟨_, hes, rfl⟩⟩
  have hbodies (hc : r.modules.entries.Forall₂ (Reads r.types) c.modules.entries) :
      (c.bodies.forM fun b => b.2.validate c) = .ok ⟨⟩ ↔
        ∀ name g, c.body? name = some g → g.Sound c := by
    rw [forM_eq_ok_iff, Prod.forall]
    refine forall₂_congr fun name g => ?_
    rw [mem_bodies]
    refine forall_congr' fun hg => Graph.validate_eq_ok_iff ?_
    obtain ⟨m, hm, hg⟩ := body?_eq_some_iff.1 hg
    obtain ⟨_, -, hread⟩ := exists_mem_of_forall₂ hc (OrderedMap.get?_eq_some_iff.1 hm)
    exact (hread.inside hg).1
  have hcontained : (c.bodies.forM fun b => c.checkBody b.1 b.2) = .ok ⟨⟩ ↔
      WellFounded c.Within := by
    rw [forM_eq_ok_iff, Prod.forall]
    simp only [mem_bodies]
    exact ⟨fun h => wellFounded_of_acyclic (acyclic_of_checkBody h),
      fun h _ _ hg => checkBody_of_wellFounded h hg⟩
  constructor
  · intro h
    obtain ⟨⟨⟩, htypes, h⟩ := bind_eq_ok_iff.1 h
    obtain ⟨c', hread, h⟩ := bind_eq_ok_iff.1 h
    obtain ⟨⟨⟩, hvalid, h⟩ := bind_eq_ok_iff.1 h
    obtain ⟨⟨⟩, hchecked, h⟩ := bind_eq_ok_iff.1 h
    cases h
    obtain ⟨ht, hc⟩ := (hmodules c).1 hread
    exact ⟨htypes, ht, hc, (hbodies hc).1 hvalid, hcontained.1 hchecked⟩
  · rintro ⟨htypes, ht, hc, hsound, hwf⟩
    exact bind_eq_ok_iff.2 ⟨⟨⟩, htypes, bind_eq_ok_iff.2 ⟨c, (hmodules c).2 ⟨ht, hc⟩,
      bind_eq_ok_iff.2 ⟨⟨⟩, (hbodies hc).2 hsound, bind_eq_ok_iff.2 ⟨⟨⟩, hcontained.2 hwf, rfl⟩⟩⟩⟩

/-! ### Reading what was written -/

/-- A catalog passes the checks of reading: its types are valid, the ports of its modules are legal,
and the insides of its composites are sound, have no link without bindings, and do not lead back to
their composites. -/
structure Reloadable (c : Catalog) : Prop where
  types : c.types.validate = .ok ()
  ports : ∀ e ∈ c.modules.entries, checkPorts c.types e.1 e.2.inputs e.2.outputs = .ok ()
  wellFormed : ∀ name g, c.body? name = some g → g.WellFormed
  filled : ∀ name g, c.body? name = some g → g.Filled
  sound : ∀ name g, c.body? name = some g → g.Sound c
  checkBody : ∀ name g, c.body? name = some g → c.checkBody name g = .ok ()

namespace Reloadable

/-- The entry of a module is read as the module with the links inside it numbered anew. -/
theorem reads_packModule (h : c.Reloadable) {e : String × Module} (he : e ∈ c.modules.entries) :
    Reads c.types (e.1, ⟨e.2.inputs, e.2.outputs, e.2.isLeaf, e.2.body.map Graph.toDocument⟩)
      (e.1, packModule e.2) where
  name := rfl
  inputs := rfl
  outputs := rfl
  body := by
    obtain ⟨name, inputs, outputs, body⟩ := e
    cases body with
    | none => rfl
    | some g =>
      have hg : c.body? name = some g :=
        body?_eq_some_iff.2 ⟨_, OrderedMap.get?_eq_some_iff.2 he, rfl⟩
      have hread := Graph.ofDocument_toDocument_of_filled (h.wellFormed name g hg)
        (h.filled name g hg)
      exact map_eq_ok_iff.2 ⟨_, hread, rfl⟩
  ports := h.ports e he

/-- Reading back the document of a catalog that passes the checks numbers its links anew. -/
theorem ofDocument_toDocument (h : c.Reloadable) : ofDocument c.toDocument = .ok c.packed := by
  refine ofDocument_eq_ok_iff.2 ⟨h.types, rfl, ?_, fun name g hg => ?_, ?_⟩
  · refine List.forall₂_map_left_iff.2 (List.forall₂_map_right_iff.2 ?_)
    exact List.forall₂_same.2 fun e he => h.reads_packModule he
  · rw [body?_packed] at hg
    obtain ⟨B, hB, rfl⟩ := Option.map_eq_some_iff.1 hg
    exact sound_packed (h.sound name B hB)
  · exact within_packed c ▸ wellFounded_of_acyclic (acyclic_of_checkBody h.checkBody)

/-- What is read back agrees with what was written. -/
theorem agree_packed (h : c.Reloadable) : c.Agree c.packed := by
  refine ⟨OrderedMap.AgreeBy.refl fun e _ => OrderedMap.Agree.refl e.2,
    OrderedMap.AgreeBy.map fun e he => ?_⟩
  refine ⟨OrderedMap.Agree.refl _, OrderedMap.Agree.refl _, ?_⟩
  obtain ⟨name, inputs, outputs, body⟩ := e
  cases body with
  | none => trivial
  | some g =>
    have hg : c.body? name = some g :=
      body?_eq_some_iff.2 ⟨_, OrderedMap.get?_eq_some_iff.2 he, rfl⟩
    exact (h.wellFormed name g hg).agree_packed

/-- A catalog that passes the checks is read back from its text. -/
theorem ofText_toText (h : c.Reloadable) : ofText c.toText = .ok c.packed := by
  rw [ofText, toText, Json.parse?_pretty, Option.bind_some, CatalogDocument.ofJson?_toJson]
  exact h.ofDocument_toDocument

end Reloadable

/-! ### What was read -/

/-- Catalogs that were read pass the checks of reading again, and their links are numbered without
gaps. -/
theorem reloadable_of_ofDocument {r : CatalogDocument} (h : ofDocument r = .ok c) :
    c.Reloadable ∧ c.packed = c := by
  obtain ⟨htypes, ht, hmodules, hsound, hwf⟩ := ofDocument_eq_ok_iff.1 h
  have hread e (he : e ∈ c.modules.entries) := exists_mem_of_forall₂ hmodules he
  have hbody {name : String} {g : Graph} (hg : c.body? name = some g) :
      g.WellFormed ∧ g.Filled ∧ g.packed = g := by
    obtain ⟨m, hm, hg⟩ := body?_eq_some_iff.1 hg
    obtain ⟨_, -, hr⟩ := hread _ (OrderedMap.get?_eq_some_iff.1 hm)
    exact hr.inside hg
  refine ⟨⟨ht ▸ htypes, fun e he => ?_, fun _ _ hg => (hbody hg).1, fun _ _ hg => (hbody hg).2.1,
    hsound, fun _ _ hg => checkBody_of_wellFounded hwf hg⟩, ?_⟩
  · obtain ⟨_, -, hr⟩ := hread e he
    exact ht ▸ hr.ports
  · refine congrArg (Catalog.mk c.types) (OrderedMap.ext_entries ?_)
    refine (List.map_congr_left fun e he => ?_).trans (List.map_id _)
    obtain ⟨name, inputs, outputs, body⟩ := e
    cases body with
    | none => rfl
    | some g =>
      obtain ⟨_, -, hr⟩ := hread _ he
      simp only [packModule, Option.map_some, (hr.inside rfl).2.2, id]

theorem reloadable_of_ofText {s : String} (h : ofText s = .ok c) : c.Reloadable ∧ c.packed = c := by
  unfold ofText at h
  split at h
  · exact reloadable_of_ofDocument h
  · cases h

/-- A catalog that was read from any text is read back from its own text as it is. So no order, no
slot and no letter of the printed text is different the second time. -/
theorem ofText_toText_of_ofText {s : String} (h : ofText s = .ok c) :
    ofText c.toText = .ok c ∧ c.Agree c := by
  obtain ⟨hc, hpacked⟩ := reloadable_of_ofText h
  have hread := hc.ofText_toText
  have hagree := hc.agree_packed
  rw [hpacked] at hread hagree
  exact ⟨hread, hagree⟩

end Netlist.Catalog

namespace Netlist

namespace Sample

/-- A catalog as nothing would write it: types, roles and an inside are left out, a composite comes
before the leaf in it, and two links have the same ends. -/
def looseCatalog : Json :=
  let node (name : String) : Json := .ofMembers [("id", .text name), ("module_name", .text "leaf")]
  let link (port : String) : Json :=
    .ofMembers [("source", .text "x"), ("target", .text "y"),
      ("port_connections", .array [.array [.text "o", .text port]])]
  let eight : Json := .number (some 8)
  .ofMembers [("modules", .ofMembers [
    ("top", .ofMembers [("input_ports", .ofMembers []), ("output_ports", .ofMembers []),
      ("is_leaf", .bool false),
      ("internal_graph", .ofMembers [("directed", .bool true),
        ("nodes", .array [node "x", node "y"]), ("links", .array [link "i", link "j"])])]),
    ("leaf", .ofMembers [("input_ports", .ofMembers [("i", eight), ("j", eight)]),
      ("output_ports", .ofMembers [("o", eight)]), ("is_leaf", .bool true)])])]

end Sample

namespace Catalog

theorem ofText_toText_loose : ∃ c, ofText Sample.looseCatalog.pretty = .ok c ∧
    ofText c.toText = .ok c ∧ c.Agree c := by
  have hread : (ofText Sample.looseCatalog.pretty).isOk = true := by
    rw [ofText, Json.parse?_pretty]
    decide_cbv
  obtain ⟨c, hc⟩ := exists_eq_ok_of_isOk hread
  exact ⟨c, hc, ofText_toText_of_ofText hc⟩

end Catalog

end Netlist
