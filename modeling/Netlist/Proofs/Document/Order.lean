import Netlist.Proofs.Catalog.Reordered
import Netlist.Proofs.Document.Catalog
import Netlist.Proofs.TypeTable.References
import Netlist.Sample

/-!
# Documents in any order

A catalog is read entry by entry, and the types are gone through in their order. What is read
depends on the entries alone: types and modules are looked up by name, types may refer to later
ones, and composites are checked against all modules.

## Main definitions

* `Netlist.CatalogDocument.Reordered`: two documents list the same types and the same modules.

## Main results

* `Netlist.Catalog.exists_ofDocument_of_reordered`: documents are read in any order.
* `Netlist.Catalog.ofDocument_of_reordered`: the catalogs agree.
-/

namespace Netlist

/-- Two documents list the same types and the same modules. -/
structure CatalogDocument.Reordered (d e : CatalogDocument) : Prop where
  types : d.types.entries.Perm e.types.entries
  modules : d.modules.entries.Perm e.modules.entries

theorem CatalogDocument.Reordered.symm {d e : CatalogDocument} (h : d.Reordered e) :
    e.Reordered d :=
  ⟨h.types.symm, h.modules.symm⟩

namespace Catalog

variable {c c' : Catalog} {d e : CatalogDocument}

/-- Ports that are legal stay legal if types come in another order. -/
theorem Reads.of_perm {t u : TypeTable} (htu : t.entries.Perm u.entries)
    {r : String × ModuleRecord} {e : String × Module} (h : Reads t r e) : Reads u r e := by
  have hlegal (f : String × PortType) : LegalPort t f ↔ LegalPort u f := by
    simp only [LegalPort, OrderedMap.contains, OrderedMap.get?_eq_of_perm htu]
  refine { h with ports := ?_ }
  have hports := h.ports
  simpa only [checkPorts_eq_ok_iff, hlegal] using hports

/-- If a document is read as a catalog, another order of it is read as another order of the
catalog. -/
theorem exists_ofDocument_of_reordered (h : d.Reordered e) (hc : ofDocument d = .ok c) :
    ∃ c', ofDocument e = .ok c' ∧ c.Reordered c' := by
  obtain ⟨hvalid, htypes, hread, hsound, hwf⟩ := ofDocument_eq_ok_iff.1 hc
  obtain ⟨es, hes, hperm⟩ := List.perm_comp_forall₂ h.modules.symm hread
  have hnodup : (es.map Prod.fst).Nodup := (hperm.map _).nodup_iff.2 c.modules.nodup_keys
  have hreordered : c.Reordered ⟨e.types, es, hnodup⟩ := ⟨htypes ▸ h.types, hperm.symm⟩
  refine ⟨⟨e.types, es, hnodup⟩, ofDocument_eq_ok_iff.2 ⟨?_, rfl, ?_, ?_, ?_⟩, hreordered⟩
  · exact TypeTable.validate_of_perm h.types hvalid
  · exact hes.imp fun _ _ hr => hr.of_perm h.types
  · intro name g hg
    exact (hsound name g (hreordered.body?_eq ▸ hg)).mono hreordered.grows
  · exact hreordered.within_eq ▸ hwf

/-- In any two orders, a document is read or not, and the catalogs that are read agree. -/
theorem ofDocument_of_reordered (h : d.Reordered e) :
    ((∃ c, ofDocument d = .ok c) ↔ ∃ c', ofDocument e = .ok c') ∧
      ∀ c c', ofDocument d = .ok c → ofDocument e = .ok c' → c.Agree c' := by
  refine ⟨⟨?_, ?_⟩, ?_⟩
  · rintro ⟨c, hc⟩
    exact (exists_ofDocument_of_reordered h hc).imp fun _ => And.left
  · rintro ⟨c', hc'⟩
    exact (exists_ofDocument_of_reordered h.symm hc').imp fun _ => And.left
  · intro c c' hc hc'
    obtain ⟨c₁, hc₁, hreordered⟩ := exists_ofDocument_of_reordered h hc
    cases hc₁.symm.trans hc'
    exact hreordered.agree

end Catalog

namespace Sample

/-- The entries of a composite and of the leaf in it, whose ports have a type that refers to
another. -/
def pairTypes : List (String × Ports) :=
  [("pair", .ofList [("l", .named "byte"), ("r", .named "byte")]),
    ("byte", .ofList [("b", .bits 8)])]

@[inherit_doc pairTypes]
def pairModules : List (String × ModuleRecord) :=
  [("stage", ⟨.ofList [("i", .named "pair")], .ofList [("o", .named "pair")], false,
      some inside.toDocument⟩),
    ("leaf", ⟨.ofList [("i", .named "pair")], .ofList [("o", .named "pair")], true, none⟩)]

/-- A document in which types and modules come before those that they refer to. -/
def usersFirst : CatalogDocument :=
  ⟨.ofList pairTypes, .ofList pairModules⟩

/-- The same document with its types and modules in the other order. -/
def usersLast : CatalogDocument :=
  ⟨.ofList pairTypes.reverse, .ofList pairModules.reverse⟩

end Sample

namespace Catalog

theorem ofDocument_of_reordered_users : Sample.usersFirst ≠ Sample.usersLast ∧
    ∃ c c', ofDocument Sample.usersFirst = .ok c ∧ ofDocument Sample.usersLast = .ok c' ∧
      c.Agree c' := by
  have hreordered : Sample.usersFirst.Reordered Sample.usersLast := ⟨by decide, by decide⟩
  have hread : (ofDocument Sample.usersFirst).isOk = true := by decide_cbv
  obtain ⟨hiff, hagree⟩ := ofDocument_of_reordered hreordered
  obtain ⟨c, hc⟩ := exists_eq_ok_of_isOk hread
  obtain ⟨c', hc'⟩ := hiff.1 ⟨c, hc⟩
  exact ⟨by decide, c, c', hc, hc', hagree c c' hc hc'⟩

end Catalog

end Netlist
