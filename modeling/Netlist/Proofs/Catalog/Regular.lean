import Netlist.Proofs.Assembly
import Netlist.Proofs.Document.Catalog

/-!
# Regular catalogs

What is checked when a module is registered holds of it ever after, because modules are only added.
So a catalog of registered leaves and assembled composites passes the checks of reading, although
these look at all modules at once and each module was checked against those before it.

## Main definitions

* `Netlist.Catalog.Regular`: what registering leaves and composites keeps.

## Main results

* `Netlist.Catalog.Regular.add`: registering a module keeps a catalog regular.
* `Netlist.Catalog.registerLeaves_keeps`, `Netlist.Assembly.register_regular`: so do the edits that
  register leaves and composites, whether they succeed or fail.
* `Netlist.Catalog.Regular.reloadable`: regular catalogs pass the checks of reading.
-/

namespace Netlist

namespace Catalog

variable {c d : Catalog}

/-- What registering leaves and composites keeps: types are valid, ports legal, the insides of
composites sound and without links that bind nothing, and containment is well founded. -/
structure Regular (c : Catalog) : Prop where
  types : c.types.validate = .ok ()
  ports : ∀ e ∈ c.modules.entries, checkPorts c.types e.1 e.2.inputs e.2.outputs = .ok ()
  inside : ∀ name g, c.body? name = some g → g.WellFormed ∧ g.Filled ∧ g.Sound c
  wellFounded : WellFounded c.Within

namespace Regular

/-- The catalog without types and modules. -/
theorem empty : Catalog.empty.Regular where
  types := by
    have hvisit : TypeTable.visitAll .empty [] [] [] = .ok [] := by rw [TypeTable.visitAll]
    exact bind_eq_ok_iff.2 ⟨⟨⟩, rfl, bind_eq_ok_iff.2 ⟨[], congrArg _ hvisit, rfl⟩⟩
  ports _ he := nomatch he
  inside _ _ hg := nomatch hg
  wellFounded := ⟨fun n => Acc.intro n fun _ hin => by
    obtain ⟨g, hg, -⟩ := hin
    cases hg⟩

/-- Regular catalogs pass the checks of reading. -/
theorem reloadable (hc : c.Regular) : c.Reloadable where
  types := hc.types
  ports := hc.ports
  wellFormed name g hg := (hc.inside name g hg).1
  filled name g hg := (hc.inside name g hg).2.1
  sound name g hg := (hc.inside name g hg).2.2
  checkBody _ _ hg := checkBody_of_wellFounded hc.wellFounded hg

/-- Registering a module keeps a catalog regular, if the inside of the module fits the catalog with
the module in it. -/
theorem add (hc : c.Regular) {name : String} {m : Module} (h : c.add name m = .ok d)
    (hm : ∀ g, m.body = some g → g.WellFormed ∧ g.Filled ∧ g.Sound d) : d.Regular := by
  have hwf := wellFounded_within_add hc.wellFounded h
  obtain ⟨hnew, hports, -, rfl⟩ := add_eq_ok_iff.1 h
  refine ⟨hc.types, fun e he => ?_, fun n g hg => ?_, hwf⟩
  · have hkeys : name ∉ c.modules.keys := fun hk => hnew (OrderedMap.contains_iff_mem_keys.2 hk)
    rw [put, OrderedMap.entries_insert_of_notMem m hkeys, List.mem_append,
      List.mem_singleton] at he
    obtain he | rfl := he
    · exact hc.ports e he
    · exact hports
  · rw [body?_put] at hg
    split_ifs at hg
    · exact hm g hg
    · obtain ⟨hw, hf, hs⟩ := hc.inside n g hg
      exact ⟨hw, hf, hs.mono (.put hnew m)⟩

end Regular

/-- Registering leaves keeps catalogs regular, also if it fails. -/
theorem registerLeaves_keeps (leaves : List Interface) :
    Keeps Regular (registerLeaves leaves) := by
  refine Edit.registerLeaves_keeps_of fun i _ => Edit.replace_keeps fun c d hc hadd => ?_
  exact hc.add hadd fun g hg => nomatch hg

end Catalog

/-- Registering a composite keeps a catalog regular, if the graph that it is made from fits the
catalog. -/
theorem Assembly.register_regular {c : Catalog} {b : Boundary} {a : Assembly} (hc : c.Regular)
    (hw : a.inside.WellFormed) (hf : a.inside.Filled) (hs : a.inside.Sound c) :
    ((a.register b).runOn c).2.Regular := by
  rcases hrun : (a.register b).runOn c with ⟨_ | _, d⟩
  · exact Assembly.register_eq_error hrun ▸ hc
  · obtain ⟨B, hB, hadd⟩ := Assembly.register_eq_ok_iff.1 hrun
    refine hc.add hadd fun g hg => ?_
    cases hg
    exact ⟨hB.wellFormed hw, hB.filled hf, hB.sound hw hs hadd⟩

end Netlist
