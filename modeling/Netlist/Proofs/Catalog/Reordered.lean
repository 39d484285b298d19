import Netlist.Proofs.Catalog.Containment
import Netlist.Proofs.Catalog.Growth
import Netlist.Proofs.Graph.Agree

/-!
# Catalogs in another order

Types and modules are looked up by name. So a catalog knows the same as one that lists them in
another order, and the two agree.

## Main definitions

* `Netlist.Catalog.Reordered`: two catalogs list the same types and the same modules.

## Main results

* `Netlist.Catalog.Reordered.grows`, `Netlist.Catalog.Reordered.within_eq`: what is known of modules
  and types, and what is contained in what.
* `Netlist.Catalog.Reordered.agree`: such catalogs agree.
-/

namespace Netlist.Catalog

/-- Two catalogs list the same types and the same modules. -/
structure Reordered (c d : Catalog) : Prop where
  types : c.types.entries.Perm d.types.entries
  modules : c.modules.entries.Perm d.modules.entries

theorem ModulesAgree.refl (m : Module) : ModulesAgree m m := by
  refine ⟨.refl _, .refl _, ?_⟩
  cases m.body with
  | none => trivial
  | some g => exact Graph.Agree.refl g

namespace Reordered

variable {c d : Catalog}

theorem module?_eq (h : c.Reordered d) : c.module? = d.module? :=
  OrderedMap.get?_eq_of_perm h.modules

theorem body?_eq (h : c.Reordered d) : c.body? = d.body? := by
  funext name
  rw [body?, body?, h.module?_eq]

theorem within_eq (h : c.Reordered d) : c.Within = d.Within := by
  funext inner outer
  rw [Within, Within, h.body?_eq]

/-- In another order, a catalog knows the same. -/
theorem grows (h : c.Reordered d) : c.Grows d where
  module? _ _ hm := h.module?_eq ▸ hm
  alike _ _ hxy := hxy.mono (fun _ _ hf => OrderedMap.get?_eq_of_perm h.types ▸ hf)
    h.types.length_eq.le

/-- A catalog agrees with one in another order. -/
theorem agree (h : c.Reordered d) : c.Agree d :=
  ⟨.of_perm h.types fun e _ => .refl e.2, .of_perm h.modules fun e _ => .refl e.2⟩

end Reordered

end Netlist.Catalog
