import Netlist.Proofs.Catalog.History
import Netlist.Proofs.Document.Catalog

/-!
# Flattening catalogs that were read

Reading checks types, ports, wires and containment. It does not look at what the boundary instances
inside a composite are bound to, nor how many there are. Inlining a cell takes the first instance
for each side of the boundary for a side of the cell's own module, so it can fail on a catalog that
was read. It succeeds if the composites that occur as cells have no boundary instances but their
own.

## Main results

* `Netlist.Catalog.flattenModule_of_ofText`: the composites of a catalog that was read have flat
  insides, and these are sound.
* `Netlist.Catalog.flattenModule_fails_for_strange_sides`: boundary instances that are not those of
  the composite.
-/

namespace Netlist

namespace Catalog

open Flatten

/-- Every composite of a catalog that was read has a flat inside, which passes its test, if
instances have identifiers for names and the composites that occur as cells have no boundary
instances but their own. -/
theorem flattenModule_of_ofText {s : String} {c : Catalog} (h : ofText s = .ok c)
    (hnamed : ∀ m B, c.body? m = some B → Named B)
    (hbord : ∀ m outer B, c.Within m outer → c.body? m = some B → B.Bordered m) {b : Boundary}
    (hb : b.Separates) {m : String} {B : Graph} (hB : c.body? m = some B) :
    ∃ flat, c.flattenModule b m = .ok flat ∧ flat.validate c = .ok () := by
  have hc := (reloadable_of_ofText h).1
  have hwf : WellFounded c.Within := wellFounded_of_acyclic (acyclic_of_checkBody hc.checkBody)
  obtain ⟨flat, hflat⟩ := exists_expands_of_insertable hb hwf
    (fun m B hB => ⟨hc.wellFormed m B hB, hc.sound m B hB, hnamed m B hB⟩) hbord hB
  obtain ⟨hg, hs, -⟩ := hflat.sound hB (hc.wellFormed m B hB) (hc.sound m B hB)
  exact ⟨flat, flattenModule_eq_ok_iff.2 hflat, (Graph.validate_eq_ok_iff hg).2 hs⟩

end Catalog

/-! ### Samples -/

namespace Sample

/-- A composite without ports, in which a cell of a given module stands between two leaves. -/
def between (module : String) : Module :=
  ⟨.empty, .empty, some
    { instances := [⟨"t", "leaf", .cell⟩, ⟨"u", module, .cell⟩, ⟨"v", "leaf", .cell⟩]
      links := [⟨⟨"u", "v", [⟨"o", "i"⟩]⟩, 1⟩, ⟨⟨"t", "u", [⟨"o", "i"⟩]⟩, 0⟩]
      freed := [] }⟩

/-- A catalog with a composite inside another one. -/
def twoLevels : Catalog :=
  ⟨.empty, .ofList [("leaf", leaf), ("stage", stage), ("top", between "stage")]⟩

/-- A leaf with a wider input. -/
def wide : Module :=
  ⟨.ofList [("i", .bits 16)], .ofList [("o", .bits 8)], none⟩

/-- A composite with two instances for its inputs, of which the second one drives the output. -/
def twofold : Module :=
  ⟨.ofList [("i", .bits 8)], .ofList [("o", .bits 8)], some
    { instances := [⟨"input_block", "twofold", .inputBoundary⟩,
        ⟨"spare", "twofold", .inputBoundary⟩, ⟨"output_block", "twofold", .outputBoundary⟩]
      links := [⟨⟨"spare", "output_block", [⟨"i", "o"⟩]⟩, 0⟩]
      freed := [] }⟩

/-- A composite whose instance for the inputs is bound to another module with a wider input. -/
def foreign : Module :=
  ⟨.ofList [("i", .bits 8)], .ofList [("o", .bits 8)], some
    { instances := [⟨"x", "wide", .cell⟩, ⟨"input_block", "wide", .inputBoundary⟩,
        ⟨"output_block", "foreign", .outputBoundary⟩]
      links := [⟨⟨"x", "output_block", [⟨"o", "o"⟩]⟩, 1⟩,
        ⟨⟨"input_block", "x", [⟨"i", "i"⟩]⟩, 0⟩]
      freed := [] }⟩

/-- A catalog in which both composites occur as cells. -/
def strange : Catalog :=
  ⟨.empty, .ofList [("leaf", leaf), ("wide", wide), ("twofold", twofold), ("foreign", foreign),
    ("first", between "twofold"), ("second", between "foreign")]⟩

end Sample

namespace Catalog

open Flatten

/-- What holds of the listed insides holds of each inside that a catalog finds. -/
theorem forall_body?_of_bodies {c : Catalog} {p : String → Graph → Prop}
    (h : ∀ e ∈ c.bodies, p e.1 e.2) (m : String) (B : Graph) (hB : c.body? m = some B) : p m B :=
  h (m, B) (mem_bodies.2 hB)

theorem flattenModule_of_ofText_nested : ∃ c, ofText Sample.twoLevels.toText = .ok c ∧
    (∀ m B, c.body? m = some B → Named B) ∧
    (∀ m outer B, c.Within m outer → c.body? m = some B → B.Bordered m) ∧
    Boundary.standard.Separates ∧ (∃ B, c.body? "top" = some B) ∧
    ∃ flat, c.flattenModule .standard "top" = .ok flat ∧ flat.validate c = .ok () := by
  have hread : ofText Sample.twoLevels.toText = .ok Sample.twoLevels.packed := by
    rw [ofText, toText, Json.parse?_pretty]
    decide_cbv
  have hnamed : ∀ e ∈ Sample.twoLevels.packed.bodies, ∀ n ∈ e.2.names, isIdentifier n = true := by
    decide_cbv
  have hbord : ∀ e ∈ Sample.twoLevels.packed.bodies, e.2.Bordered e.1 := by decide_cbv
  obtain ⟨B, hB⟩ : ∃ B, Sample.twoLevels.packed.body? "top" = some B :=
    Option.isSome_iff_exists.1 (by decide_cbv)
  have hnamed := forall_body?_of_bodies (p := fun _ B => Named B) hnamed
  have hbord := forall_body?_of_bodies (p := fun m B => B.Bordered m) hbord
  exact ⟨_, hread, hnamed, fun m _ B _ => hbord m B, by decide, ⟨B, hB⟩,
    flattenModule_of_ofText hread hnamed (fun m _ B _ => hbord m B) (by decide) hB⟩

/-- Two composites of a catalog that was read cannot be flattened: one of them has a cell with a
second instance for its inputs, the other one a cell whose instance for the inputs is bound to
another module. -/
theorem flattenModule_fails_for_strange_sides : ∃ c, ofText Sample.strange.toText = .ok c ∧
    (∀ m B, c.body? m = some B → Named B) ∧ Boundary.standard.Separates ∧
    (∃ B, c.body? "first" = some B) ∧ (∃ B, c.body? "second" = some B) ∧
    c.flattenModule .standard "first" = .error (.instanceNotFound "u.spare") ∧
    c.flattenModule .standard "second" =
      .error (.portTypeMismatch ⟨"t", "o"⟩ (.bits 8) ⟨"u.x", "i"⟩ (.bits 16)) := by
  have hnamed : ∀ e ∈ Sample.strange.packed.bodies, ∀ n ∈ e.2.names, isIdentifier n = true := by
    decide_cbv
  refine ⟨Sample.strange.packed, ?_, forall_body?_of_bodies (p := fun _ B => Named B) hnamed,
    by decide, Option.isSome_iff_exists.1 (by decide_cbv),
    Option.isSome_iff_exists.1 (by decide_cbv), by decide_cbv, by decide_cbv⟩
  rw [ofText, toText, Json.parse?_pretty]
  decide_cbv

end Catalog

end Netlist
