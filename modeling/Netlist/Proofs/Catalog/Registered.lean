import Netlist.Proofs.Assembly
import Netlist.Proofs.Catalog.Containment
import Netlist.Sample

/-!
# Registered composites

A composite is wired while its boundary instances are bound to two modules that exist for this
purpose only, and are cells; what is registered has them bound to the composite itself, in the roles
of a boundary. Both views offer the same ports. So the inside is valid in the catalog in which the
composite is registered, with no other wires than those that were asked for.

## Main results

* `Netlist.Assembly.exists_body_of_register`: the catalog has gained the composite, and this is what
  is inside it.
-/

namespace Netlist

namespace Assembly

variable {c d : Catalog} {b : Boundary} {a : Assembly} {u : Unit}

/-- A composite that can be registered is the one module that the catalog gains, and the last one in
it. Inside, there are the instances that it is made from and the two for its ports, the wires that
it is made from and one for each sink of an input, for the source of each output and for each input
that is handed through, and nothing else; and all of it is valid. -/
theorem exists_body_of_register (hg : a.inside.WellFormed) (hv : a.inside.validate c = .ok ())
    (h : (a.register b).runOn c = (.ok u, d)) : ∃ B : Graph,
      d.types = c.types ∧
      d.modules.entries = c.modules.entries ++ [(a.name, ⟨a.inputs, a.outputs, some B⟩)] ∧
      B.instances = a.inside.instances ++ [⟨b.inputBlock, a.name, .inputBoundary⟩,
        ⟨b.outputBlock, a.name, .outputBoundary⟩] ∧
      B.wires.Perm (a.inside.wires ++
        ((a.inputSinks.entries.flatMap fun e => e.2.map fun sink => ⟨⟨b.inputBlock, e.1⟩, sink⟩) ++
          (a.outputSources.entries.map fun e => ⟨e.2, ⟨b.outputBlock, e.1⟩⟩) ++
          a.feedThrough.entries.map fun e => ⟨⟨b.inputBlock, e.1⟩, ⟨b.outputBlock, e.2⟩⟩)) ∧
      B.validate d = .ok () := by
  obtain ⟨B, hB, hadd⟩ := register_eq_ok_iff.1 h
  have hs : a.inside.Sound c := (Graph.validate_eq_ok_iff hg).1 hv
  have hvalid : B.validate d = .ok () :=
    (Graph.validate_eq_ok_iff (hB.wellFormed hg)).2 (hB.sound hg hs hadd)
  obtain ⟨hnew, -, -, rfl⟩ := Catalog.add_eq_ok_iff.1 hadd
  have hname : a.name ∉ c.modules.keys := fun hm => hnew (OrderedMap.contains_iff_mem_keys.2 hm)
  exact ⟨B, rfl, OrderedMap.entries_insert_of_notMem _ hname, hB.instances_eq hg, hB.wires_perm hg,
    hvalid⟩

end Assembly

namespace Sample

/-- A composite in which one input goes to two leaves and past them to an output. -/
def forkAssembly : Assembly where
  name := "fork"
  inputs := .ofList [("i", .bits 8)]
  outputs := .ofList [("o", .bits 8), ("p", .bits 8)]
  inside := ⟨[⟨"x", "leaf", .cell⟩, ⟨"y", "leaf", .cell⟩], [], []⟩
  inputSinks := .ofList [("i", [⟨"x", "i"⟩, ⟨"y", "i"⟩])]
  outputSources := .ofList [("o", ⟨"y", "o"⟩)]
  feedThrough := .ofList [("i", "p")]

/-- What is inside of it. -/
def fork : Graph where
  instances := [⟨"x", "leaf", .cell⟩, ⟨"y", "leaf", .cell⟩, ⟨"input_block", "fork", .inputBoundary⟩,
    ⟨"output_block", "fork", .outputBoundary⟩]
  links := [⟨⟨"input_block", "output_block", [⟨"i", "p"⟩]⟩, 3⟩,
    ⟨⟨"y", "output_block", [⟨"o", "o"⟩]⟩, 2⟩, ⟨⟨"input_block", "y", [⟨"i", "i"⟩]⟩, 1⟩,
    ⟨⟨"input_block", "x", [⟨"i", "i"⟩]⟩, 0⟩]
  freed := []

theorem register_fork : (forkAssembly.register .standard).runOn leaves =
    (.ok (), leaves.put "fork" ⟨forkAssembly.inputs, forkAssembly.outputs, some fork⟩) :=
  Assembly.register_of_checks (by decide) (by decide) (by decide)
    (Catalog.checkBody_of_leaves (by decide))

end Sample

namespace Assembly

theorem exists_body_of_register_fork : ∃ d B,
    Sample.forkAssembly.inside.WellFormed ∧
    Sample.forkAssembly.inside.validate Sample.leaves = .ok () ∧
    (Sample.forkAssembly.register .standard).runOn Sample.leaves = (.ok (), d) ∧
    d.modules.entries = Sample.leaves.modules.entries ++
      [("fork", ⟨Sample.forkAssembly.inputs, Sample.forkAssembly.outputs, some B⟩)] ∧
    B.wires.Perm [⟨⟨"input_block", "i"⟩, ⟨"x", "i"⟩⟩, ⟨⟨"input_block", "i"⟩, ⟨"y", "i"⟩⟩,
      ⟨⟨"y", "o"⟩, ⟨"output_block", "o"⟩⟩, ⟨⟨"input_block", "i"⟩, ⟨"output_block", "p"⟩⟩] ∧
    B.validate d = .ok () := by
  have hg : Sample.forkAssembly.inside.WellFormed :=
    ⟨by decide, fun _ _ ⟨_, hl, _⟩ => (nomatch hl), .nil, by decide⟩
  have hv : Sample.forkAssembly.inside.validate Sample.leaves = .ok () := by decide
  obtain ⟨B, -, hentries, -, hwires, hvalid⟩ :=
    exists_body_of_register hg hv Sample.register_fork
  exact ⟨_, B, hg, hv, Sample.register_fork, hentries, hwires, hvalid⟩

end Assembly

end Netlist
