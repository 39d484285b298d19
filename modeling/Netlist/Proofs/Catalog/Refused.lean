import Netlist.Proofs.Catalog.Registered

/-!
# Refused composites

Registering a composite changes the catalog several times, and any step between may fail: the two
modules for the boundary instances are put in, the wires are checked one by one, the modules are
taken out, and the composite is added. Whichever step fails, the catalog is left as it was found,
with the same modules in the same order. What makes a step fail can be told from the catalog and the
assembly beforehand.

## Main definitions

* `Netlist.Assembly.Hindered`: what keeps an assembly from being registered.

## Main results

* `Netlist.Assembly.register_restores`: an assembly that is not registered leaves no trace, and
  exactly those that are hindered are not registered.
-/

namespace Netlist.Assembly

variable {c d : Catalog} {b : Boundary} {a : Assembly}

/-- What keeps an assembly from being registered. -/
inductive Hindered (c : Catalog) (b : Boundary) (a : Assembly) : Prop where
  /-- There is a module with the composite's name. -/
  | known (h : c.contains a.name = true)
  /-- An instance inside has a name that is no identifier. -/
  | misnamed {i : Instance} (hi : i ∈ a.inside.instances) (h : ¬isIdentifier i.name = true)
  /-- There is a module with the name of one of the two for the boundary instances. -/
  | taken {block : String} (hblock : block = b.inputBlock ∨ block = b.outputBlock)
      (h : c.contains (a.scaffold block) = true)
  /-- The two boundary instances would have the same name. -/
  | sameBlocks (h : b.inputBlock = b.outputBlock)
  /-- A declared port is not legal. -/
  | illegal {p : String × PortType} (hp : p ∈ a.inputs.entries ++ a.outputs.entries)
      (h : ¬Catalog.LegalPort c.types p)
  /-- A port is declared as an input and as an output. -/
  | twofold {port : String} (hin : port ∈ a.inputs.keys) (hout : a.outputs.contains port = true)
  /-- A boundary instance cannot be added, or a wire at the boundary is rejected. -/
  | unwired {e : Error} (h : a.wire (scaffolded c b a) b = .error e)
  /-- The composite would contain itself. -/
  | cyclic {W B : Graph} {e : Error} (hW : a.wire (scaffolded c b a) b = .ok W)
      (hB : a.settle b W = .ok B) (h : c.checkBody a.name B = .error e)

theorem scaffold_inj {x y : String} : a.scaffold x = a.scaffold y ↔ x = y := by
  rw [scaffold, scaffold, String.append_right_inj]

/-- An assembly that is registered was not hindered. -/
theorem not_hindered_of_register {u : Unit} (h : (a.register b).runOn c = (.ok u, d)) :
    ¬Hindered c b a := by
  obtain ⟨B, hB, hadd⟩ := register_eq_ok_iff.1 h
  obtain ⟨hnew, hports, hbody, -⟩ := Catalog.add_eq_ok_iff.1 hadd
  obtain ⟨hlegal, hdisjoint⟩ := Catalog.checkPorts_eq_ok_iff.1 hports
  obtain ⟨W, hW, hsettle⟩ := hB.wired
  intro hindered
  cases hindered with
  | known h => exact hnew h
  | misnamed hi h => exact h ((check_eq_ok_iff.1 hB.check).2 _ hi)
  | taken hblock h =>
    rcases hblock with rfl | rfl
    · exact hB.input_new h
    · exact hB.output_new h
  | sameBlocks h => exact hB.ne (scaffold_inj.2 h.symm)
  | illegal hp h => exact h (hlegal _ hp)
  | twofold hin hout => exact hdisjoint _ hin hout
  | unwired h => cases hW.symm.trans h
  | cyclic hW' hB' h =>
    cases hW.symm.trans hW'
    cases hsettle.symm.trans hB'
    cases (hbody _ rfl).symm.trans h

/-- An assembly that is not hindered is registered. -/
theorem exists_register_of_not_hindered (h : ¬Hindered c b a) :
    ∃ d, (a.register b).runOn c = (.ok (), d) := by
  have hcheck : a.check c = .ok () :=
    check_eq_ok_iff.2 ⟨fun hc => h (.known hc), fun i hi => by_contra fun hn => h (.misnamed hi hn)⟩
  have hports : Catalog.checkPorts c.types a.name a.inputs a.outputs = .ok () :=
    Catalog.checkPorts_eq_ok_iff.2 ⟨fun p hp => by_contra fun hn => h (.illegal hp hn),
      fun port hin hout => h (.twofold hin hout)⟩
  cases hW : a.wire (scaffolded c b a) b with
  | error e => exact absurd (.unwired hW) h
  | ok W =>
    obtain ⟨B, hB⟩ := exists_settle_of_wire hW
    cases hbody : c.checkBody a.name B with
    | error e => exact absurd (.cyclic hW hB hbody) h
    | ok _ =>
      exact ⟨_, register_of_checks
        ⟨hcheck, fun hc => h (.taken (.inl rfl) hc), fun hc => h (.taken (.inr rfl) hc),
          fun he => h (.sameBlocks (scaffold_inj.1 he).symm)⟩
        ⟨fun hc => h (.known hc), hports⟩ (bind_eq_ok_iff.2 ⟨W, hW, hB⟩) hbody⟩

/-- An assembly that cannot be registered leaves the catalog exactly as it was: the modules, what
they are, their order, and the types. This happens whenever the assembly is hindered, by whatever of
its parts, by a module that has the name of one of the two for the boundary instances, or by equal
names of these, and in no other case. -/
theorem register_restores (c : Catalog) (b : Boundary) (a : Assembly) :
    (∀ e d, (a.register b).runOn c = (.error e, d) → d = c) ∧
      (Hindered c b a ↔ ∃ e, (a.register b).runOn c = (.error e, c)) := by
  refine ⟨fun e d h => (runOn_register_eq_error_iff.1 h).2, fun h => ?_, ?_⟩
  · rcases hrun : (a.register b).runOn c with ⟨e | u, d⟩
    · exact ⟨e, by rw [(runOn_register_eq_error_iff.1 hrun).2]⟩
    · exact absurd h (not_hindered_of_register hrun)
  · rintro ⟨e, hrun⟩
    by_contra h
    obtain ⟨d, hd⟩ := exists_register_of_not_hindered h
    cases hrun.symm.trans hd

/-- Equal block names: the first of the two modules is taken out again when the second is refused.
-/
example : (Sample.forkAssembly.register ⟨"io", "io", "."⟩).runOn Sample.leaves =
    (.error (.duplicateModule "fork::io"), Sample.leaves) := by
  decide

end Netlist.Assembly
