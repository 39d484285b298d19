import Netlist.Assembly
import Netlist.Proofs.Catalog.Edit
import Netlist.Proofs.Catalog.Growth
import Netlist.Proofs.Graph.Framed

/-!
# Assembled composites

A composite that is registered is the graph it is made from, with two instances for its ports. The
modules that these are bound to for a while are gone when the composite is registered.

## Main definitions

* `Netlist.Assembly.scaffolded`: the catalog while a composite is wired.
* `Netlist.Assembly.attempt`: what registering an assembly comes to.
* `Netlist.Assembly.Gives`: the inside that an assembly is registered with.
* `Netlist.Assembly.Refused`: why an assembly is not registered.

## Main results

* `Netlist.Assembly.runOn_register`: registering an assembly is a transaction.
* `Netlist.Assembly.register_eq_ok_iff`: registering an assembly adds one module to the catalog.
* `Netlist.Assembly.refused_of_register`: where this fails, the catalog is as it was.
* `Netlist.Assembly.register_eq_duplicate`: it fails while a module has the name of one of the two.
* `Netlist.Assembly.Gives.wellFormed`, `Netlist.Assembly.Gives.framed`: the inside is well formed
  and has the frame of a composite.
* `Netlist.Assembly.Gives.wires_perm`: its wires are those of the graph it is made from and those at
  its boundary.
* `Netlist.Assembly.Gives.sound`: it is sound if the graph it is made from was.
-/

namespace Netlist

namespace Assembly

open Catalog (Edit)

variable {c d : Catalog} {b : Boundary} {a : Assembly} {B : Graph}

/-- The catalog while a composite is wired, with modules for its boundary instances. -/
def scaffolded (c : Catalog) (b : Boundary) (a : Assembly) : Catalog :=
  (c.put (a.scaffold b.inputBlock) ⟨.empty, a.inputs, none⟩).put (a.scaffold b.outputBlock)
    ⟨a.outputs, .empty, none⟩

theorem check_eq_ok_iff : a.check c = .ok () ↔
    ¬c.contains a.name = true ∧ ∀ i ∈ a.inside.instances, isIdentifier i.name = true := by
  have hfind : (a.inside.instances.find? fun i => !isIdentifier i.name) = none ↔
      ∀ i ∈ a.inside.instances, isIdentifier i.name = true := by
    simp only [List.find?_eq_none, Bool.not_eq_true', Bool.not_eq_false]
  unfold check
  rw [ite_error_eq_ok_iff, ← hfind]
  cases a.inside.instances.find? fun i => !isIdentifier i.name <;> simp

/-- An assembly is registered with the inside `B`. -/
structure Gives (c : Catalog) (b : Boundary) (a : Assembly) (B : Graph) : Prop where
  /-- The composite is new, and the instances in it have identifiers for names. -/
  check : a.check c = .ok ()
  /-- The modules of the boundary instances are new. -/
  input_new : ¬c.contains (a.scaffold b.inputBlock) = true
  output_new : ¬c.contains (a.scaffold b.outputBlock) = true
  ne : a.scaffold b.outputBlock ≠ a.scaffold b.inputBlock
  /-- The boundary instances are wired, and bound to the composite afterwards. -/
  wired : ∃ W, a.wire (scaffolded c b a) b = .ok W ∧ a.settle b W = .ok B

/-- What registering an assembly comes to. The two modules are put into a copy of the catalog, in
which the composite is wired; the composite itself is added to the catalog as it was. -/
def attempt (c : Catalog) (b : Boundary) (a : Assembly) : Except Error Catalog := do
  a.check c
  let c₁ ← c.add (a.scaffold b.inputBlock) ⟨.empty, a.inputs, none⟩
  let c₂ ← c₁.add (a.scaffold b.outputBlock) ⟨a.outputs, .empty, none⟩
  let g ← a.wire c₂ b
  let g ← a.settle b g
  c.add a.name ⟨a.inputs, a.outputs, some g⟩

/-- Registering an assembly is a transaction: the catalog is changed as a whole or not at all. -/
theorem runOn_register (c : Catalog) (b : Boundary) (a : Assembly) :
    (a.register b).runOn c = match a.attempt c b with
      | .ok d => (.ok (), d)
      | .error e => (.error e, c) := by
  unfold register attempt
  rw [Edit.runOn_bind, Edit.runOn_query]
  rcases a.check c with e | ⟨⟨⟩⟩
  · rfl
  rw [ok_bind]
  dsimp only
  rw [Edit.runOn_bind, Edit.runOn_add]
  rcases hin : c.add (a.scaffold b.inputBlock) ⟨.empty, a.inputs, none⟩ with e | c₁
  · rfl
  -- the first module can be taken out again, also when the second has come behind it
  obtain ⟨hnew, -, -, rfl⟩ := Catalog.add_eq_ok_iff.1 hin
  have hback := Catalog.delete_put hnew ⟨.empty, a.inputs, none⟩
  rw [ok_bind]
  dsimp only
  rw [Edit.runOn_bind, Edit.runOn_tryCatch, Edit.runOn_add]
  rcases hout : (c.put (a.scaffold b.inputBlock) ⟨.empty, a.inputs, none⟩).add
    (a.scaffold b.outputBlock) ⟨a.outputs, .empty, none⟩ with e | c₂
  · dsimp only
    rw [Edit.runOn_bind, Edit.runOn_delete, hback]
    rfl
  obtain ⟨hnew', -, -, rfl⟩ := Catalog.add_eq_ok_iff.1 hout
  rw [Catalog.contains_put, not_or] at hnew'
  rw [ok_bind]
  dsimp only
  rw [Edit.runOn_bind, Edit.runOn_query]
  dsimp only
  rw [Edit.runOn_bind, Edit.runOn_delete, Catalog.delete_put_of_ne hnew'.1 hback]
  dsimp only
  rw [Edit.runOn_bind, Edit.runOn_delete, Catalog.delete_put hnew'.2]
  dsimp only
  rw [Edit.runOn_bind, Edit.runOn_liftExcept]
  rcases a.wire _ b with e | W
  · rfl
  rw [ok_bind]
  dsimp only
  rw [Edit.runOn_bind, Edit.runOn_liftExcept]
  rcases a.settle b W with e | B
  · rfl
  exact Edit.runOn_add _ _ _

theorem runOn_register_eq_ok_iff {u : Unit} :
    (a.register b).runOn c = (.ok u, d) ↔ a.attempt c b = .ok d := by
  rw [runOn_register]
  cases a.attempt c b <;> simp

theorem runOn_register_eq_error_iff {e : Error} :
    (a.register b).runOn c = (.error e, d) ↔ a.attempt c b = .error e ∧ d = c := by
  rw [runOn_register]
  cases a.attempt c b <;> simp [eq_comm (a := c)]

/-- The modules for the boundary instances have legal ports if the composite has. -/
private theorem checkPorts_scaffolds {types : TypeTable} {name : String} {inputs outputs : Ports}
    (h : Catalog.checkPorts types name inputs outputs = .ok ()) (n k : String) :
    Catalog.checkPorts types n .empty inputs = .ok () ∧
      Catalog.checkPorts types k outputs .empty = .ok () := by
  obtain ⟨hports, -⟩ := Catalog.checkPorts_eq_ok_iff.1 h
  rw [Catalog.checkPorts_eq_ok_iff, Catalog.checkPorts_eq_ok_iff]
  refine ⟨⟨fun e he => hports e (List.mem_append_left _ he), fun _ h => (nomatch h)⟩, ?_,
    fun _ _ h => (nomatch h)⟩
  intro e he
  rw [OrderedMap.empty, List.append_nil] at he
  exact hports e (List.mem_append_right _ he)

/-- The two modules for the boundary instances can be registered if their names are new and differ,
and the composite has legal ports. -/
private theorem add_scaffolds (hin : ¬c.contains (a.scaffold b.inputBlock) = true)
    (hout : ¬c.contains (a.scaffold b.outputBlock) = true)
    (hne : a.scaffold b.outputBlock ≠ a.scaffold b.inputBlock)
    (hports : Catalog.checkPorts c.types a.name a.inputs a.outputs = .ok ()) :
    c.add (a.scaffold b.inputBlock) ⟨.empty, a.inputs, none⟩ =
        .ok (c.put (a.scaffold b.inputBlock) ⟨.empty, a.inputs, none⟩) ∧
      (c.put (a.scaffold b.inputBlock) ⟨.empty, a.inputs, none⟩).add (a.scaffold b.outputBlock)
        ⟨a.outputs, .empty, none⟩ = .ok (scaffolded c b a) := by
  obtain ⟨hports₁, hports₂⟩ :=
    checkPorts_scaffolds hports (a.scaffold b.inputBlock) (a.scaffold b.outputBlock)
  exact ⟨Catalog.add_eq_ok_iff.2 ⟨hin, hports₁, nofun, rfl⟩, Catalog.add_eq_ok_iff.2
    ⟨mt Catalog.contains_put.1 (not_or.2 ⟨hne, hout⟩), hports₂, nofun, rfl⟩⟩

/-- Registering an assembly adds one module to the catalog. -/
theorem register_eq_ok_iff {u : Unit} : (a.register b).runOn c = (.ok u, d) ↔
    ∃ B, Gives c b a B ∧ c.add a.name ⟨a.inputs, a.outputs, some B⟩ = .ok d := by
  rw [runOn_register_eq_ok_iff, attempt]
  simp only [bind_eq_ok_iff]
  constructor
  · rintro ⟨⟨⟩, hcheck, c₁, hin, c₂, hout, W, hW, B, hB, hadd⟩
    obtain ⟨hnew, -, -, rfl⟩ := Catalog.add_eq_ok_iff.1 hin
    obtain ⟨hnew', -, -, rfl⟩ := Catalog.add_eq_ok_iff.1 hout
    rw [Catalog.contains_put, not_or] at hnew'
    exact ⟨B, ⟨hcheck, hnew, hnew'.2, hnew'.1, W, hW, hB⟩, hadd⟩
  · rintro ⟨B, ⟨hcheck, hin, hout, hne, W, hW, hB⟩, hadd⟩
    obtain ⟨-, hports, -, -⟩ := Catalog.add_eq_ok_iff.1 hadd
    obtain ⟨hadd₁, hadd₂⟩ := add_scaffolds hin hout hne hports
    exact ⟨⟨⟩, hcheck, _, hadd₁, _, hadd₂, W, hW, B, hB, hadd⟩

/-- While a module has the name of one of the two for the boundary instances, an assembly that is
otherwise in order is refused for such a name. -/
theorem register_eq_duplicate {taken : String} (hcheck : a.check c = .ok ())
    (hports : Catalog.checkPorts c.types a.name a.inputs a.outputs = .ok ())
    (hmem : taken ∈ [a.scaffold b.inputBlock, a.scaffold b.outputBlock])
    (htaken : c.contains taken = true) :
    ∃ taken ∈ [a.scaffold b.inputBlock, a.scaffold b.outputBlock], c.contains taken = true ∧
      (a.register b).runOn c = (.error (.duplicateModule taken), c) := by
  obtain ⟨hports₁, -⟩ :=
    checkPorts_scaffolds hports (a.scaffold b.inputBlock) (a.scaffold b.outputBlock)
  by_cases hin : c.contains (a.scaffold b.inputBlock) = true
  · refine ⟨_, List.mem_cons_self, hin, runOn_register_eq_error_iff.2 ⟨?_, rfl⟩⟩
    rw [attempt, hcheck, ok_bind, Catalog.add_eq_error_iff.2 (.inl ⟨hin, rfl⟩)]
    rfl
  · have hout : c.contains (a.scaffold b.outputBlock) = true := by
      rcases List.mem_cons.1 hmem with rfl | hmem
      · exact absurd htaken hin
      · exact List.mem_singleton.1 hmem ▸ htaken
    have hadd : c.add (a.scaffold b.inputBlock) ⟨.empty, a.inputs, none⟩ =
        .ok (c.put (a.scaffold b.inputBlock) ⟨.empty, a.inputs, none⟩) :=
      Catalog.add_eq_ok_iff.2 ⟨hin, hports₁, nofun, rfl⟩
    refine ⟨_, List.mem_cons_of_mem _ (List.mem_singleton_self _), hout,
      runOn_register_eq_error_iff.2 ⟨?_, rfl⟩⟩
    rw [attempt, hcheck, ok_bind, hadd, ok_bind,
      Catalog.add_eq_error_iff.2 (.inl ⟨Catalog.contains_put.2 (.inr hout), rfl⟩)]
    rfl

/-- Why an assembly cannot be registered: it does not pass its check, the modules of its boundary
instances cannot be registered, these cannot be wired or bound to the composite, or the composite
itself is refused. -/
inductive Refused (c : Catalog) (b : Boundary) (a : Assembly) (e : Error) : Prop where
  | check (h : a.check c = .error e)
  | input (h : c.add (a.scaffold b.inputBlock) ⟨.empty, a.inputs, none⟩ = .error e)
  | output (h : (c.put (a.scaffold b.inputBlock) ⟨.empty, a.inputs, none⟩).add
      (a.scaffold b.outputBlock) ⟨a.outputs, .empty, none⟩ = .error e)
  | wire (h : a.wire (scaffolded c b a) b = .error e)
  | settle (W : Graph) (h : a.settle b W = .error e)
  | add (B : Graph) (h : c.add a.name ⟨a.inputs, a.outputs, some B⟩ = .error e)

/-- An assembly that cannot be registered has been refused, and leaves the catalog as it was. -/
theorem refused_of_register {e : Error} (h : (a.register b).runOn c = (.error e, d)) :
    Refused c b a e ∧ d = c := by
  rw [runOn_register_eq_error_iff, attempt] at h
  obtain ⟨h, rfl⟩ := h
  refine ⟨?_, rfl⟩
  simp only [bind_eq_error_iff] at h
  obtain h | ⟨-, -, h | ⟨c₁, h₁, h | ⟨c₂, h₂, h | ⟨W, -, h | ⟨B, -, h⟩⟩⟩⟩⟩ := h
  · exact .check h
  · exact .input h
  · obtain ⟨-, -, -, rfl⟩ := Catalog.add_eq_ok_iff.1 h₁
    exact .output h
  · obtain ⟨-, -, -, rfl⟩ := Catalog.add_eq_ok_iff.1 h₁
    obtain ⟨-, -, -, rfl⟩ := Catalog.add_eq_ok_iff.1 h₂
    exact .wire h
  · exact .settle W h
  · exact .add B h

/-- An assembly that cannot be registered leaves the catalog as it was. -/
theorem register_eq_error {e : Error} (h : (a.register b).runOn c = (.error e, d)) : d = c :=
  (runOn_register_eq_error_iff.1 h).2

/-- An assembly is registered if the names are new, the ports are legal, the boundary instances can
be wired, and the inside does not contain the composite. -/
theorem register_of_checks
    (hnames : a.check c = .ok () ∧ ¬c.contains (a.scaffold b.inputBlock) = true ∧
      ¬c.contains (a.scaffold b.outputBlock) = true ∧
      a.scaffold b.outputBlock ≠ a.scaffold b.inputBlock)
    (hports : ¬c.contains a.name = true ∧
      Catalog.checkPorts c.types a.name a.inputs a.outputs = .ok ())
    (hwired : a.wire (scaffolded c b a) b >>= a.settle b = .ok B)
    (hbody : c.checkBody a.name B = .ok ()) :
    (a.register b).runOn c = (.ok (), c.put a.name ⟨a.inputs, a.outputs, some B⟩) := by
  obtain ⟨hcheck, hin, hout, hne⟩ := hnames
  refine register_eq_ok_iff.2 ⟨B, ⟨hcheck, hin, hout, hne, bind_eq_ok_iff.1 hwired⟩, ?_⟩
  refine Catalog.add_eq_ok_iff.2 ⟨hports.1, hports.2, fun g hg => ?_, rfl⟩
  cases hg
  exact hbody

/-- An assembly whose boundary instances cannot be wired is refused for what is wrong with the
wires, and leaves the catalog as it was. -/
theorem register_of_wire_eq_error {e : Error}
    (hnames : a.check c = .ok () ∧ ¬c.contains (a.scaffold b.inputBlock) = true ∧
      ¬c.contains (a.scaffold b.outputBlock) = true ∧
      a.scaffold b.outputBlock ≠ a.scaffold b.inputBlock)
    (hports : Catalog.checkPorts c.types a.name a.inputs a.outputs = .ok ())
    (hwire : a.wire (scaffolded c b a) b = .error e) :
    (a.register b).runOn c = (.error e, c) := by
  obtain ⟨hcheck, hin, hout, hne⟩ := hnames
  obtain ⟨hadd₁, hadd₂⟩ := add_scaffolds hin hout hne hports
  refine runOn_register_eq_error_iff.2 ⟨?_, rfl⟩
  rw [attempt, hcheck, ok_bind, hadd₁, ok_bind, hadd₂, ok_bind, hwire]
  rfl

/-! ### The inside of an assembled composite -/

theorem instances_foldlM_addWire {ws : List Wire} {g W : Graph}
    (h : ws.foldlM (addWire c) g = .ok W) : W.instances = g.instances :=
  foldlM_keeps (I := fun W => W.instances = g.instances) (fun w _ g₁ g₂ hinst h₂ => by
    obtain ⟨_, _, _, _, _, _, _, rfl⟩ := Graph.connect_eq_ok_iff.1 h₂
    rw [Graph.instances_bind, hinst]) rfl h

theorem foldlM_addWire_wellFormed {ws : List Wire} {g W : Graph} (hg : g.WellFormed)
    (h : ws.foldlM (addWire c) g = .ok W) : W.WellFormed :=
  foldlM_keeps (fun _ _ _ _ hg₁ h₂ => Graph.connect_wellFormed hg₁ h₂) hg h

private theorem foldlM_addWire_sound {ws : List Wire} {g W : Graph} (hg : g.WellFormed)
    (hs : g.Sound c) (h : ws.foldlM (addWire c) g = .ok W) : W.Sound c :=
  (foldlM_keeps (I := fun W => W.WellFormed ∧ W.Sound c) (fun _ _ _ _ ⟨hg₁, hs₁⟩ h₂ =>
    ⟨Graph.connect_wellFormed hg₁ h₂, Graph.connect_sound hg₁ hs₁ h₂⟩) ⟨hg, hs⟩ h).2

theorem foldlM_addWire_wires_perm {ws : List Wire} {g W : Graph} (hg : g.WellFormed)
    (h : ws.foldlM (addWire c) g = .ok W) : W.wires.Perm (g.wires ++ ws) := by
  induction ws generalizing g with
  | nil =>
    cases h
    rw [List.append_nil]
  | cons w ws ih =>
    rw [List.foldlM_cons, bind_eq_ok_iff] at h
    obtain ⟨g₁, h₁, h⟩ := h
    have hw := (Graph.connect_wires_perm hg h₁).append_right ws
    rw [List.append_assoc] at hw
    exact (ih (Graph.connect_wellFormed hg h₁) h).trans hw

private theorem foldlM_addWire_filled {ws : List Wire} {g W : Graph} (hf : g.Filled)
    (h : ws.foldlM (addWire c) g = .ok W) : W.Filled :=
  foldlM_keeps (fun _ _ _ _ hf₁ h₂ => Graph.connect_filled hf₁ (List.cons_ne_nil _ _) h₂) hf h

/-- The graph with the boundary instances, before they are wired. -/
theorem wire_eq_ok_iff {W : Graph} : a.wire c b = .ok W ↔ ∃ g₁ g₂,
    a.inside.instantiate c b.inputBlock (a.scaffold b.inputBlock) = .ok g₁ ∧
      g₁.instantiate c b.outputBlock (a.scaffold b.outputBlock) = .ok g₂ ∧
        (a.boundaryWires b).foldlM (addWire c) g₂ = .ok W := by
  unfold wire
  simp only [bind_eq_ok_iff]
  constructor
  · rintro ⟨g₁, h₁, g₂, h₂, h⟩
    exact ⟨g₁, g₂, h₁, h₂, h⟩
  · rintro ⟨g₁, g₂, h₁, h₂, h⟩
    exact ⟨g₁, h₁, g₂, h₂, h⟩

/-- While a composite is wired, its boundary instances are cells like any others. -/
private def wiredInstances (b : Boundary) (a : Assembly) : List Instance :=
  a.inside.instances ++ [⟨b.inputBlock, a.scaffold b.inputBlock, .cell⟩,
    ⟨b.outputBlock, a.scaffold b.outputBlock, .cell⟩]

private theorem instances_wire {W : Graph} (h : a.wire c b = .ok W) :
    W.instances = wiredInstances b a := by
  obtain ⟨g₁, g₂, h₁, h₂, h⟩ := wire_eq_ok_iff.1 h
  obtain ⟨-, -, rfl⟩ := Graph.instantiate_eq_ok_iff.1 h₁
  obtain ⟨-, -, rfl⟩ := Graph.instantiate_eq_ok_iff.1 h₂
  rw [instances_foldlM_addWire h]
  simp only [Graph.push, wiredInstances, List.append_assoc, List.singleton_append]

private theorem wire_wellFormed {W : Graph} (hg : a.inside.WellFormed) (h : a.wire c b = .ok W) :
    W.WellFormed ∧ W.instances = wiredInstances b a := by
  refine ⟨?_, instances_wire h⟩
  obtain ⟨g₁, g₂, h₁, h₂, h⟩ := wire_eq_ok_iff.1 h
  exact foldlM_addWire_wellFormed
    (Graph.instantiate_wellFormed (Graph.instantiate_wellFormed hg h₁) h₂) h

/-- The boundary instances can be bound to the composite once they are wired. -/
theorem exists_settle_of_wire {W : Graph} (h : a.wire c b = .ok W) :
    ∃ B, a.settle b W = .ok B := by
  have hin : b.inputBlock ∈ W.names :=
    Graph.mem_names.2 ⟨⟨b.inputBlock, a.scaffold b.inputBlock, .cell⟩,
      by simp [instances_wire h, wiredInstances], rfl⟩
  have hout : b.outputBlock ∈ W.names :=
    Graph.mem_names.2 ⟨⟨b.outputBlock, a.scaffold b.outputBlock, .cell⟩,
      by simp [instances_wire h, wiredInstances], rfl⟩
  obtain ⟨W₁, h₁⟩ := Graph.WellFormed.exists_relabel hin a.name .inputBoundary
  obtain ⟨B, hB⟩ := Graph.WellFormed.exists_relabel
    (Graph.WellFormed.names_relabel h₁ ▸ hout) a.name .outputBoundary
  exact ⟨B, bind_eq_ok_iff.2 ⟨W₁, h₁, hB⟩⟩

/-- An assembly that cannot be registered does not pass its check, needs a module that cannot be
added, or cannot be wired. -/
theorem cases_of_register_eq_error {e : Error} (h : (a.register b).runOn c = (.error e, d)) :
    a.check c = .error e ∨ (∃ c₁ : Catalog, ∃ name m, c₁.add name m = .error e) ∨
      a.wire (scaffolded c b a) b = .error e := by
  rw [runOn_register_eq_error_iff, attempt] at h
  simp only [bind_eq_error_iff] at h
  obtain ⟨h | ⟨-, -, h | ⟨c₁, h₁, h | ⟨c₂, h₂, h | ⟨W, hW, h | ⟨B, -, h⟩⟩⟩⟩⟩, -⟩ := h
  · exact .inl h
  · exact .inr (.inl ⟨_, _, _, h⟩)
  · exact .inr (.inl ⟨_, _, _, h⟩)
  · obtain ⟨-, -, -, rfl⟩ := Catalog.add_eq_ok_iff.1 h₁
    obtain ⟨-, -, -, rfl⟩ := Catalog.add_eq_ok_iff.1 h₂
    exact .inr (.inr h)
  · obtain ⟨B, hB⟩ := exists_settle_of_wire hW
    cases hB.symm.trans h
  · exact .inr (.inl ⟨_, _, _, h⟩)

private theorem wire_sound {W : Graph} (hg : a.inside.WellFormed) (hs : a.inside.Sound c)
    (h : a.wire c b = .ok W) : W.Sound c := by
  obtain ⟨g₁, g₂, h₁, h₂, h⟩ := wire_eq_ok_iff.1 h
  have hg₁ := Graph.instantiate_wellFormed hg h₁
  exact foldlM_addWire_sound (Graph.instantiate_wellFormed hg₁ h₂)
    (Graph.instantiate_sound (Graph.instantiate_sound hs h₁) h₂) h

private theorem wire_wires_perm {W : Graph} (hg : a.inside.WellFormed) (h : a.wire c b = .ok W) :
    W.wires.Perm (a.inside.wires ++ a.boundaryWires b) := by
  obtain ⟨g₁, g₂, h₁, h₂, h⟩ := wire_eq_ok_iff.1 h
  have hg₂ := Graph.instantiate_wellFormed (Graph.instantiate_wellFormed hg h₁) h₂
  obtain ⟨-, -, rfl⟩ := Graph.instantiate_eq_ok_iff.1 h₁
  obtain ⟨-, -, rfl⟩ := Graph.instantiate_eq_ok_iff.1 h₂
  have hperm := foldlM_addWire_wires_perm hg₂ h
  rwa [Graph.wires_push, Graph.wires_push] at hperm

/-- What becomes of an instance when the composite is settled. -/
private def settled (b : Boundary) (a : Assembly) (i : Instance) : Instance :=
  if i.name = b.outputBlock then ⟨b.outputBlock, a.name, .outputBoundary⟩
  else if i.name = b.inputBlock then ⟨b.inputBlock, a.name, .inputBoundary⟩ else i

private theorem name_settled (i : Instance) : (settled b a i).name = i.name := by
  unfold settled
  split_ifs with h h'
  · exact h.symm
  · exact h'.symm
  · rfl

private theorem settle_eq_ok {W : Graph} (hne : b.inputBlock ≠ b.outputBlock)
    (h : a.settle b W = .ok B) :
    B = { W with instances := W.instances.map (settled b a) } := by
  obtain ⟨W₁, h₁, h⟩ := bind_eq_ok_iff.1 h
  unfold Graph.relabel at h₁ h
  split_ifs at h₁
  cases h₁
  split_ifs at h
  cases h
  refine congrArg (fun is => (⟨is, W.links, W.freed⟩ : Graph)) ?_
  rw [List.map_map]
  refine List.map_congr_left fun i _ => ?_
  rw [Function.comp_apply, settled]
  by_cases hi : i.name = b.inputBlock
  · rw [if_pos hi, if_neg (fun he => hne he), if_neg (fun he => hne (hi.symm.trans he))]
  · rw [if_neg hi]

namespace Gives

theorem new (h : Gives c b a B) : ¬c.contains a.name = true :=
  (check_eq_ok_iff.1 h.check).1

/-- The boundary instances have different names. -/
private theorem blocks_ne (h : Gives c b a B) : b.inputBlock ≠ b.outputBlock := fun he =>
  h.ne (congrArg a.scaffold he.symm)

private theorem not_block (h : Gives c b a B) {i : Instance} (hi : i ∈ a.inside.instances) :
    i.name ≠ b.inputBlock ∧ i.name ≠ b.outputBlock := by
  obtain ⟨W, hW, -⟩ := h.wired
  obtain ⟨g₁, g₂, h₁, h₂, -⟩ := wire_eq_ok_iff.1 hW
  obtain ⟨hin, -, rfl⟩ := Graph.instantiate_eq_ok_iff.1 h₁
  obtain ⟨hout, -, -⟩ := Graph.instantiate_eq_ok_iff.1 h₂
  rw [Graph.names_push, List.mem_append, not_or] at hout
  exact ⟨fun he => hin (Graph.mem_names.2 ⟨i, hi, he⟩),
    fun he => hout.1 (Graph.mem_names.2 ⟨i, hi, he⟩)⟩

/-- The instances of an assembled composite are those that it is made from and the two for its
ports. -/
theorem instances_eq (h : Gives c b a B) (hg : a.inside.WellFormed) :
    B.instances = a.inside.instances ++ [⟨b.inputBlock, a.name, .inputBoundary⟩,
      ⟨b.outputBlock, a.name, .outputBoundary⟩] := by
  obtain ⟨W, hW, hB⟩ := h.wired
  rw [settle_eq_ok h.blocks_ne hB, (wire_wellFormed hg hW).2, wiredInstances, List.map_append]
  dsimp only
  refine congrArg₂ (· ++ ·) ((List.map_congr_left fun i hi => ?_).trans (List.map_id _)) ?_
  · rw [settled, if_neg (h.not_block hi).2, if_neg (h.not_block hi).1, id]
  · simp [settled, h.blocks_ne]

theorem wellFormed (h : Gives c b a B) (hg : a.inside.WellFormed) : B.WellFormed := by
  obtain ⟨W, hW, hB⟩ := h.wired
  obtain ⟨W₁, h₁, h₂⟩ := bind_eq_ok_iff.1 hB
  exact ((wire_wellFormed hg hW).1.relabel h₁).relabel h₂

/-- The wires inside an assembled composite are those that it is made from and those at its
boundary. -/
theorem wires_perm (h : Gives c b a B) (hg : a.inside.WellFormed) :
    B.wires.Perm (a.inside.wires ++ a.boundaryWires b) := by
  obtain ⟨W, hW, hB⟩ := h.wired
  have hwires : B.wires = W.wires := by
    rw [settle_eq_ok h.blocks_ne hB]
    rfl
  exact hwires ▸ wire_wires_perm hg hW

/-- An assembled composite has no link without bindings if the graph that it is made from had
none. -/
theorem filled (h : Gives c b a B) (hf : a.inside.Filled) : B.Filled := by
  obtain ⟨W, hW, hB⟩ := h.wired
  obtain ⟨g₁, g₂, h₁, h₂, hW⟩ := wire_eq_ok_iff.1 hW
  obtain ⟨-, -, rfl⟩ := Graph.instantiate_eq_ok_iff.1 h₁
  obtain ⟨-, -, rfl⟩ := Graph.instantiate_eq_ok_iff.1 h₂
  obtain ⟨W₁, h₃, h₄⟩ := bind_eq_ok_iff.1 hB
  exact ((foldlM_addWire_filled ((hf.push _).push _) hW).relabel h₃).relabel h₄

/-- An assembled composite has the frame of a composite. -/
theorem framed (h : Gives c b a B) (hg : a.inside.WellFormed)
    (hcells : ∀ i ∈ a.inside.instances, i.role = .cell) :
    B.Framed a.name b.inputBlock b.outputBlock := by
  rw [Graph.Framed, Graph.frame, h.instances_eq hg, List.filter_append, List.filter_eq_nil_iff.2]
  · rfl
  · intro i hi
    simp [Instance.isCell, hcells i hi]

/-- The cells of an assembled composite have identifiers for names. -/
theorem isIdentifier (h : Gives c b a B) (hg : a.inside.WellFormed) {i : Instance}
    (hi : i ∈ B.instances) (hr : i.role = .cell) : isIdentifier i.name = true := by
  rw [h.instances_eq hg, List.mem_append] at hi
  rcases hi with hi | hi
  · exact (check_eq_ok_iff.1 h.check).2 i hi
  · simp only [List.mem_cons, List.not_mem_nil, or_false] at hi
    rcases hi with rfl | rfl <;> cases hr

private theorem module?_scaffold_input (h : Gives c b a B) :
    (scaffolded c b a).module? (a.scaffold b.inputBlock) = some ⟨.empty, a.inputs, none⟩ := by
  rw [scaffolded, Catalog.module?_put, if_neg h.ne.symm, Catalog.module?_put, if_pos rfl]

private theorem module?_scaffold_output :
    (scaffolded c b a).module? (a.scaffold b.outputBlock) = some ⟨a.outputs, .empty, none⟩ := by
  rw [scaffolded, Catalog.module?_put, if_pos rfl]

private theorem grows_scaffolded (h : Gives c b a B) : c.Grows (scaffolded c b a) := by
  refine (Catalog.Grows.put h.input_new _).trans (Catalog.Grows.put (fun hc => ?_) _)
  obtain ⟨m, hm⟩ := OrderedMap.contains_iff.1 hc
  refine h.output_new (OrderedMap.contains_iff.2 ⟨m, ?_⟩)
  exact (if_neg h.ne).symm.trans ((Catalog.module?_put _ _ _ _).symm.trans hm)

/-- A boundary instance offers the same ports when it is bound to the composite as it did while it
was wired. -/
private theorem portType_settled (h : Gives c b a B) (hs : a.inside.Sound c)
    (hadd : c.add a.name ⟨a.inputs, a.outputs, some B⟩ = .ok d) {i : Instance}
    (hi : i ∈ wiredInstances b a) {port : String} {used : Direction} {type : PortType}
    (ht : Graph.portType (scaffolded c b a) i port used = .ok type) :
    Graph.portType d (settled b a i) port used = .ok type := by
  obtain ⟨hnew, -, -, rfl⟩ := Catalog.add_eq_ok_iff.1 hadd
  obtain ⟨m, dir, hm, hd, ht⟩ := Graph.portType_eq_ok_iff.1 ht
  have hself := (c.module?_put a.name ⟨a.inputs, a.outputs, some B⟩ a.name).trans (if_pos rfl)
  rw [Graph.portType_eq_ok_iff]
  simp only [wiredInstances, List.mem_append, List.mem_cons, List.not_mem_nil, or_false] at hi
  rcases hi with hi | rfl | rfl
  · obtain ⟨m', hm'⟩ := OrderedMap.contains_iff.1 (hs.registered i hi)
    cases (h.grows_scaffolded.module? _ _ hm').symm.trans hm
    rw [settled, if_neg (h.not_block hi).2, if_neg (h.not_block hi).1]
    exact ⟨m, dir, (Catalog.Grows.put hnew _).module? _ _ hm', hd, ht⟩
  · cases h.module?_scaffold_input.symm.trans hm
    cases hd
    rw [settled, if_neg h.blocks_ne, if_pos rfl]
    cases used with
    | input => cases ht
    | output => exact ⟨_, .input, hself, rfl, ht⟩
  · cases module?_scaffold_output.symm.trans hm
    cases hd
    rw [settled, if_pos rfl]
    cases used with
    | input => exact ⟨_, .output, hself, rfl, ht⟩
    | output => cases ht

/-- An assembled composite is sound if the graph that it is made from was. -/
theorem sound (h : Gives c b a B) (hg : a.inside.WellFormed) (hs : a.inside.Sound c)
    (hadd : c.add a.name ⟨a.inputs, a.outputs, some B⟩ = .ok d) : B.Sound d := by
  obtain ⟨W, hW, hB⟩ := h.wired
  obtain ⟨hWg, hWi⟩ := wire_wellFormed hg hW
  have hWs := wire_sound hg (hs.mono h.grows_scaffolded) hW
  have hBW := settle_eq_ok h.blocks_ne hB
  have hinst {n : String} {i : Instance} (hi : W.instance? n = some i) :
      B.instance? n = some (settled b a i) ∧ i ∈ wiredInstances b a := by
    obtain ⟨hmem, hname⟩ := Graph.instance?_eq_some hi
    refine ⟨((h.wellFormed hg).instance?_eq_some_iff).2 ⟨?_, (name_settled i).trans hname⟩,
      hWi ▸ hmem⟩
    rw [hBW]
    exact List.mem_map_of_mem hmem
  obtain ⟨hnew, -, -, hd⟩ := Catalog.add_eq_ok_iff.1 hadd
  refine ⟨fun i hi => ?_, fun w hw => ?_⟩
  · rw [h.instances_eq hg, List.mem_append] at hi
    rcases hi with hi | hi
    · exact hd ▸ (Catalog.Grows.put hnew _).contains (hs.registered i hi)
    · have hname : i.module = a.name := by
        simp only [List.mem_cons, List.not_mem_nil, or_false] at hi
        rcases hi with rfl | rfl <;> rfl
      rw [hname, hd]
      exact Catalog.contains_put.2 (.inl rfl)
  · have hw' : w ∈ W.wires := by
      rw [hBW] at hw
      exact hw
    obtain ⟨i, j, hi, hj, s, t, hsrc, hdst, hst⟩ := hWs.fits w hw'
    refine ⟨_, _, (hinst hi).1, (hinst hj).1, s, t, h.portType_settled hs hadd (hinst hi).2 hsrc,
      h.portType_settled hs hadd (hinst hj).2 hdst, ?_⟩
    rw [hd]
    exact hst

end Gives

end Assembly

end Netlist
