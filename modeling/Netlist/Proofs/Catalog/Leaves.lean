import Netlist.Proofs.Catalog.Edit
import Netlist.Proofs.Catalog.Modules

/-!
# Registering several leaves

Several leaves are checked one after the other, each against the catalog and the names of those in
front of it, and registered only then. The check does not change the catalog and nevertheless finds
what registering them one by one would: so after a check that succeeds no registration fails, and
after one that fails there is nothing to take back.

## Main definitions

* `Netlist.Catalog.IllegalPort`, `Netlist.Catalog.IllegalPorts`: why ports are refused.
* `Netlist.Catalog.Admissible`: leaves that can be registered.
* `Netlist.Catalog.Offends`: why a leaf cannot be registered behind others.
* `Netlist.Catalog.addLeaves`: leaves are registered one by one.

## Main results

* `Netlist.Catalog.checkPorts_eq_error_iff`: the first fault in the ports of a module.
* `Netlist.Catalog.addLeaves_eq_ok_iff`, `Netlist.Catalog.addLeaves_eq_error_iff`: one by one.
* `Netlist.Catalog.runOn_registerLeaves`: all at once, as one by one.
* `Netlist.Catalog.registerLeaves_all_or_nothing`: when leaves are registered, and why not.
-/

namespace Netlist.Catalog

variable {c d : Catalog} {types : TypeTable} {module : String} {inputs outputs : Ports} {e : Error}
  {i : Interface} {leaves : List Interface}

/-! ### Ports -/

/-- The ports of a module are legal, each of them and together. -/
def LegalPorts (types : TypeTable) (inputs outputs : Ports) : Prop :=
  (∀ p ∈ inputs.entries ++ outputs.entries, LegalPort types p) ∧
    ∀ port ∈ inputs.keys, port ∉ outputs.keys

theorem checkPorts_eq_ok_iff_legalPorts :
    checkPorts types module inputs outputs = .ok () ↔ LegalPorts types inputs outputs := by
  simp only [checkPorts_eq_ok_iff, LegalPorts, OrderedMap.contains_iff_mem_keys]

/-- What is wrong with a port that no module may declare: its name, then its width, then the type
that it refers to. -/
inductive IllegalPort (types : TypeTable) (module : String) : String × PortType → Error → Prop
  | name {port : String} {type : PortType} : ¬isIdentifier port = true →
      IllegalPort types module (port, type) (.invalidPorts module (.name port))
  | width {port : String} : isIdentifier port = true →
      IllegalPort types module (port, .bits 0) (.invalidPorts module (.zeroWidth port))
  | type {port name : String} : isIdentifier port = true → ¬types.contains name = true →
      IllegalPort types module (port, .named name) (.unknownType module port name)

/-- What is wrong with the ports of a module: the first illegal one, inputs first, or else the first
input that is an output as well. -/
inductive IllegalPorts (types : TypeTable) (module : String) (inputs outputs : Ports) :
    Error → Prop
  | port {front back : List (String × PortType)} {p : String × PortType} {e : Error} :
      inputs.entries ++ outputs.entries = front ++ p :: back → (∀ q ∈ front, LegalPort types q) →
      IllegalPort types module p e → IllegalPorts types module inputs outputs e
  | twofold {front back : List String} {port : String} :
      (∀ p ∈ inputs.entries ++ outputs.entries, LegalPort types p) →
      inputs.keys = front ++ port :: back → (∀ q ∈ front, q ∉ outputs.keys) →
      port ∈ outputs.keys →
      IllegalPorts types module inputs outputs (.invalidPorts module (.bothDirections port))

theorem checkPort_eq_error_iff {p : String × PortType} :
    checkPort types module p = .error e ↔ IllegalPort types module p e := by
  obtain ⟨port, type⟩ := p
  unfold checkPort
  constructor
  · intro h
    by_cases hname : isIdentifier port = true
    · simp only [hname, Bool.not_true, Bool.false_eq_true, if_false] at h
      cases type with
      | bits width =>
        dsimp only at h
        split_ifs at h with hwidth
        cases h
        exact hwidth ▸ .width hname
      | named name =>
        dsimp only at h
        split_ifs at h with htype
        cases h
        exact .type hname htype
    · simp only [hname, Bool.not_false, if_true, Except.error.injEq] at h
      exact h ▸ .name hname
  · intro h
    cases h with
    | name hname => simp [hname]
    | width hname => simp [hname]
    | type hname htype => simp [hname, htype]

/-- Ports are refused for the first thing that is wrong with them. -/
theorem checkPorts_eq_error_iff :
    checkPorts types module inputs outputs = .error e ↔
      IllegalPorts types module inputs outputs e := by
  unfold checkPorts
  rw [bind_eq_error_iff, forM_eq_error_iff]
  constructor
  · rintro (⟨front, p, back, hports, hfront, hp⟩ | ⟨⟨⟩, hports, h⟩)
    · exact .port hports (fun q hq => checkPort_eq_ok_iff.1 (hfront q hq))
        (checkPort_eq_error_iff.1 hp)
    · split at h
      · rename_i port hfind
        cases h
        obtain ⟨hport, front, back, hkeys, hfront⟩ := List.find?_eq_some_iff_append.1 hfind
        refine .twofold (fun p hp => checkPort_eq_ok_iff.1 (forM_eq_ok_iff.1 hports p hp)) hkeys
          (fun q hq hmem => ?_) (OrderedMap.contains_iff_mem_keys.1 hport)
        have hq := hfront q hq
        rw [OrderedMap.contains_iff_mem_keys.2 hmem] at hq
        cases hq
      · cases h
  · rintro (⟨hports, hfront, hp⟩ | ⟨hports, hkeys, hfront, hport⟩)
    · exact .inl ⟨_, _, _, hports, fun q hq => checkPort_eq_ok_iff.2 (hfront q hq),
        checkPort_eq_error_iff.2 hp⟩
    · refine .inr ⟨⟨⟩, forM_eq_ok_iff.2 fun p hp => checkPort_eq_ok_iff.2 (hports p hp), ?_⟩
      have hfind := List.find?_eq_some_iff_append.2
        ⟨OrderedMap.contains_iff_mem_keys.2 hport, _, _, hkeys, fun q hq => by
          have hq := hfront q hq
          rw [← OrderedMap.contains_iff_mem_keys] at hq
          simp [hq]⟩
      rw [hfind]

/-! ### One leaf -/

theorem names_put_of_notMem {name : String} (h : name ∉ c.names) (m : Module) :
    (c.put name m).names = c.names ++ [name] :=
  (OrderedMap.keys_insert c.modules name m).trans (if_neg h)

theorem add_leaf_eq_ok_iff : c.add i.name (leaf i) = .ok d ↔
    i.name ∉ c.names ∧ LegalPorts c.types i.inputs i.outputs ∧ d = c.put i.name (leaf i) := by
  rw [add_eq_ok_iff, contains, OrderedMap.contains_iff_mem_keys, names,
    ← @checkPorts_eq_ok_iff_legalPorts c.types i.name]
  simp [leaf]

theorem add_leaf_eq_error_iff : c.add i.name (leaf i) = .error e ↔
    (i.name ∈ c.names ∧ e = .duplicateModule i.name) ∨
      (i.name ∉ c.names ∧ IllegalPorts c.types i.name i.inputs i.outputs e) := by
  rw [← checkPorts_eq_error_iff, names, ← OrderedMap.contains_iff_mem_keys, ← contains]
  unfold add
  by_cases hname : c.contains i.name = true
  · simp only [hname, if_true, true_and, not_true_eq_false, false_and, or_false]
    exact ⟨fun h => (Except.error.inj h).symm, fun h => h ▸ rfl⟩
  · simp only [hname, Bool.false_eq_true, if_false, false_and, not_false_eq_true, true_and,
      false_or]
    change (checkPorts c.types i.name i.inputs i.outputs >>= fun _ => Except.ok _) = _ ↔ _
    rw [bind_eq_error_iff, or_iff_left]
    rintro ⟨_, _, h⟩
    cases h

/-! ### One leaf after the other -/

/-- Register leaves one after the other. -/
def addLeaves (c : Catalog) (leaves : List Interface) : Except Error Catalog :=
  leaves.foldlM (fun c i => c.add i.name (leaf i)) c

/-- Leaves with different and new names and with legal ports. -/
structure Admissible (c : Catalog) (leaves : List Interface) : Prop where
  distinct : (leaves.map Interface.name).Nodup
  new : ∀ i ∈ leaves, i.name ∉ c.names
  legal : ∀ i ∈ leaves, LegalPorts c.types i.inputs i.outputs

/-- Why a leaf cannot be registered behind others: its name is known, or else its ports are
illegal. -/
inductive Offends (c : Catalog) (before : List Interface) (i : Interface) : Error → Prop
  | known : (i.name ∈ c.names ∨ i.name ∈ before.map Interface.name) →
      Offends c before i (.duplicateModule i.name)
  | illegal {e : Error} : ¬(i.name ∈ c.names ∨ i.name ∈ before.map Interface.name) →
      IllegalPorts c.types i.name i.inputs i.outputs e → Offends c before i e

theorem admissible_cons : Admissible c (i :: leaves) ↔
    (i.name ∉ c.names ∧ LegalPorts c.types i.inputs i.outputs) ∧
      Admissible (c.put i.name (leaf i)) leaves := by
  constructor
  · rintro ⟨hdistinct, hnew, hlegal⟩
    obtain ⟨hi, hdistinct⟩ := List.nodup_cons.1 hdistinct
    obtain ⟨hname, hnew⟩ := List.forall_mem_cons.1 hnew
    obtain ⟨hports, hlegal⟩ := List.forall_mem_cons.1 hlegal
    refine ⟨⟨hname, hports⟩, hdistinct, fun j hj hmem => ?_, hlegal⟩
    rw [names_put_of_notMem hname, List.mem_append, List.mem_singleton] at hmem
    rcases hmem with hmem | hmem
    · exact hnew j hj hmem
    · exact hi (hmem ▸ List.mem_map_of_mem hj)
  · rintro ⟨⟨hname, hports⟩, hdistinct, hnew, hlegal⟩
    simp only [names_put_of_notMem hname, List.mem_append, List.mem_singleton, not_or] at hnew
    refine ⟨List.nodup_cons.2 ⟨fun hmem => ?_, hdistinct⟩,
      List.forall_mem_cons.2 ⟨hname, fun j hj => (hnew j hj).1⟩,
      List.forall_mem_cons.2 ⟨hports, hlegal⟩⟩
    obtain ⟨j, hj, heq⟩ := List.mem_map.1 hmem
    exact (hnew j hj).2 heq

theorem addLeaves_cons_eq_ok_iff : c.addLeaves (i :: leaves) = .ok d ↔
    (i.name ∉ c.names ∧ LegalPorts c.types i.inputs i.outputs) ∧
      (c.put i.name (leaf i)).addLeaves leaves = .ok d := by
  change (c.add i.name (leaf i) >>= fun c => c.addLeaves leaves) = .ok d ↔ _
  simp only [bind_eq_ok_iff, add_leaf_eq_ok_iff]
  constructor
  · rintro ⟨_, ⟨hname, hports, rfl⟩, h⟩
    exact ⟨⟨hname, hports⟩, h⟩
  · rintro ⟨⟨hname, hports⟩, h⟩
    exact ⟨_, ⟨hname, hports, rfl⟩, h⟩

theorem exists_addLeaves_iff : (∃ d, c.addLeaves leaves = .ok d) ↔ Admissible c leaves := by
  induction leaves generalizing c with
  | nil => exact iff_of_true ⟨c, rfl⟩ ⟨List.nodup_nil, nofun, nofun⟩
  | cons i leaves ih => simp only [addLeaves_cons_eq_ok_iff, exists_and_left, ih, admissible_cons]

/-- Leaves that are registered stand at the end of the catalog, in their order. -/
theorem entries_addLeaves (h : c.addLeaves leaves = .ok d) : d.types = c.types ∧
    d.modules.entries = c.modules.entries ++ leaves.map fun i => (i.name, leaf i) := by
  induction leaves generalizing c with
  | nil =>
    cases h
    exact ⟨rfl, (List.append_nil _).symm⟩
  | cons i leaves ih =>
    obtain ⟨⟨hname, -⟩, h⟩ := addLeaves_cons_eq_ok_iff.1 h
    obtain ⟨htypes, hentries⟩ := ih h
    refine ⟨htypes, ?_⟩
    rw [hentries, put, OrderedMap.entries_insert_of_notMem _ hname, List.append_assoc]
    rfl

/-- Leaves can be registered one after the other if they are admissible, and this gives a catalog
with the leaves at its end. -/
theorem addLeaves_eq_ok_iff : c.addLeaves leaves = .ok d ↔ Admissible c leaves ∧
    d.types = c.types ∧
      d.modules.entries = c.modules.entries ++ leaves.map fun i => (i.name, leaf i) := by
  refine ⟨fun h => ⟨exists_addLeaves_iff.1 ⟨d, h⟩, entries_addLeaves h⟩, ?_⟩
  rintro ⟨hleaves, htypes, hentries⟩
  obtain ⟨d', h⟩ := exists_addLeaves_iff.2 hleaves
  obtain ⟨htypes', hentries'⟩ := entries_addLeaves h
  obtain ⟨types, modules⟩ := d
  obtain ⟨types', modules'⟩ := d'
  obtain rfl : types' = types := htypes'.trans htypes.symm
  obtain rfl : modules' = modules := OrderedMap.ext_entries (hentries'.trans hentries.symm)
  exact h

/-- Registering leaves one after the other fails at the first of them that offends. -/
theorem addLeaves_eq_error_iff : c.addLeaves leaves = .error e ↔ ∃ front i back,
    leaves = front ++ i :: back ∧ Admissible c front ∧ Offends c front i e := by
  unfold addLeaves
  rw [foldlM_eq_error_iff]
  have hoffends {front : List Interface} {i : Interface} {c' : Catalog}
      (h : c.addLeaves front = .ok c') :
      c'.add i.name (leaf i) = .error e ↔ Offends c front i e := by
    obtain ⟨htypes, hentries⟩ := entries_addLeaves h
    have hnames : i.name ∈ c'.names ↔ i.name ∈ c.names ∨ i.name ∈ front.map Interface.name := by
      simp only [names, OrderedMap.keys, hentries, List.map_append, List.map_map, List.mem_append]
      rfl
    rw [add_leaf_eq_error_iff, hnames, htypes]
    constructor
    · rintro (⟨hname, rfl⟩ | ⟨hname, hports⟩)
      · exact .known hname
      · exact .illegal hname hports
    · rintro (hname | ⟨hname, hports⟩)
      · exact .inl ⟨hname, rfl⟩
      · exact .inr ⟨hname, hports⟩
  constructor
  · rintro ⟨front, i, back, c', heq, hfront, hi⟩
    exact ⟨front, i, back, heq, (addLeaves_eq_ok_iff.1 hfront).1, (hoffends hfront).1 hi⟩
  · rintro ⟨front, i, back, heq, hfront, hi⟩
    obtain ⟨c', hc'⟩ := exists_addLeaves_iff.2 hfront
    exact ⟨front, i, back, c', heq, hc', (hoffends hc').2 hi⟩

/-! ### All leaves at once -/

/-- The check of several leaves finds what registering them would. -/
theorem checkLeaves_eq {seen : List String} (htypes : d.types = c.types)
    (hnames : ∀ name, name ∈ d.names ↔ name ∈ c.names ∨ name ∈ seen) :
    c.checkLeaves seen leaves = (d.addLeaves leaves).map fun _ => () := by
  induction leaves generalizing d seen with
  | nil => rfl
  | cons i leaves ih =>
    have hname : (c.contains i.name = true ∨ i.name ∈ seen) ↔ d.contains i.name = true := by
      rw [contains, contains, OrderedMap.contains_iff_mem_keys, OrderedMap.contains_iff_mem_keys]
      exact (hnames i.name).symm
    change _ = (d.add i.name (leaf i) >>= fun d => d.addLeaves leaves).map fun _ => ()
    unfold checkLeaves add
    by_cases hi : d.contains i.name = true
    · rw [if_pos (hname.2 hi), if_pos hi]
      rfl
    · have hnew : i.name ∉ d.names := fun h => hi (OrderedMap.contains_iff_mem_keys.2 h)
      rw [if_neg (mt hname.1 hi), if_neg hi, ← htypes]
      change (checkPorts d.types i.name i.inputs i.outputs >>= fun _ => _) =
        ((checkPorts d.types i.name i.inputs i.outputs >>= fun _ => .ok (d.put i.name (leaf i)))
          >>= fun d => d.addLeaves leaves).map _
      cases checkPorts d.types i.name i.inputs i.outputs with
      | error e => rfl
      | ok _ =>
        refine ih htypes fun name => ?_
        rw [names_put_of_notMem hnew, List.mem_append, List.mem_singleton, hnames, List.mem_cons]
        tauto

/-- Leaves that can be registered one after the other are. -/
theorem runOn_forM_add (h : c.addLeaves leaves = .ok d) :
    (leaves.forM fun i => Edit.add i.name (leaf i)).runOn c = (.ok (), d) := by
  induction leaves generalizing c with
  | nil =>
    cases h
    rfl
  | cons i leaves ih =>
    obtain ⟨hi, h⟩ := addLeaves_cons_eq_ok_iff.1 h
    rw [Edit.runOn_forM_cons, Edit.runOn_bind, Edit.runOn_add,
      add_leaf_eq_ok_iff.2 ⟨hi.1, hi.2, rfl⟩]
    exact ih h

/-- Leaves are registered at once if they can be registered one by one, and with the same result. If
not, the error is the same, and nothing is left of those in front of it. -/
theorem runOn_registerLeaves (c : Catalog) (leaves : List Interface) :
    (registerLeaves leaves).runOn c = match c.addLeaves leaves with
      | .ok d => (.ok leaves.length, d)
      | .error e => (.error e, c) := by
  have hcheck : c.checkLeaves [] leaves = (c.addLeaves leaves).map fun _ => () :=
    checkLeaves_eq rfl fun name => by simp
  unfold registerLeaves
  rw [Edit.runOn_bind, Edit.runOn_query, hcheck]
  cases h : c.addLeaves leaves with
  | error e => rfl
  | ok d =>
    change ((leaves.forM fun i => Edit.add i.name (leaf i)) >>= fun _ => _).runOn c = _
    rw [Edit.runOn_bind, runOn_forM_add h]
    rfl

/-- Several leaves are registered exactly if their names are new and differ from each other and
their ports are legal. Then they are what the catalog gains, in their order and at its end. If not,
the error tells what is wrong with the first leaf that offends, and the catalog is left as it was.
All of this is as if they were registered one by one, but that of those in front of the offending
one nothing is left. -/
theorem registerLeaves_all_or_nothing (c : Catalog) (leaves : List Interface) :
    (∀ n d, (registerLeaves leaves).runOn c = (.ok n, d) ↔
      Admissible c leaves ∧ n = leaves.length ∧ d.types = c.types ∧
        d.modules.entries = c.modules.entries ++ leaves.map fun i => (i.name, leaf i)) ∧
    (∀ e d, (registerLeaves leaves).runOn c = (.error e, d) ↔
      (∃ front i back, leaves = front ++ i :: back ∧ Admissible c front ∧ Offends c front i e) ∧
        d = c) ∧
    (registerLeaves leaves).runOn c = match c.addLeaves leaves with
      | .ok d => (.ok leaves.length, d)
      | .error e => (.error e, c) := by
  refine ⟨fun n d => ?_, fun e d => ?_, runOn_registerLeaves c leaves⟩
  · rw [runOn_registerLeaves, ← and_left_comm, ← addLeaves_eq_ok_iff]
    cases c.addLeaves leaves <;> simp [eq_comm]
  · rw [runOn_registerLeaves, ← addLeaves_eq_error_iff]
    cases c.addLeaves leaves <;> simp [eq_comm]

end Netlist.Catalog
