import Netlist.Catalog.Basic
import Netlist.Proofs.OrderedMap
import Netlist.Proofs.Sequencing

/-!
# Modules of a catalog

A catalog is read through the modules under its names. Registering a module or a type changes one
name and leaves the others.

## Main definitions

* `Netlist.Catalog.HasLeaf`: a module is registered and has no inside.
* `Netlist.Catalog.LegalPort`: a port that a module may declare.

## Main results

* `Netlist.Catalog.module?_put`, `Netlist.Catalog.body?_put`: the modules after a change.
* `Netlist.Catalog.checkPorts_eq_ok_iff`: what makes the ports of a module legal.
* `Netlist.Catalog.add_eq_ok_iff`, `Netlist.Catalog.addType_eq_ok_iff`: when a module or a type can
  be registered, and what this gives.
* `Netlist.Catalog.delete_put`: taking out a module that was new restores the catalog.
-/

namespace Netlist.Catalog

variable {c d : Catalog} {name : String}

/-! ### Leaves and composites -/

/-- A module is registered and has no inside. -/
def HasLeaf (c : Catalog) (name : String) : Prop :=
  ∃ m, c.module? name = some m ∧ m.isLeaf = true

theorem contains_iff_module? : c.contains name = true ↔ ∃ m, c.module? name = some m :=
  OrderedMap.contains_iff

theorem body?_eq_some_iff {g : Graph} :
    c.body? name = some g ↔ ∃ m, c.module? name = some m ∧ m.body = some g :=
  Option.bind_eq_some_iff

theorem HasLeaf.contains (h : c.HasLeaf name) : c.contains name = true :=
  contains_iff_module?.2 (h.imp fun _ => And.left)

theorem HasLeaf.body? (h : c.HasLeaf name) : c.body? name = none := by
  obtain ⟨m, hm, hl⟩ := h
  rw [Catalog.body?, hm, Option.bind_some]
  exact Option.isNone_iff_eq_none.1 hl

/-- A registered module without an inside is a leaf. -/
theorem hasLeaf_of_body? (h : c.contains name = true) (hb : c.body? name = none) :
    c.HasLeaf name := by
  obtain ⟨m, hm⟩ := contains_iff_module?.1 h
  rw [Catalog.body?, hm, Option.bind_some] at hb
  exact ⟨m, hm, Option.isNone_iff_eq_none.2 hb⟩

/-! ### New modules and types -/

theorem module?_put (c : Catalog) (name : String) (m : Module) (n : String) :
    (c.put name m).module? n = if n = name then some m else c.module? n :=
  OrderedMap.get?_insert c.modules name m n

theorem module?_eq_none_of_not_contains {name : String} (h : ¬c.contains name = true) :
    c.module? name = none := by
  rw [← Option.not_isSome_iff_eq_none]
  exact h

theorem contains_put {name : String} {m : Module} {n : String} :
    (c.put name m).contains n = true ↔ n = name ∨ c.contains n = true := by
  rw [contains_iff_module?, contains_iff_module?]
  simp only [module?_put]
  split_ifs with h <;> simp [h]

theorem body?_put (c : Catalog) (name : String) (m : Module) (n : String) :
    (c.put name m).body? n = if n = name then m.body else c.body? n := by
  rw [body?, module?_put]
  split_ifs <;> rfl

/-- A port that a module may declare: its name is an identifier, its width is not zero, and the type
that it refers to is known. -/
def LegalPort (types : TypeTable) (e : String × PortType) : Prop :=
  isIdentifier e.1 = true ∧ match e.2 with
    | .bits width => width ≠ 0
    | .named name => types.contains name = true

theorem checkPort_eq_ok_iff {types : TypeTable} {module : String} {e : String × PortType} :
    checkPort types module e = .ok () ↔ LegalPort types e := by
  obtain ⟨port, type⟩ := e
  unfold checkPort LegalPort
  cases type with
  | bits width =>
    by_cases hw : width = 0 <;> by_cases hp : isIdentifier port = true <;> simp [hw, hp]
  | named name =>
    by_cases hn : types.contains name = true <;> by_cases hp : isIdentifier port = true <;>
      simp [hn, hp]

/-- The ports of a module are legal if each of them is, and none is an input and an output. -/
theorem checkPorts_eq_ok_iff {types : TypeTable} {module : String} {inputs outputs : Ports} :
    checkPorts types module inputs outputs = .ok () ↔
      (∀ e ∈ inputs.entries ++ outputs.entries, LegalPort types e) ∧
        ∀ port ∈ inputs.keys, ¬outputs.contains port = true := by
  unfold checkPorts
  rw [bind_eq_ok_iff]
  have hports : ((inputs.entries ++ outputs.entries).forM (checkPort types module)) = .ok ⟨⟩ ↔
      ∀ e ∈ inputs.entries ++ outputs.entries, LegalPort types e := by
    rw [forM_eq_ok_iff]
    exact forall₂_congr fun e _ => checkPort_eq_ok_iff
  have hboth : inputs.keys.find? outputs.contains = none ↔
      ∀ port ∈ inputs.keys, ¬outputs.contains port = true := List.find?_eq_none
  rw [← hports, ← hboth]
  constructor
  · rintro ⟨⟨⟩, h, h'⟩
    refine ⟨h, ?_⟩
    split at h'
    · cases h'
    · assumption
  · rintro ⟨h, h'⟩
    exact ⟨⟨⟩, h, by rw [h']⟩

/-- Ports are refused for what is wrong with them, or for a type that is not known. -/
theorem eq_of_checkPorts_eq_error {types : TypeTable} {module : String} {inputs outputs : Ports}
    {e : Error} (h : checkPorts types module inputs outputs = .error e) :
    (∃ fault, e = .invalidPorts module fault) ∨ ∃ port type, e = .unknownType module port type := by
  rcases bind_eq_error_iff.1 h with h | ⟨⟨⟩, -, h⟩
  · obtain ⟨⟨port, type⟩, -, e', he, heq⟩ := exists_forM_eq_error (by rw [h]; exact nofun)
    cases heq.symm.trans h
    cases type <;> simp only [checkPort] at he <;> split_ifs at he <;> cases he <;> simp
  · split at h <;> cases h
    exact .inl ⟨_, rfl⟩

/-- A module can be registered under a new name with legal ports, if it does not contain itself. -/
theorem add_eq_ok_iff {name : String} {m : Module} : c.add name m = .ok d ↔
    ¬c.contains name = true ∧ checkPorts c.types name m.inputs m.outputs = .ok () ∧
      (∀ g, m.body = some g → c.checkBody name g = .ok ()) ∧ d = c.put name m := by
  unfold add
  by_cases hname : c.contains name = true
  · simp only [hname, if_true, not_true_eq_false, false_and, iff_false]
    exact fun h => nomatch h
  · simp only [hname, Bool.false_eq_true, if_false, not_false_eq_true, true_and]
    rw [bind_eq_ok_iff]
    constructor
    · rintro ⟨⟨⟩, hports, h⟩
      cases hb : m.body with
      | none =>
        rw [hb] at h
        exact ⟨hports, fun g hg => (nomatch hg), (Except.ok.inj h).symm⟩
      | some g =>
        rw [hb] at h
        obtain ⟨⟨⟩, hbody, h⟩ := bind_eq_ok_iff.1 h
        refine ⟨hports, fun g' hg' => ?_, (Except.ok.inj h).symm⟩
        cases hg'
        exact hbody
    · rintro ⟨hports, hbody, rfl⟩
      refine ⟨⟨⟩, hports, ?_⟩
      cases hb : m.body with
      | none => rfl
      | some g => exact bind_eq_ok_iff.2 ⟨⟨⟩, hbody g hb, rfl⟩

/-- A module is refused if there is one with its name, for its ports, or because it contains
itself. -/
theorem add_eq_error_iff {m : Module} {e : Error} : c.add name m = .error e ↔
    (c.contains name = true ∧ e = .duplicateModule name) ∨ ¬c.contains name = true ∧
      (checkPorts c.types name m.inputs m.outputs = .error e ∨
        checkPorts c.types name m.inputs m.outputs = .ok () ∧
          ∃ g, m.body = some g ∧ c.checkBody name g = .error e) := by
  unfold add
  by_cases hname : c.contains name = true
  · simp only [hname, if_true, not_true_eq_false, false_and, or_false, true_and]
    constructor
    · intro h
      cases h
      rfl
    · rintro rfl
      rfl
  · simp only [hname, Bool.false_eq_true, if_false, false_and, not_false_eq_true, true_and,
      false_or]
    rw [bind_eq_error_iff]
    refine or_congr_right ⟨?_, ?_⟩
    · rintro ⟨⟨⟩, hports, h⟩
      cases hbody : m.body with
      | none =>
        rw [hbody] at h
        cases h
      | some g =>
        rw [hbody] at h
        rcases bind_eq_error_iff.1 h with h | ⟨_, -, h⟩
        · exact ⟨hports, g, rfl, h⟩
        · cases h
    · rintro ⟨hports, g, hbody, h⟩
      refine ⟨⟨⟩, hports, ?_⟩
      rw [hbody]
      exact bind_eq_error_iff.2 (.inl h)

theorem delete_eq_ok_iff {m : Module} : c.delete name = .ok (m, d) ↔
    c.module? name = some m ∧ d = { c with modules := c.modules.erase name } := by
  unfold delete
  cases c.module? name <;> simp [eq_comm]

/-- Taking out a module that was new restores the catalog. -/
theorem delete_put (hname : ¬c.contains name = true) (m : Module) :
    (c.put name m).delete name = .ok (m, c) := by
  have hnew : name ∉ c.modules.keys := fun h => hname (OrderedMap.contains_iff_mem_keys.2 h)
  refine delete_eq_ok_iff.2 ⟨(module?_put c name m name).trans (if_pos rfl), ?_⟩
  exact congrArg (Catalog.mk c.types) (OrderedMap.erase_insert_of_notMem m hnew).symm

/-- Taking out a module leaves what was put under another name. -/
theorem delete_put_of_ne {n : String} {m m' : Module} (hn : n ≠ name)
    (h : c.delete name = .ok (m, d)) : (c.put n m').delete name = .ok (m, d.put n m') := by
  obtain ⟨hm, rfl⟩ := delete_eq_ok_iff.1 h
  refine delete_eq_ok_iff.2 ⟨(module?_put c n m' name).trans ((if_neg hn.symm).trans hm), ?_⟩
  exact congrArg (Catalog.mk c.types) (OrderedMap.erase_insert_of_ne _ m' hn).symm

theorem addType_eq_ok_iff {fields : Ports} : c.addType name fields = .ok d ↔
    ¬c.types.contains name = true ∧
      fields.entries.forM (c.types.checkField name) = .ok () ∧
      d = { c with types := c.types.insert name fields } := by
  unfold addType TypeTable.register
  by_cases hname : c.types.contains name = true
  · simp only [hname, if_true, not_true_eq_false, false_and, iff_false]
    exact fun h => nomatch h
  · simp only [hname, Bool.false_eq_true, if_false, not_false_eq_true, true_and]
    rw [bind_eq_ok_iff]
    constructor
    · rintro ⟨t, ht, h⟩
      obtain ⟨⟨⟩, hfields, ht⟩ := bind_eq_ok_iff.1 ht
      cases ht
      exact ⟨hfields, (Except.ok.inj h).symm⟩
    · rintro ⟨hfields, rfl⟩
      exact ⟨_, bind_eq_ok_iff.2 ⟨⟨⟩, hfields, rfl⟩, rfl⟩

end Netlist.Catalog
