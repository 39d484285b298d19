import Mathlib
import Netlist.Proofs.TypeTable.Expansion

/-!
# Types registered one after the other

A type is registered only if its references are in the table already. So a table that grows in this
way stays free of cycles. And a table without cycles can be built in this way: as long as some of
its types are not registered, there is one that refers to none of these.

## Main definitions

* `Netlist.TypeTable.registerAll`: several types are registered.

## Main results

* `Netlist.TypeTable.validate_of_registerAll`: what is built in this way passes validation.
* `Netlist.TypeTable.exists_registerAll`: what passes validation can be built in this way.
* `Netlist.TypeTable.validate_iff_registerAll`: validation accepts the tables that can be built.
-/

namespace Netlist.TypeTable

variable {t u v : TypeTable} {name : String} {fields : Ports} {es es' : List (String × Ports)}

/-- Several types are registered, one after the other. -/
def registerAll (t : TypeTable) (es : List (String × Ports)) : Except Error TypeTable :=
  es.foldlM (fun t e => t.register e.1 e.2) t

/-- A type is registered under a new name if its fields are legal. -/
theorem register_eq_ok_iff : t.register name fields = .ok u ↔
    name ∉ t.keys ∧ (∀ f ∈ fields.entries, t.checkField name f = .ok ()) ∧
      u = t.insert name fields := by
  rw [← OrderedMap.contains_iff_mem_keys, ← forM_eq_ok_iff]
  unfold register
  by_cases hname : t.contains name = true
  · simp only [hname, if_true, not_true_eq_false, false_and, iff_false]
    exact fun h => nomatch h
  · simp only [hname, Bool.false_eq_true, if_false, not_false_eq_true, true_and]
    change (fields.entries.forM (t.checkField name) >>= fun _ => _) = _ ↔ _
    rw [bind_eq_ok_iff]
    constructor
    · rintro ⟨⟨⟩, hfields, h⟩
      cases h
      exact ⟨hfields, rfl⟩
    · rintro ⟨hfields, rfl⟩
      exact ⟨⟨⟩, hfields, rfl⟩

theorem registerAll_nil (t : TypeTable) : t.registerAll [] = .ok t :=
  rfl

theorem registerAll_cons_eq_ok_iff {e : String × Ports} : t.registerAll (e :: es) = .ok v ↔
    ∃ u, t.register e.1 e.2 = .ok u ∧ u.registerAll es = .ok v := by
  rw [registerAll, List.foldlM_cons, bind_eq_ok_iff]
  rfl

/-- The types that are registered come last, in order. -/
theorem entries_of_registerAll (h : t.registerAll es = .ok u) : u.entries = t.entries ++ es := by
  induction es generalizing t with
  | nil =>
    cases h
    exact (List.append_nil _).symm
  | cons e es ih =>
    obtain ⟨v, hv, h⟩ := registerAll_cons_eq_ok_iff.1 h
    obtain ⟨hname, -, rfl⟩ := register_eq_ok_iff.1 hv
    rw [ih h, OrderedMap.entries_insert_of_notMem _ hname, List.append_assoc, List.singleton_append]

/-! ### What is built is valid -/

/-- A table that passes validation passes it with one more type. -/
theorem validate_of_register (ht : t.validate = .ok ()) (h : t.register name fields = .ok u) :
    u.validate = .ok () := by
  obtain ⟨hname, hfields, rfl⟩ := register_eq_ok_iff.1 h
  obtain ⟨hlegal, hwf⟩ := validate_eq_ok_iff.1 ht
  have hkeys (m : String) (hm : m ∈ t.keys) : m ∈ (t.insert name fields).keys := by
    rw [OrderedMap.keys_insert, if_neg hname]
    exact List.mem_append_left _ hm
  have hcheck (type : String) (f : String × PortType) (hf : t.checkField type f = .ok ()) :
      checkField (t.insert name fields) type f = .ok () := by
    obtain ⟨hfield, hwidth, hinner⟩ := checkField_eq_ok_iff.1 hf
    exact checkField_eq_ok_iff.2 ⟨hfield, hwidth, fun m hm => hkeys m (hinner m hm)⟩
  have hold (inner outer : String) (houter : outer ≠ name) :
      Refers (t.insert name fields) inner outer ↔ t.Refers inner outer := by
    rw [Refers, Refers, referencesOf, referencesOf, OrderedMap.get?_insert, if_neg houter]
  -- the new type is inside of none that was there
  have hacc (m : String) (hm : m ∈ t.keys) : Acc (Refers (t.insert name fields)) m := by
    induction hwf.apply m with
    | intro m _ ih =>
      refine Acc.intro m fun inner hinner => ?_
      have hinner := (hold inner m fun he => hname (he ▸ hm)).1 hinner
      exact ih inner hinner (mem_keys_of_refers_of_validate ht hinner)
  refine validate_eq_ok_iff.2 ⟨?_, ⟨fun m => Acc.intro m fun inner hinner => hacc inner ?_⟩⟩
  · rw [OrderedMap.entries_insert_of_notMem fields hname]
    intro e he f hf
    rcases List.mem_append.1 he with he | he
    · exact hcheck _ _ (hlegal e he f hf)
    · cases List.mem_singleton.1 he
      exact hcheck _ _ (hfields f hf)
  · by_cases hm : m = name
    · subst hm
      have hget : (t.insert m fields).get? m = some fields := by
        rw [OrderedMap.get?_insert, if_pos rfl]
      obtain ⟨f, hf, htype⟩ := (refers_iff hget).1 hinner
      exact (checkField_eq_ok_iff.1 (hfields f hf)).2.2 inner htype
    · exact mem_keys_of_refers_of_validate ht ((hold inner m hm).1 hinner)

theorem validate_of_registerAll (ht : t.validate = .ok ()) (h : t.registerAll es = .ok u) :
    u.validate = .ok () :=
  foldlM_keeps (I := fun t => t.validate = .ok ()) (fun _ _ _ _ => validate_of_register) ht h

theorem validate_empty : validate .empty = .ok () :=
  validate_eq_ok_iff.2 ⟨nofun, ⟨fun m => Acc.intro m fun _ h => nomatch h⟩⟩

/-! ### What is valid can be built -/

/-- As long as some types of a valid table are not registered, there is one that can be. -/
theorem exists_register (ht : t.validate = .ok ()) (hne : es ≠ [])
    (hperm : (u.entries ++ es).Perm t.entries) :
    ∃ e ∈ es, ∃ v, u.register e.1 e.2 = .ok v := by
  obtain ⟨hlegal, hwf⟩ := validate_eq_ok_iff.1 ht
  -- this is a type that refers to none of the others that are left
  obtain ⟨name, hname, hmin⟩ := hwf.has_min {m | m ∈ es.map Prod.fst} (by
    obtain ⟨e, he⟩ := List.exists_mem_of_ne_nil es hne
    exact ⟨e.1, List.mem_map_of_mem he⟩)
  obtain ⟨⟨name, fields⟩, he, rfl⟩ := List.mem_map.1 hname
  have hkeys : (u.keys ++ es.map Prod.fst).Perm t.keys := by
    rw [OrderedMap.keys, ← List.map_append]
    exact hperm.map Prod.fst
  have hmem := hperm.mem_iff.1 (List.mem_append_right _ he)
  have hget : t.get? name = some fields := OrderedMap.get?_eq_some_iff.2 hmem
  refine ⟨_, he, _, register_eq_ok_iff.2 ⟨fun hu => ?_, fun f hf => ?_, rfl⟩⟩
  · exact (List.nodup_append.1 (hkeys.nodup_iff.2 t.nodup_keys)).2.2 _ hu _ hname rfl
  · obtain ⟨hfield, hwidth, hinner⟩ := checkField_eq_ok_iff.1 (hlegal _ hmem f hf)
    refine checkField_eq_ok_iff.2 ⟨hfield, hwidth, fun inner htype => ?_⟩
    refine (List.mem_append.1 (hkeys.mem_iff.2 (hinner inner htype))).resolve_right fun hleft => ?_
    exact hmin inner hleft ((refers_iff hget).2 ⟨f, hf, htype⟩)

/-- The types of a valid table that are not registered can be, in some order. -/
theorem exists_registerAll (ht : t.validate = .ok ()) (hperm : (u.entries ++ es).Perm t.entries) :
    ∃ es', es'.Perm es ∧ ∃ v, u.registerAll es' = .ok v := by
  induction hlength : es.length generalizing u es with
  | zero => exact ⟨[], by rw [List.length_eq_zero_iff.1 hlength], u, rfl⟩
  | succ n ih =>
    obtain ⟨e, he, v, hv⟩ := exists_register ht (by rintro rfl; cases hlength) hperm
    obtain ⟨front, back, rfl⟩ := List.append_of_mem he
    have hfront : (front ++ e :: back).Perm (e :: (front ++ back)) := List.perm_middle
    obtain ⟨hname, -, rfl⟩ := register_eq_ok_iff.1 hv
    have hrest : ((u.insert e.1 e.2).entries ++ (front ++ back)).Perm t.entries := by
      rw [OrderedMap.entries_insert_of_notMem _ hname, List.append_assoc, List.singleton_append]
      exact (hfront.symm.append_left _).trans hperm
    obtain ⟨es', hes', w, hw⟩ := ih hrest (by simp at hlength ⊢; omega)
    exact ⟨e :: es', (hes'.cons e).trans hfront.symm, w, registerAll_cons_eq_ok_iff.2 ⟨_, hv, hw⟩⟩

/-! ### Validation -/

/-- The check of a field reports no cycle. -/
theorem checkField_ne_cyclicType (f : String × PortType) {cycle : List String} :
    t.checkField name f ≠ .error (.cyclicType cycle) := by
  obtain ⟨field, type⟩ := f
  cases type <;> unfold checkField <;> dsimp only <;> split_ifs <;> exact nofun

/-- What validation reports as a cycle is one. -/
theorem isCycle_of_validate {cycle : List String} (h : t.validate = .error (.cyclicType cycle)) :
    IsCycle (fun outer inner => t.Refers inner outer) cycle := by
  rw [validate, bind_eq_error_iff] at h
  rcases h with h | ⟨⟨⟩, -, h⟩
  · exfalso
    have hne : t.entries.forM (fun e => e.2.entries.forM (t.checkField e.1)) ≠ .ok ⟨⟩ := by
      intro hok
      cases h.symm.trans hok
    obtain ⟨e, -, _, he, hall⟩ := exists_forM_eq_error hne
    cases h.symm.trans hall
    have hne : e.2.entries.forM (t.checkField e.1) ≠ .ok ⟨⟩ := by
      intro hok
      cases he.symm.trans hok
    obtain ⟨f, -, _, hf, hall⟩ := exists_forM_eq_error hne
    cases he.symm.trans hall
    exact checkField_ne_cyclicType f hf
  · rcases bind_eq_error_iff.1 h with h | ⟨_, -, h⟩
    · obtain ⟨_, hvisit, heq⟩ := mapError_eq_error_iff.1 h
      cases heq
      exact isCycle_of_visitAll hvisit
    · cases h

/-- Validation accepts a table exactly if its types can be registered in some order, beginning with
an empty table. Then no chain of references goes on forever, and each type in the table has a shape,
which is the one that is computed. And if validation reports a cycle of types, then this is a list
of two types at least that ends where it begins, in which each type has a field of the next. -/
theorem validate_iff_registerAll (t : TypeTable) :
    (t.validate = .ok () ↔ ∃ u, u.entries.Perm t.entries ∧ registerAll .empty u.entries = .ok u) ∧
    (t.validate = .ok () → WellFounded t.Refers ∧ ∀ name ∈ t.keys, ∃ shape,
      t.HasShape (.named name) shape ∧ t.shape? (.named name) = some shape) ∧
    ∀ cycle, t.validate = .error (.cyclicType cycle) →
      IsCycle (fun outer inner => t.Refers inner outer) cycle := by
  refine ⟨⟨fun h => ?_, ?_⟩, fun h => ⟨(validate_eq_ok_iff.1 h).2, fun name hname => ?_⟩, ?_⟩
  · obtain ⟨es, hes, u, hu⟩ := @exists_registerAll t .empty t.entries h (.refl _)
    have hentries : u.entries = es := entries_of_registerAll hu
    exact ⟨u, hentries ▸ hes, hentries ▸ hu⟩
  · rintro ⟨u, hperm, hu⟩
    exact validate_of_perm hperm (validate_of_registerAll validate_empty hu)
  · obtain ⟨shape, hshape⟩ :=
      (resolves_iff_of_validate h).2 fun m hm => PortType.named.inj hm ▸ hname
    exact ⟨shape, hshape, shape?_eq_some_iff.2 hshape⟩
  · exact fun cycle h => isCycle_of_validate h

/-- A type with fields of two types that come after it, which have the same fields in different
orders. -/
def turned : TypeTable :=
  .ofList [("outer", .ofList [("x", .named "inner"), ("y", .named "swapped")]),
    ("inner", .ofList [("lo", .bits 8), ("hi", .bits 4)]),
    ("swapped", .ofList [("hi", .bits 4), ("lo", .bits 8)])]

/-- These types cannot be registered in the order in which they stand, but in another one. -/
theorem validate_iff_registerAll_turned : turned.validate = .ok () ∧
    registerAll .empty turned.entries = .error (.invalidFieldType "outer" "x" "inner") ∧
    ∃ u, u.entries.Perm turned.entries ∧ registerAll .empty u.entries = .ok u := by
  have hturned : turned.validate = .ok () := by decide_cbv
  exact ⟨hturned, by decide_cbv, (validate_iff_registerAll turned).1.1 hturned⟩

end Netlist.TypeTable
