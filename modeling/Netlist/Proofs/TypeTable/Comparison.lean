import Netlist.Proofs.TypeTable.Registration

/-!
# Comparing types by their shapes

Two types are alike if they expand to the same shape. A shape does not show the names of types, nor
the order in which fields were declared, and it stays when types are added.

## Main definitions

* `Netlist.TypeTable.Rearranged`: a table has the fields of another one, in whatever order.

## Main results

* `Netlist.Shape.ofFields_of_perm`: the order of fields does not matter for a record.
* `Netlist.TypeTable.alike_iff`: what is compared.
* `Netlist.TypeTable.Rearranged.hasShape_iff`: shapes do not depend on the order of fields.
* `Netlist.TypeTable.alike_compares_shapes`: the comparison of types in a valid table.
-/

namespace Netlist

/-! ### Records -/

namespace Shape

/-- Fields with different names can be put into a record in any order. -/
theorem insertField_comm {a b : String} (h : a ≠ b) (s s' : Shape) (fs : List (String × Shape)) :
    insertField a s (insertField b s' fs) = insertField b s' (insertField a s fs) := by
  induction fs with
  | nil =>
    rcases lt_or_gt_of_ne h with hlt | hlt <;> simp [insertField, hlt, hlt.not_gt]
  | cons f fs ih =>
    by_cases ha : a < f.1
    · by_cases hb : b < f.1
      · rcases lt_or_gt_of_ne h with hlt | hlt <;> simp [insertField, ha, hb, hlt, hlt.not_gt]
      · -- the name `a` comes first
        have hba : ¬b < a := fun hlt => hb (hlt.trans ha)
        simp [insertField, ha, hb, hba]
    · by_cases hb : b < f.1
      · have hab : ¬a < b := fun hlt => ha (hlt.trans hb)
        simp [insertField, ha, hb, hab]
      · simp [insertField, ha, hb, ih]

/-- The order in which fields with different names are listed does not matter for a record. -/
theorem ofFields_of_perm {fs gs : List (String × Shape)} (h : fs.Perm gs)
    (hnodup : (fs.map Prod.fst).Nodup) : ofFields fs = ofFields gs := by
  refine congrArg record (h.foldr_eq' (fun e he e' he' rest => ?_) [])
  by_cases hname : e.1 = e'.1
  · rw [List.inj_on_of_nodup_map hnodup he he' hname]
  · exact insertField_comm (Ne.symm hname) e'.2 e.2 rest

end Shape

namespace TypeTable

variable {t u : TypeTable} {a b c : PortType} {s : Shape}

/-! ### What is compared -/

/-- Types are alike if there is a shape to which both expand. -/
theorem alike_iff : t.Alike a b ↔ ∃ s, t.HasShape a s ∧ t.HasShape b s := by
  rw [Alike, Option.isSome_iff_exists]
  constructor
  · rintro ⟨⟨s, hs⟩, heq⟩
    exact ⟨s, shape?_eq_some_iff.1 hs, shape?_eq_some_iff.1 (heq ▸ hs)⟩
  · rintro ⟨s, ha, hb⟩
    have ha := shape?_eq_some_iff.2 ha
    exact ⟨⟨s, ha⟩, ha.trans (shape?_eq_some_iff.2 hb).symm⟩

/-- A type is alike to itself if it expands. -/
theorem alike_self_iff : t.Alike a a ↔ t.Resolves a := by
  rw [alike_iff]
  exact exists_congr fun _ => and_self_iff

theorem Alike.symm (h : t.Alike a b) : t.Alike b a :=
  alike_iff.2 ((alike_iff.1 h).imp fun _ => And.symm)

theorem Alike.resolves (h : t.Alike a b) : t.Resolves a ∧ t.Resolves b := by
  obtain ⟨s, ha, hb⟩ := alike_iff.1 h
  exact ⟨⟨s, ha⟩, s, hb⟩

theorem bitWidth?_eq_some_iff {n : UInt64} :
    t.bitWidth? a = some n ↔ ∃ s, t.HasShape a s ∧ s.bitWidth = n := by
  rw [bitWidth?, Option.map_eq_some_iff]
  exact exists_congr fun _ => and_congr_left fun _ => shape?_eq_some_iff

/-- Tables in which types expand to the same shapes compare them with the same outcome, and find the
same widths. -/
theorem alike_congr (ha : ∀ s, u.HasShape a s ↔ t.HasShape a s)
    (hb : ∀ s, u.HasShape b s ↔ t.HasShape b s) :
    (u.Alike a b ↔ t.Alike a b) ∧ u.bitWidth? a = t.bitWidth? a := by
  refine ⟨?_, Option.ext fun n => ?_⟩
  · rw [alike_iff, alike_iff]
    exact exists_congr fun s => and_congr (ha s) (hb s)
  · rw [bitWidth?_eq_some_iff, bitWidth?_eq_some_iff]
    exact exists_congr fun s => and_congr_left fun _ => ha s

/-! ### Other tables -/

/-- What expands has the same shape after other types were registered. -/
theorem hasShape_iff_of_registerAll {es : List (String × Ports)} (h : t.registerAll es = .ok u)
    (ha : t.Resolves a) : u.HasShape a s ↔ t.HasShape a s := by
  have hmono (s : Shape) (hs : t.HasShape a s) : u.HasShape a s := by
    refine hs.mono fun name fields hget => ?_
    rw [OrderedMap.get?_eq_some_iff, entries_of_registerAll h]
    exact List.mem_append_left _ (OrderedMap.get?_eq_some_iff.1 hget)
  refine ⟨fun hs => ?_, hmono s⟩
  obtain ⟨s', hs'⟩ := ha
  rwa [hs.unique (hmono s' hs')]

/-- Both tables have types of the same names, and these have the same fields, in whatever order. -/
def Rearranged (t u : TypeTable) : Prop :=
  OrderedMap.AgreeBy (fun fields fields' : Ports => fields.entries.Perm fields'.entries) t u

instance (t u : TypeTable) : Decidable (t.Rearranged u) :=
  inferInstanceAs (Decidable (OrderedMap.AgreeBy _ t u))

namespace Rearranged

theorem symm (h : t.Rearranged u) : u.Rearranged t :=
  ⟨(OrderedMap.AgreeBy.symm h).1, fun e he => by
    obtain ⟨fields, hget, hperm⟩ := (OrderedMap.AgreeBy.symm h).2 e he
    exact ⟨fields, hget, hperm.symm⟩⟩

theorem hasShape (h : t.Rearranged u) (hs : t.HasShape a s) : u.HasShape a s := by
  induction hs with
  | bits width => exact .bits width
  | @record name fields shapeOf hget _ ih =>
    obtain ⟨fields', hget', hperm⟩ := OrderedMap.AgreeBy.exists_of_get? h hget
    have hnodup : ((fields.entries.map fun f => (f.1, shapeOf f.2)).map Prod.fst).Nodup := by
      rw [List.map_map]
      exact fields.nodup_keys
    rw [Shape.ofFields_of_perm (hperm.map _) hnodup]
    exact .record hget' fun f hf => ih f (hperm.mem_iff.2 hf)

/-- Shapes do not depend on the order in which fields were declared. -/
theorem hasShape_iff (h : t.Rearranged u) : u.HasShape a s ↔ t.HasShape a s :=
  ⟨h.symm.hasShape, h.hasShape⟩

end Rearranged

/-- In a valid table, types are compared by what they expand to, which for a type and itself means
that it expands at all. The types that expand are the bit vectors and the types in the table. Among
these, to be alike is an equivalence, and no others are alike. Types that are alike have the same
number of bits. Neither the comparison nor the number of bits changes for types that expand when
other types are registered, nor for any types when fields are declared in another order. -/
theorem alike_compares_shapes (ht : t.validate = .ok ()) :
    (∀ a b, t.Alike a b ↔ if a = b then t.Resolves a else ∃ s, t.HasShape a s ∧ t.HasShape b s) ∧
    (∀ a, t.Resolves a ↔ ∀ name, a = .named name → name ∈ t.keys) ∧
    Equivalence (fun a b : {a // t.Resolves a} => t.Alike a b) ∧
    (∀ a b, t.Alike a b → t.Resolves a ∧ t.Resolves b) ∧
    (∀ a b, t.Alike a b → ∃ n, t.bitWidth? a = some n ∧ t.bitWidth? b = some n) ∧
    (∀ es u, t.registerAll es = .ok u → ∀ a b, t.Resolves a → t.Resolves b →
      (u.Alike a b ↔ t.Alike a b) ∧ u.bitWidth? a = t.bitWidth? a) ∧
    ∀ u, t.Rearranged u → ∀ a b, (u.Alike a b ↔ t.Alike a b) ∧ u.bitWidth? a = t.bitWidth? a := by
  refine ⟨fun a b => ?_, fun a => resolves_iff_of_validate ht, ⟨?_, ?_, ?_⟩,
    fun a b h => h.resolves, fun a b h => ?_, fun es u hu a b ha hb => ?_, fun u hu a b => ?_⟩
  · split_ifs with hab
    · rw [hab, alike_self_iff]
    · exact alike_iff
  · exact fun a => alike_self_iff.2 a.2
  · exact fun h => h.symm
  · intro a b c hab hbc
    exact ⟨hab.1, hab.2.trans hbc.2⟩
  · obtain ⟨s, ha, hb⟩ := alike_iff.1 h
    exact ⟨_, bitWidth?_eq_some_iff.2 ⟨s, ha, rfl⟩, bitWidth?_eq_some_iff.2 ⟨s, hb, rfl⟩⟩
  · exact alike_congr (fun _ => hasShape_iff_of_registerAll hu ha)
      fun _ => hasShape_iff_of_registerAll hu hb
  · exact alike_congr (fun _ => hu.hasShape_iff) fun _ => hu.hasShape_iff

/-- The fields of `turned` in the opposite order. -/
def turnedBack : TypeTable :=
  .ofList [("outer", .ofList [("y", .named "swapped"), ("x", .named "inner")]),
    ("inner", .ofList [("hi", .bits 4), ("lo", .bits 8)]),
    ("swapped", .ofList [("lo", .bits 8), ("hi", .bits 4)])]

/-- Two types with the same fields stay alike when all fields are turned around. -/
theorem alike_compares_shapes_turned : turned.validate = .ok () ∧ turned.Rearranged turnedBack ∧
    turnedBack.Alike (.named "inner") (.named "swapped") ∧
    turnedBack.bitWidth? (.named "outer") = some 24 := by
  have hturned : turned.validate = .ok () := by decide_cbv
  have hback : turned.Rearranged turnedBack := by decide_cbv
  obtain ⟨-, -, -, -, -, -, hsame⟩ := alike_compares_shapes hturned
  refine ⟨hturned, hback, (hsame _ hback _ _).1.2 (by decide_cbv), ?_⟩
  exact (hsame _ hback (.named "outer") (.named "outer")).2.trans (by decide_cbv)

end TypeTable

end Netlist
