import Netlist.Proofs.TypeTable.References

/-!
# Expansions of types

The shape of a type is found by going into its fields, and into the fields of their types, with no
bound on how deep this leads. A type has a shape if this comes to an end without a missing type. The
bound with which shapes are computed is never reached where it does: the types on the way inwards
are different ones, and all of them are in the table.

## Main definitions

* `Netlist.TypeTable.HasShape`: a type expands to a shape.
* `Netlist.TypeTable.Resolves`: a type expands to some shape.

## Main results

* `Netlist.TypeTable.shape?_eq_some_iff`: the shape that is computed for a type.
* `Netlist.TypeTable.resolves_iff_of_validate`: in a table that passes validation, the types in it
  have shapes.
* `Netlist.TypeTable.HasShape.mono`: shapes stay when types are added.
-/

namespace Netlist.TypeTable

open Relation (ReflTransGen TransGen)

variable {t u : TypeTable} {type : PortType} {name : String} {fields : Ports} {s s' : Shape}

/-- A type expands to a shape: a bit vector to itself, and a named type to the record of what its
fields expand to. -/
inductive HasShape (t : TypeTable) : PortType → Shape → Prop
  | bits (width : UInt32) : HasShape t (.bits width) (.bits width)
  | record {name : String} {fields : Ports} {shapeOf : PortType → Shape} :
      t.get? name = some fields → (∀ f ∈ fields.entries, HasShape t f.2 (shapeOf f.2)) →
      HasShape t (.named name) (.ofFields (fields.entries.map fun f => (f.1, shapeOf f.2)))

/-- A type expands to some shape. -/
def Resolves (t : TypeTable) (type : PortType) : Prop :=
  ∃ shape, t.HasShape type shape

theorem resolves_bits (t : TypeTable) (width : UInt32) : t.Resolves (.bits width) :=
  ⟨_, .bits width⟩

/-- A named type expands if it is in the table and all its fields expand. -/
theorem resolves_named (hget : t.get? name = some fields)
    (hfields : ∀ f ∈ fields.entries, t.Resolves f.2) : t.Resolves (.named name) := by
  have hall (type : PortType) : ∃ shape, t.Resolves type → t.HasShape type shape := by
    by_cases h : t.Resolves type
    · exact h.imp fun _ hs _ => hs
    · exact ⟨.bits 0, fun h' => absurd h' h⟩
  choose shapeOf hshape using hall
  exact ⟨_, .record hget fun f hf => hshape f.2 (hfields f hf)⟩

/-- A type expands to one shape only. -/
theorem HasShape.unique (h : t.HasShape type s) (h' : t.HasShape type s') : s = s' := by
  induction h generalizing s' with
  | bits width =>
    cases h'
    rfl
  | record hget _ ih =>
    cases h' with
    | record hget' hfields' =>
      cases hget.symm.trans hget'
      exact congrArg Shape.ofFields
        (List.map_congr_left fun f hf => congrArg (Prod.mk f.1) (ih f hf (hfields' f hf)))

/-- Shapes stay when types are added. -/
theorem HasShape.mono
    (htu : ∀ name fields, t.get? name = some fields → u.get? name = some fields)
    (h : t.HasShape type s) : u.HasShape type s := by
  induction h with
  | bits width => exact .bits width
  | record hget _ ih => exact .record (htu _ _ hget) ih

/-! ### References on the way -/

/-- The fields that are of named types are the references of a type. -/
theorem refers_iff {inner : String} (hget : t.get? name = some fields) :
    t.Refers inner name ↔ ∃ f ∈ fields.entries, f.2 = .named inner := by
  rw [Refers, referencesOf, hget]
  simp only [references, OrderedMap.values, List.mem_filterMap, List.mem_map]
  constructor
  · rintro ⟨_, ⟨f, hf, rfl⟩, hname⟩
    cases htype : f.2 with
    | bits width => rw [htype] at hname; cases hname
    | named m =>
      rw [htype] at hname
      cases hname
      exact ⟨f, hf, htype⟩
  · rintro ⟨f, hf, hname⟩
    exact ⟨_, ⟨f, hf, rfl⟩, by rw [hname]; rfl⟩

/-- What expands is not inside of itself. -/
theorem HasShape.acc (h : t.HasShape (.named name) s) : Acc t.Refers name := by
  generalize htype : PortType.named name = type at h
  induction h generalizing name with
  | bits width => cases htype
  | record hget _ ih =>
    cases htype
    refine Acc.intro _ fun inner hinner => ?_
    obtain ⟨f, hf, hname⟩ := (refers_iff hget).1 hinner
    exact ih f hf hname.symm

/-! ### The bound on the depth -/

/-- A named type that expands within some depth has fields that expand within one step less. -/
theorem exists_of_shapeWithin? {depth : Nat}
    (h : t.shapeWithin? (depth + 1) (.named name) = some s) :
    ∃ (fields : Ports) (shapeOf : PortType → Shape), t.get? name = some fields ∧
      (∀ f ∈ fields.entries, t.shapeWithin? depth f.2 = some (shapeOf f.2)) ∧
      s = .ofFields (fields.entries.map fun f => (f.1, shapeOf f.2)) := by
  rw [shapeWithin?, Option.bind_eq_bind, Option.bind_eq_some_iff] at h
  obtain ⟨fields, hget, h⟩ := h
  rw [Option.bind_eq_bind, Option.bind_eq_some_iff] at h
  obtain ⟨shapes, hshapes, h⟩ := h
  cases h
  have hfield (f : String × PortType) (hf : f ∈ fields.entries) :
      t.shapeWithin? depth f.2 = some ((t.shapeWithin? depth f.2).getD (.bits 0)) := by
    obtain ⟨_, hsome⟩ := exists_of_mapM_eq_some hshapes f hf
    obtain ⟨s, hs, -⟩ := Option.map_eq_some_iff.1 hsome
    rw [hs]
    rfl
  have hmap := mapM_eq_some_map (h := fun f => (f.1, (t.shapeWithin? depth f.2).getD (.bits 0)))
    fun f hf => Option.map_eq_some_iff.2 ⟨_, hfield f hf, rfl⟩
  cases hmap.symm.trans hshapes
  exact ⟨fields, fun type => (t.shapeWithin? depth type).getD (.bits 0), hget, hfield, rfl⟩

theorem hasShape_of_shapeWithin? {depth : Nat} (h : t.shapeWithin? depth type = some s) :
    t.HasShape type s := by
  induction depth generalizing type s with
  | zero =>
    cases type with
    | bits width =>
      rw [shapeWithin?] at h
      cases h
      exact .bits width
    | named name =>
      rw [shapeWithin?] at h
      cases h
  | succ depth ih =>
    cases type with
    | bits width =>
      rw [shapeWithin?] at h
      cases h
      exact .bits width
    | named name =>
      obtain ⟨fields, shapeOf, hget, hfields, rfl⟩ := exists_of_shapeWithin? h
      exact .record hget fun f hf => ih (hfields f hf)

/-- A type expands within any depth that leaves a step for each type off the way to it. -/
theorem HasShape.shapeWithin? (h : t.HasShape type s) {path : List String}
    (hpath : ∀ name, type = .named name → ∀ x ∈ path, ¬ReflTransGen t.Refers x name)
    {depth : Nat} (hdepth : unvisited t.keys path ≤ depth) :
    t.shapeWithin? depth type = some s := by
  induction h generalizing path depth with
  | bits width => cases depth <;> rw [TypeTable.shapeWithin?]
  | @record name fields shapeOf hget hfields ih =>
    have hnew : name ∉ path := fun hmem => hpath name rfl name hmem .refl
    have hlt := unvisited_append_lt (OrderedMap.mem_keys_of_get? hget) hnew
    obtain ⟨depth, rfl⟩ := Nat.exists_eq_succ_of_ne_zero (n := depth) (by omega)
    have hdepth : unvisited t.keys (path ++ [name]) ≤ depth := by omega
    have hacyclic := not_transGen_of_acc (HasShape.record hget hfields).acc
    have hshapes : fields.entries.mapM (fun f => (t.shapeWithin? depth f.2).map (f.1, ·)) =
        some (fields.entries.map fun f => (f.1, shapeOf f.2)) := by
      refine mapM_eq_some_map fun f hf => Option.map_eq_some_iff.2 ⟨_, ih f hf ?_ hdepth, rfl⟩
      -- nothing on the way, with this type as its last part, is inside of a field
      intro inner hinner x hx hreach
      have hrefers : t.Refers inner name := (refers_iff hget).2 ⟨f, hf, hinner⟩
      rcases List.mem_append.1 hx with hx | hx
      · exact hpath name rfl x hx (hreach.tail hrefers)
      · rw [List.mem_singleton.1 hx] at hreach
        exact hacyclic (.tail' hreach hrefers)
    rw [TypeTable.shapeWithin?, hget, Option.bind_eq_bind, Option.bind_some, hshapes]
    rfl

/-- The shape that is computed for a type is the one that it expands to, if there is one. -/
theorem shape?_eq_some_iff : t.shape? type = some s ↔ t.HasShape type s := by
  refine ⟨hasShape_of_shapeWithin?, fun h =>
    h.shapeWithin? (fun _ _ _ hx => absurd hx List.not_mem_nil) ?_⟩
  simp [unvisited, OrderedMap.keys, OrderedMap.size]

theorem isSome_shape?_iff : (t.shape? type).isSome = true ↔ t.Resolves type := by
  rw [Option.isSome_iff_exists]
  exact exists_congr fun _ => shape?_eq_some_iff

/-! ### Tables that pass validation -/

/-- A field is legal if its name is an identifier, and its type is a bit vector with a bit at least
or a type in the table. -/
theorem checkField_eq_ok_iff {f : String × PortType} : t.checkField name f = .ok () ↔
    isIdentifier f.1 = true ∧ f.2 ≠ .bits 0 ∧ ∀ inner, f.2 = .named inner → inner ∈ t.keys := by
  obtain ⟨field, type⟩ := f
  unfold checkField
  dsimp only
  by_cases hfield : isIdentifier field = true
  · cases type with
    | bits width => by_cases hwidth : width = 0 <;> simp [hfield, hwidth]
    | named inner =>
      simp only [← OrderedMap.contains_iff_mem_keys]
      by_cases hinner : t.contains inner = true <;> simp [hfield, hinner]
  · simp [hfield]

/-- In a table that passes validation, a type refers to types in the table only. -/
theorem mem_keys_of_refers_of_validate (h : t.validate = .ok ()) {inner outer : String}
    (href : t.Refers inner outer) : inner ∈ t.keys := by
  obtain ⟨fields, hget⟩ := OrderedMap.contains_iff.1
    (OrderedMap.contains_iff_mem_keys.2 (mem_keys_of_refers href))
  obtain ⟨f, hf, hname⟩ := (refers_iff hget).1 href
  have hcheck := (validate_eq_ok_iff.1 h).1 _ (OrderedMap.get?_eq_some_iff.1 hget) f hf
  exact (checkField_eq_ok_iff.1 hcheck).2.2 inner hname

/-- In a table that passes validation, the bit vectors and the types in the table expand, and no
others do. -/
theorem resolves_iff_of_validate (h : t.validate = .ok ()) :
    t.Resolves type ↔ ∀ name, type = .named name → name ∈ t.keys := by
  constructor
  · rintro ⟨_, hs⟩ name rfl
    cases hs with
    | record hget _ => exact OrderedMap.mem_keys_of_get? hget
  · intro hkeys
    cases type with
    | bits width => exact resolves_bits t width
    | named name =>
      have hname := hkeys name rfl
      clear hkeys
      -- the types that a type refers to are inside of it
      induction (validate_eq_ok_iff.1 h).2.apply name with
      | intro name _ ih =>
        obtain ⟨fields, hget⟩ :=
          OrderedMap.contains_iff.1 (OrderedMap.contains_iff_mem_keys.2 hname)
        refine resolves_named hget fun f hf => ?_
        obtain ⟨field, _ | inner⟩ := f
        · exact resolves_bits t _
        · have hrefers : t.Refers inner name := (refers_iff hget).2 ⟨_, hf, rfl⟩
          exact ih inner hrefers (mem_keys_of_refers_of_validate h hrefers)

end Netlist.TypeTable
