import Netlist.Error
import Netlist.Unvisited

/-!
# Named record types

A `TypeTable` gives names to record types, whose fields are bit vectors or references to other
named types. Ports are compared by the `Shape` that a type expands to: neither the names of
types nor the order of fields matter.

## Main definitions

* `Netlist.Shape`: an expanded type, with `Netlist.Shape.bitWidth`.
* `Netlist.TypeTable.register`: add a type whose references are known already.
* `Netlist.TypeTable.shape?`: the expansion of a type, if all its references lead somewhere.
* `Netlist.TypeTable.Alike`: two types expand to the same shape.
* `Netlist.TypeTable.validate`: all fields are legal and no type refers to itself, however
  indirectly.
-/

namespace Netlist

/-! ### Shapes -/

/-- A type with all references expanded. Fields are sorted by name. -/
inductive Shape where
  | bits (width : UInt32)
  | record (fields : List (String × Shape))

namespace Shape

mutual

/-- The number of bits of a value, as a 64-bit word. -/
def bitWidth : Shape → UInt64
  | bits width => width.toUInt64
  | record fields => bitWidths fields

/-- The number of bits of the fields of a record. -/
def bitWidths : List (String × Shape) → UInt64
  | [] => 0
  | (_, shape) :: fields => bitWidth shape + bitWidths fields

end

mutual

/-- Equality of shapes is decidable. -/
def decideEq : (a b : Shape) → Decidable (a = b)
  | bits v, bits w =>
    if h : v = w then isTrue (h ▸ rfl) else isFalse fun he => h (Shape.bits.inj he)
  | record fs, record gs =>
    match decideFieldsEq fs gs with
    | isTrue h => isTrue (h ▸ rfl)
    | isFalse h => isFalse fun he => h (Shape.record.inj he)
  | bits _, record _ => isFalse nofun
  | record _, bits _ => isFalse nofun

/-- Equality of lists of fields is decidable. -/
def decideFieldsEq : (fs gs : List (String × Shape)) → Decidable (fs = gs)
  | [], [] => isTrue rfl
  | [], _ :: _ => isFalse nofun
  | _ :: _, [] => isFalse nofun
  | (a, s) :: fs, (b, t) :: gs =>
    if ha : a = b then
      match decideEq s t with
      | isTrue hs =>
        match decideFieldsEq fs gs with
        | isTrue hf => isTrue (by rw [ha, hs, hf])
        | isFalse hf => isFalse fun he => hf (List.cons.inj he).2
      | isFalse hs => isFalse fun he => hs (Prod.mk.inj (List.cons.inj he).1).2
    else isFalse fun he => ha (Prod.mk.inj (List.cons.inj he).1).1

end

instance : DecidableEq Shape :=
  decideEq

/-- Put a field in front of the first one with a greater name. -/
def insertField (name : String) (shape : Shape) : List (String × Shape) → List (String × Shape)
  | [] => [(name, shape)]
  | f :: fs => if name < f.1 then (name, shape) :: f :: fs else f :: insertField name shape fs

/-- The record with given fields. -/
def ofFields (fields : List (String × Shape)) : Shape :=
  record (fields.foldr (fun f fs => insertField f.1 f.2 fs) [])

end Shape

/-! ### Tables -/

/-- Record types by name. -/
abbrev TypeTable := OrderedMap Ports

namespace TypeTable

/-- A field of the type `type` is legal if its name is an identifier, its width is not zero and
the type it refers to is in the table. -/
def checkField (t : TypeTable) (type : String) : String × PortType → Except Error Unit
  | (field, fieldType) =>
    if !isIdentifier field then .error (.invalidFieldName type field)
    else match fieldType with
      | .bits width => if width = 0 then .error (.invalidWidth type field) else .ok ()
      | .named reference =>
        if t.contains reference then .ok ()
        else .error (.invalidFieldType type field reference)

/-- Add a type under a new name. Its fields may refer only to types in the table. -/
def register (t : TypeTable) (name : String) (fields : Ports) : Except Error TypeTable := do
  if t.contains name then .error (.duplicateType name)
  fields.entries.forM (t.checkField name)
  return t.insert name fields

/-- The expansion of a type whose chains of references are no longer than `depth`. -/
def shapeWithin? (t : TypeTable) : Nat → PortType → Option Shape
  | _, .bits width => some (.bits width)
  | 0, .named _ => none
  | depth + 1, .named name => do
    let fields ← t.get? name
    let shapes ← fields.entries.mapM fun f => (shapeWithin? t depth f.2).map (f.1, ·)
    return .ofFields shapes

/-- The expansion of a type: none if a reference leads to no type or around a cycle. A chain of
references without a cycle is no longer than the table. -/
def shape? (t : TypeTable) (type : PortType) : Option Shape :=
  t.shapeWithin? t.size type

/-- Two types expand to the same shape. A type without expansion is like no type, not even
itself. -/
def Alike (t : TypeTable) (a b : PortType) : Prop :=
  (t.shape? a).isSome ∧ t.shape? a = t.shape? b

instance (t : TypeTable) (a b : PortType) : Decidable (t.Alike a b) :=
  inferInstanceAs (Decidable (_ ∧ _))

/-- The number of bits of a value of a type. -/
def bitWidth? (t : TypeTable) (type : PortType) : Option UInt64 :=
  (t.shape? type).map Shape.bitWidth

/-! ### Validation -/

/-- The names of the types that the fields of a record refer to. -/
def references (fields : Ports) : List String :=
  fields.values.filterMap PortType.name?

mutual

/-- Follow the references of a type depth first. `path` is the way to it and `done` holds the
types from which no cycle is reached; the answer is `done` with more such types, or a cycle. -/
def visit (t : TypeTable) (path done : List String) (name : String) :
    Except (List String) (List String) :=
  if name ∈ done then .ok done
  else if name ∈ path then .error (path.dropWhile (· ≠ name) ++ [name])
  else match _h : t.get? name with
    | none => .ok (name :: done)
    | some fields => (visitAll t (path ++ [name]) done (references fields)).map (name :: ·)
termination_by (unvisited t.keys path, 0)
decreasing_by
  exact Prod.Lex.left _ _ (unvisited_append_lt (OrderedMap.mem_keys_of_get? _h) (by assumption))

/-- Follow several references, one after the other. -/
def visitAll (t : TypeTable) (path done : List String) :
    List String → Except (List String) (List String)
  | [] => .ok done
  | name :: names =>
    match visit t path done name with
    | .error cycle => .error cycle
    | .ok done => visitAll t path done names
termination_by names => (unvisited t.keys path, names.length + 1)
decreasing_by
  · exact Prod.Lex.right _ (Nat.succ_pos _)
  · exact Prod.Lex.right _ (by simp)

end

/-- The fields of all types are legal, and no type reaches itself by references. -/
def validate (t : TypeTable) : Except Error Unit := do
  t.entries.forM fun e => e.2.entries.forM (t.checkField e.1)
  let _ ← (t.visitAll [] [] t.keys).mapError .cyclicType

end TypeTable

end Netlist
