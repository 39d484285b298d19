import Mathlib
import Netlist.Proofs.TypeTable.Comparison

/-!
# Widths of types

The number of bits of a type is added up in words of 64 bits. A type has as many bit vectors as its
expansion has leaves, and as types may have several fields of one and the same type, these can be
exponentially many in the number of types. So the word that is found is the number of bits modulo
`2 ^ 64`. It is the number of bits itself as long as there are no more than `2 ^ 32 + 1` bit
vectors, however wide they are.

## Main definitions

* `Netlist.Shape.widths`: the widths of the bit vectors in a shape.
* `Netlist.Shape.total`: the number of bits of a shape, as a natural number.
* `Netlist.TypeTable.doubled`: a table in which each type has two fields of the one before it.

## Main results

* `Netlist.Shape.toNat_bitWidth`: additions of words are additions modulo `2 ^ 64`.
* `Netlist.TypeTable.length_widths_le`: the number of bit vectors, from the fields of each type and
  the number of types.
* `Netlist.TypeTable.bitWidth?_counts_bits`: what is found, and when it is the number of bits.
* `Netlist.TypeTable.bitWidth?_wraps_doubled`: it is not the number of bits of all types.
-/

namespace Netlist

/-! ### Shapes -/

namespace Shape

mutual

/-- The widths of the bit vectors in a shape. -/
def widths : Shape → List UInt32
  | bits width => [width]
  | record fields => fieldWidths fields

/-- The widths of the bit vectors in the fields of a record. -/
def fieldWidths : List (String × Shape) → List UInt32
  | [] => []
  | (_, shape) :: fields => widths shape ++ fieldWidths fields

end

/-- The number of bits of a shape. -/
def total (s : Shape) : Nat :=
  (s.widths.map UInt32.toNat).sum

theorem widths_bits (width : UInt32) : (bits width).widths = [width] := by
  rw [widths]

theorem fieldWidths_eq_flatMap (fields : List (String × Shape)) :
    fieldWidths fields = fields.flatMap fun f => f.2.widths := by
  induction fields with
  | nil => rw [fieldWidths, List.flatMap_nil]
  | cons f fields ih => rw [fieldWidths, ih, List.flatMap_cons]

theorem insertField_perm (name : String) (s : Shape) (fields : List (String × Shape)) :
    (insertField name s fields).Perm ((name, s) :: fields) := by
  induction fields with
  | nil => exact .refl _
  | cons f fields ih =>
    rw [insertField]
    split_ifs
    · exact .refl _
    · exact (ih.cons f).trans (.swap (name, s) f fields)

/-- A record has the bit vectors of its fields. -/
theorem widths_ofFields (fields : List (String × Shape)) :
    (ofFields fields).widths.Perm (fields.flatMap fun f => f.2.widths) := by
  rw [ofFields, widths, fieldWidths_eq_flatMap]
  refine List.Perm.flatMap_right _ ?_
  induction fields with
  | nil => exact .refl _
  | cons f fields ih => exact (insertField_perm f.1 f.2 _).trans (ih.cons f)

theorem length_widths_ofFields (fields : List (String × Shape)) :
    (ofFields fields).widths.length = (fields.map fun f => f.2.widths.length).sum := by
  rw [(widths_ofFields fields).length_eq, List.length_flatMap]

@[simp] theorem total_bits (width : UInt32) : (bits width).total = width.toNat := by
  rw [total, widths_bits, List.map_singleton, List.sum_singleton]

theorem total_ofFields (fields : List (String × Shape)) :
    (ofFields fields).total = (fields.map fun f => f.2.total).sum := by
  rw [total, ((widths_ofFields fields).map _).sum_eq, List.map_flatMap, List.flatMap_def,
    List.sum_flatten, List.map_map]
  rfl

mutual

/-- The width in words is the number of bits modulo `2 ^ 64`. -/
theorem toNat_bitWidth : (s : Shape) → s.bitWidth.toNat = s.total % 2 ^ 64
  | bits width => by
    have hlt := width.toNat_lt
    rw [bitWidth, total_bits, UInt32.toNat_toUInt64, Nat.mod_eq_of_lt (by omega)]
  | record fields => by
    rw [bitWidth, total, widths]
    exact toNat_bitWidths fields

/-- The words of the fields are added modulo `2 ^ 64`. -/
theorem toNat_bitWidths : (fields : List (String × Shape)) →
    (bitWidths fields).toNat = ((fieldWidths fields).map UInt32.toNat).sum % 2 ^ 64
  | [] => by rw [bitWidths, fieldWidths]; rfl
  | (name, s) :: fields => by
    rw [bitWidths, fieldWidths, UInt64.toNat_add, toNat_bitWidth s, toNat_bitWidths fields,
      List.map_append, List.sum_append, ← Nat.add_mod]
    rfl

end

/-- The width in words is the number of bits if that is below `2 ^ 64`. -/
theorem toNat_bitWidth_eq_iff {s : Shape} : s.bitWidth.toNat = s.total ↔ s.total < 2 ^ 64 := by
  rw [toNat_bitWidth]
  exact Nat.mod_eq_iff_lt (by decide)

/-- A bit vector has less than `2 ^ 32` bits. -/
theorem total_le (s : Shape) : s.total ≤ s.widths.length * (2 ^ 32 - 1) := by
  rw [total, ← List.length_map (f := UInt32.toNat), ← smul_eq_mul]
  refine List.sum_le_card_nsmul _ _ fun n hn => ?_
  obtain ⟨width, -, rfl⟩ := List.mem_map.1 hn
  exact Nat.le_sub_one_of_lt width.toNat_lt

/-- With up to `2 ^ 32 + 1` bit vectors, there are no more than `2 ^ 64 - 1` bits. -/
theorem total_lt {s : Shape} (h : s.widths.length ≤ 2 ^ 32 + 1) : s.total < 2 ^ 64 := by
  have hle := s.total_le.trans (Nat.mul_le_mul_right _ h)
  omega

end Shape

/-! ### Types -/

namespace TypeTable

variable {t : TypeTable} {type : PortType} {s : Shape} {n : UInt64} {k : Nat}

/-- If types have no more than `k` fields, then `depth` of them in each other have no more than
`k ^ depth` bit vectors. -/
theorem length_widths_le_of_shapeWithin? (hk : 0 < k) (hsize : ∀ e ∈ t.entries, e.2.size ≤ k)
    {depth : Nat} (h : t.shapeWithin? depth type = some s) : s.widths.length ≤ k ^ depth := by
  induction depth generalizing type s with
  | zero =>
    cases type with
    | bits width =>
      rw [shapeWithin?] at h
      cases h
      exact (congrArg List.length (Shape.widths_bits width)).le
    | named name =>
      rw [shapeWithin?] at h
      cases h
  | succ depth ih =>
    cases type with
    | bits width =>
      rw [shapeWithin?] at h
      cases h
      rw [Shape.widths_bits]
      exact Nat.one_le_pow _ _ hk
    | named name =>
      obtain ⟨fields, shapeOf, hget, hfields, rfl⟩ := exists_of_shapeWithin? h
      have hle (m : Nat) (hm : m ∈ fields.entries.map fun f => (shapeOf f.2).widths.length) :
          m ≤ k ^ depth := by
        obtain ⟨f, hf, rfl⟩ := List.mem_map.1 hm
        exact ih (hfields f hf)
      have hsum := List.sum_le_card_nsmul _ _ hle
      rw [List.length_map, smul_eq_mul] at hsum
      rw [Shape.length_widths_ofFields, List.map_map, pow_succ']
      exact hsum.trans (Nat.mul_le_mul_right _ (hsize _ (OrderedMap.get?_eq_some_iff.1 hget)))

/-- If types have no more than `k` fields, then a table of them has no type with more bit vectors
than `k` to the number of types. -/
theorem length_widths_le (hk : 0 < k) (hsize : ∀ e ∈ t.entries, e.2.size ≤ k)
    (h : t.HasShape type s) : s.widths.length ≤ k ^ t.size :=
  length_widths_le_of_shapeWithin? hk hsize (shape?_eq_some_iff.2 h)

/-- The width of a type is found if the type has a shape, and it is the number of bits of the shape
modulo `2 ^ 64`. It is the number of bits itself if and only if that is below `2 ^ 64`. This is so
if the shape has no more than `2 ^ 32 + 1` bit vectors; and it is so for all types of a table if
`k ^ m` is no more than `2 ^ 32 + 1`, where `m` is the number of types and each has `k` fields at
most. -/
theorem bitWidth?_counts_bits (t : TypeTable) (type : PortType) :
    (∀ n, t.bitWidth? type = some n ↔ ∃ s, t.HasShape type s ∧ n.toNat = s.total % 2 ^ 64) ∧
    ∀ s n, t.HasShape type s → t.bitWidth? type = some n →
      (n.toNat = s.total ↔ s.total < 2 ^ 64) ∧
      (s.widths.length ≤ 2 ^ 32 + 1 → n.toNat = s.total) ∧
      ∀ k, (∀ e ∈ t.entries, e.2.size ≤ k) → k ^ t.size ≤ 2 ^ 32 + 1 → n.toNat = s.total := by
  refine ⟨fun n => ?_, fun s n hs hn => ?_⟩
  · rw [bitWidth?_eq_some_iff]
    refine exists_congr fun s => and_congr_right fun _ => ?_
    rw [← Shape.toNat_bitWidth, ← UInt64.toNat_inj, eq_comm]
  · obtain ⟨s', hs', rfl⟩ := bitWidth?_eq_some_iff.1 hn
    cases hs.unique hs'
    have hexact (h : s.widths.length ≤ 2 ^ 32 + 1) : s.bitWidth.toNat = s.total :=
      Shape.toNat_bitWidth_eq_iff.2 (Shape.total_lt h)
    refine ⟨Shape.toNat_bitWidth_eq_iff, hexact, fun k hsize hk => hexact ?_⟩
    rcases Nat.eq_zero_or_pos k with rfl | hpos
    · -- types without fields are no more than types with one
      have hle := length_widths_le one_pos (fun e he => (hsize e he).trans zero_le_one) hs
      rw [one_pow] at hle
      omega
    · exact (length_widths_le hpos hsize hs).trans hk

/-- In a table of three types with two fields each, a type with two fields of twelve bits each has
24 bits. -/
theorem bitWidth?_counts_bits_turned : ∃ s, turned.HasShape (.named "outer") s ∧ s.total = 24 := by
  obtain ⟨hiff, hexact⟩ := bitWidth?_counts_bits turned (.named "outer")
  have hwidth : turned.bitWidth? (.named "outer") = some 24 := by decide_cbv
  obtain ⟨s, hs, -⟩ := (hiff 24).1 hwidth
  obtain ⟨-, -, hsmall⟩ := hexact s 24 hs hwidth
  have hsize : ∀ e ∈ turned.entries, e.2.size ≤ 2 := by decide_cbv
  have hcount : 2 ^ turned.size ≤ 2 ^ 32 + 1 := by decide_cbv
  exact ⟨s, hs, (hsmall 2 hsize hcount).symm⟩

/-! ### A table with a type that is too wide -/

/-- The name of the type with two fields of the `n`th one. -/
def doubledName (n : Nat) : String :=
  String.ofList (List.replicate (n + 1) 't')

/-- The widest bit vector, and `n` types that come from it by doubling. -/
def doubledType : Nat → PortType
  | 0 => .bits 4294967295
  | n + 1 => .named (doubledName n)

/-- Two fields of the same type. -/
def twice (type : PortType) : Ports :=
  ⟨[("a", type), ("b", type)], by simp⟩

/-- A table of `n` types, of which the first has two fields of the widest bit vector, and each other
one has two fields of the type before it. -/
def doubled : Nat → TypeTable
  | 0 => .empty
  | n + 1 => (doubled n).insert (doubledName n) (twice (doubledType n))

theorem doubledName_inj {m n : Nat} (h : doubledName m = doubledName n) : m = n := by
  have h := congrArg List.length (String.ofList_injective h)
  simpa using h

theorem doubledName_mem_iff {m n : Nat} :
    doubledName m ∈ (List.range n).map doubledName ↔ m < n := by
  rw [List.mem_map_of_injective fun _ _ => doubledName_inj, List.mem_range]

theorem keys_doubled (n : Nat) : (doubled n).keys = (List.range n).map doubledName := by
  induction n with
  | zero => rfl
  | succ n ih =>
    have hnew : doubledName n ∉ (List.range n).map doubledName := by simp [doubledName_mem_iff]
    rw [doubled, OrderedMap.keys_insert, ih, if_neg hnew, List.range_succ, List.map_append]
    rfl

/-- Each type can be registered after those before it. -/
theorem register_doubled (n : Nat) :
    (doubled n).register (doubledName n) (twice (doubledType n)) = .ok (doubled (n + 1)) := by
  have hwidth : doubledType n ≠ .bits 0 := by cases n <;> simp [doubledType]
  have hinner (inner : String) (h : doubledType n = .named inner) : inner ∈ (doubled n).keys := by
    rw [keys_doubled]
    cases n with
    | zero => cases h
    | succ n =>
      cases h
      exact doubledName_mem_iff.2 (Nat.lt_succ_self n)
  refine register_eq_ok_iff.2 ⟨?_, fun f hf => checkField_eq_ok_iff.2 ?_, rfl⟩
  · rw [keys_doubled, doubledName_mem_iff]
    exact Nat.lt_irrefl n
  · have ha : isIdentifier "a" = true := by decide
    have hb : isIdentifier "b" = true := by decide
    rcases List.mem_pair.1 hf with rfl | rfl
    · exact ⟨ha, hwidth, hinner⟩
    · exact ⟨hb, hwidth, hinner⟩

/-- The types can be registered one after the other. -/
theorem validate_doubled (n : Nat) : (doubled n).validate = .ok () := by
  induction n with
  | zero => exact validate_empty
  | succ n ih => exact validate_of_register ih (register_doubled n)

/-- The number of bits is doubled from each type to the next. -/
theorem exists_hasShape_doubled (n : Nat) :
    ∃ s, (doubled n).HasShape (doubledType n) s ∧ s.total = 2 ^ n * 4294967295 := by
  induction n with
  | zero => exact ⟨_, .bits _, by rw [Shape.total_bits]; rfl⟩
  | succ n ih =>
    obtain ⟨s, hs, htotal⟩ := ih
    obtain ⟨hnew, -, -⟩ := register_eq_ok_iff.1 (register_doubled n)
    have hget : (doubled (n + 1)).get? (doubledName n) = some (twice (doubledType n)) := by
      rw [doubled, OrderedMap.get?_insert, if_pos rfl]
    have hmono : (doubled (n + 1)).HasShape (doubledType n) s := by
      refine hs.mono fun name fields hname => ?_
      have hne : name ≠ doubledName n := by
        rintro rfl
        exact hnew (OrderedMap.mem_keys_of_get? hname)
      rw [doubled, OrderedMap.get?_insert, if_neg hne, hname]
    refine ⟨_, @HasShape.record _ _ _ (fun _ => s) hget fun f hf => ?_, ?_⟩
    · rcases List.mem_pair.1 hf with rfl | rfl <;> exact hmono
    · rw [Shape.total_ofFields, pow_succ', Nat.mul_assoc, ← htotal, Nat.two_mul]
      rfl

/-- The last of 33 valid types has more bits than a word can say, and the word that is found for it
is not their number. -/
theorem bitWidth?_wraps_doubled :
    (doubled 33).size = 33 ∧ (doubled 33).validate = .ok () ∧
    ∃ s n, (doubled 33).HasShape (doubledType 33) s ∧ s.total = 36893488138829168640 ∧
      (doubled 33).bitWidth? (doubledType 33) = some n ∧ n.toNat = 18446744065119617024 := by
  obtain ⟨s, hs, htotal⟩ := exists_hasShape_doubled 33
  have hsize : (doubled 33).size = (doubled 33).keys.length := (List.length_map _).symm
  rw [keys_doubled, List.length_map, List.length_range] at hsize
  refine ⟨hsize, validate_doubled 33, s, _, hs, htotal, bitWidth?_eq_some_iff.2 ⟨s, hs, rfl⟩, ?_⟩
  rw [Shape.toNat_bitWidth, htotal]
  norm_num

end TypeTable

end Netlist
