/-!
# Maps that remember the order of insertion

Ports, types and modules are listed in the order in which they were declared. An `OrderedMap`
is a list of named entries whose names are pairwise distinct. Inserting under a present name
replaces the value where it stands; inserting under a new name appends.

## Main definitions

* `Netlist.OrderedMap`: the type, with `get?`, `insert`, `erase`, `ofList`, `map`.
* `Netlist.OrderedMap.AgreeBy`: equality of two maps as sets of entries, up to a relation on
  the values; `Netlist.OrderedMap.Agree` is the case of equal values.

## Main results

* `Netlist.OrderedMap.keys_insert`, `Netlist.OrderedMap.keys_erase`: what the operations do to the
  list of names.
-/

namespace Netlist

universe u v

/-- Named entries with pairwise distinct names, in order of first insertion. -/
structure OrderedMap (α : Type u) where
  /-- The entries in order. -/
  entries : List (String × α)
  /-- No name occurs twice. -/
  nodup_keys : (entries.map Prod.fst).Nodup
deriving DecidableEq

namespace OrderedMap

variable {α : Type u} {β : Type v}

/-- The map without entries. -/
def empty : OrderedMap α :=
  ⟨[], List.nodup_nil⟩

instance : EmptyCollection (OrderedMap α) :=
  ⟨empty⟩

instance : Inhabited (OrderedMap α) :=
  ⟨empty⟩

/-- The names in order. -/
def keys (m : OrderedMap α) : List String :=
  m.entries.map Prod.fst

/-- The values in order. -/
def values (m : OrderedMap α) : List α :=
  m.entries.map Prod.snd

/-- The number of entries. -/
def size (m : OrderedMap α) : Nat :=
  m.entries.length

/-- Whether there is no entry at all. -/
def isEmpty (m : OrderedMap α) : Bool :=
  m.entries.isEmpty

/-- The value under a name. -/
def get? (m : OrderedMap α) (key : String) : Option α :=
  m.entries.lookup key

/-- Whether a name has a value. -/
def contains (m : OrderedMap α) (key : String) : Bool :=
  (m.get? key).isSome

theorem get?_eq_none_iff {m : OrderedMap α} {key : String} :
    m.get? key = none ↔ key ∉ m.keys := by
  simp only [get?, keys, List.lookup_eq_none_iff, List.mem_map, not_exists, not_and]
  constructor
  · intro h e he hk
    have := h e he
    simp [hk] at this
  · intro h e he
    have := h e he
    simpa using fun hk => this hk.symm

/-- A name with a value is among the names. -/
theorem mem_keys_of_get? {m : OrderedMap α} {key : String} {value : α}
    (h : m.get? key = some value) : key ∈ m.keys := by
  by_cases hk : key ∈ m.keys
  · exact hk
  · rw [get?_eq_none_iff.2 hk] at h
    cases h

/-! ### Insertion -/

/-- Put a value under a name in a list of entries: in place if the name is there, else last. -/
def putEntry (key : String) (value : α) : List (String × α) → List (String × α)
  | [] => [(key, value)]
  | e :: es => if e.1 = key then (key, value) :: es else e :: putEntry key value es

theorem map_fst_putEntry (key : String) (value : α) (es : List (String × α)) :
    (putEntry key value es).map Prod.fst =
      if key ∈ es.map Prod.fst then es.map Prod.fst else es.map Prod.fst ++ [key] := by
  induction es with
  | nil => simp [putEntry]
  | cons e es ih =>
    by_cases h : e.1 = key
    · simp [putEntry, h]
    · have h' : key ≠ e.1 := fun hk => h hk.symm
      by_cases hm : key ∈ es.map Prod.fst
      · rw [if_pos hm] at ih
        rw [if_pos (by simp only [List.map_cons, List.mem_cons]; exact Or.inr hm)]
        simp only [putEntry, if_neg h, List.map_cons, ih]
      · rw [if_neg hm] at ih
        rw [if_neg (by simp only [List.map_cons, List.mem_cons, not_or]; exact ⟨h', hm⟩)]
        simp only [putEntry, if_neg h, List.map_cons, ih, List.cons_append]

private theorem nodup_putEntry (key : String) (value : α) {es : List (String × α)}
    (h : (es.map Prod.fst).Nodup) : ((putEntry key value es).map Prod.fst).Nodup := by
  rw [map_fst_putEntry]
  split
  · exact h
  · rename_i hk
    rw [List.nodup_append]
    refine ⟨h, List.nodup_cons.2 ⟨by simp, List.nodup_nil⟩, ?_⟩
    intro a ha b hb
    rw [List.mem_singleton.1 hb]
    exact fun hab => hk (hab ▸ ha)

/-- Put a value under a name: in place if the name is there, else last. -/
def insert (m : OrderedMap α) (key : String) (value : α) : OrderedMap α :=
  ⟨putEntry key value m.entries, nodup_putEntry key value m.nodup_keys⟩

/-- A new name comes last and a known one stays where it is. -/
theorem keys_insert (m : OrderedMap α) (key : String) (value : α) :
    (m.insert key value).keys = if key ∈ m.keys then m.keys else m.keys ++ [key] :=
  map_fst_putEntry key value m.entries

/-- Read a list of entries from the left: a later entry of a name replaces the value and keeps
the place of the first. -/
def ofList (es : List (String × α)) : OrderedMap α :=
  es.foldl (fun m e => m.insert e.1 e.2) empty

/-! ### Removal and mapping -/

/-- Remove a name. The order of the others is kept. -/
def erase (m : OrderedMap α) (key : String) : OrderedMap α where
  entries := m.entries.filter (fun e => e.1 ≠ key)
  nodup_keys := m.nodup_keys.sublist (List.filter_sublist.map _)

/-- The names left after a removal. -/
theorem keys_erase (m : OrderedMap α) (key : String) :
    (m.erase key).keys = m.keys.filter (· ≠ key) := by
  simp only [keys, erase, List.filter_map]
  rfl

/-- Change every value and keep the names. -/
def map (f : α → β) (m : OrderedMap α) : OrderedMap β where
  entries := m.entries.map fun e => (e.1, f e.2)
  nodup_keys := by
    have h : (m.entries.map fun e => (e.1, f e.2)).map Prod.fst = m.entries.map Prod.fst := by
      rw [List.map_map]
      rfl
    rw [h]
    exact m.nodup_keys

/-! ### Agreement up to order -/

/-- Both maps have the same names, and the values under each name are related. -/
def AgreeBy (r : α → β → Prop) (m : OrderedMap α) (n : OrderedMap β) : Prop :=
  m.size = n.size ∧ ∀ e ∈ m.entries, ∃ b ∈ n.get? e.1, r e.2 b

instance (r : α → β → Prop) [∀ a b, Decidable (r a b)] (m : OrderedMap α) (n : OrderedMap β) :
    Decidable (AgreeBy r m n) :=
  inferInstanceAs (Decidable (_ ∧ _))

/-- Both maps have the same entries, in whatever order. -/
def Agree (m n : OrderedMap α) : Prop :=
  AgreeBy Eq m n

instance [DecidableEq α] (m n : OrderedMap α) : Decidable (Agree m n) :=
  inferInstanceAs (Decidable (AgreeBy Eq m n))

end OrderedMap

end Netlist
