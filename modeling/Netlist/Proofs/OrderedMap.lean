import Mathlib.Data.List.Nodup
import Mathlib.Data.List.Perm.Basic
import Mathlib.Logic.Basic
import Mathlib.Tactic.SplitIfs
import Netlist.OrderedMap

/-!
# Lookup in ordered maps

A map is read through `OrderedMap.get?`. Each operation is characterised by what it does to the
value under every name.

## Main results

* `Netlist.OrderedMap.get?_insert`, `Netlist.OrderedMap.get?_erase`: what is found after a change.
* `Netlist.OrderedMap.erase_insert_of_notMem`: removing a name that was new restores the map.
* `Netlist.OrderedMap.erase_insert_of_ne`: insertions and removals of different names commute.
* `Netlist.OrderedMap.entries_ofList`: the entries of a map that is read from a list.
* `Netlist.OrderedMap.AgreeBy.map`: a map agrees with one that has related values.
* `Netlist.OrderedMap.AgreeBy.symm`: agreement can be read from either side.
* `Netlist.OrderedMap.get?_eq_of_perm`, `Netlist.OrderedMap.AgreeBy.of_perm`: a map agrees with one
  that has the same entries in another order.
-/

namespace Netlist.OrderedMap

variable {α : Type*} {β : Type*}

@[simp] theorem get?_empty (key : String) : (empty : OrderedMap α).get? key = none :=
  rfl

/-- Two maps with the same entries in the same order are the same. -/
theorem ext_entries : {m n : OrderedMap α} → m.entries = n.entries → m = n
  | ⟨_, _⟩, ⟨_, _⟩, rfl => rfl

theorem contains_iff_mem_keys {m : OrderedMap α} {key : String} :
    m.contains key = true ↔ key ∈ m.keys := by
  rw [contains, Option.isSome_iff_ne_none, ne_eq, get?_eq_none_iff, not_not]

theorem contains_iff {m : OrderedMap α} {key : String} :
    m.contains key = true ↔ ∃ value, m.get? key = some value :=
  Option.isSome_iff_exists

private theorem lookup_cons_eq (k : String) (e : String × α) (es : List (String × α)) :
    (e :: es).lookup k = if k = e.1 then some e.2 else es.lookup k := by
  rw [List.lookup_cons]
  by_cases hk : k = e.1
  · rw [if_pos hk, beq_iff_eq.2 hk]
  · rw [if_neg hk, beq_eq_false_iff_ne.2 hk]

private theorem lookup_putEntry (key : String) (value : α) (k : String) (es : List (String × α)) :
    (putEntry key value es).lookup k = if k = key then some value else es.lookup k := by
  induction es with
  | nil => exact lookup_cons_eq k (key, value) []
  | cons e es ih =>
    by_cases he : e.1 = key
    · rw [putEntry, if_pos he, lookup_cons_eq, lookup_cons_eq, he]
      split_ifs <;> rfl
    · rw [putEntry, if_neg he, lookup_cons_eq, lookup_cons_eq, ih]
      by_cases hk : k = key
      · rw [if_pos hk, if_pos hk, if_neg fun h => he (h.symm.trans hk)]
      · rw [if_neg hk, if_neg hk]

/-- After an insertion, the name has the new value and the others have what they had. -/
theorem get?_insert (m : OrderedMap α) (key : String) (value : α) (k : String) :
    (m.insert key value).get? k = if k = key then some value else m.get? k :=
  lookup_putEntry key value k m.entries

private theorem lookup_filter_ne (key k : String) (es : List (String × α)) :
    (es.filter fun e => e.1 ≠ key).lookup k = if k = key then none else es.lookup k := by
  induction es with
  | nil => simp
  | cons e es ih =>
    by_cases he : e.1 = key
    · rw [List.filter_cons_of_neg (by simpa using he), ih, lookup_cons_eq, he]
      split_ifs <;> rfl
    · rw [List.filter_cons_of_pos (by simpa using he), lookup_cons_eq, lookup_cons_eq, ih]
      by_cases hk : k = key
      · rw [if_pos hk, if_pos hk, if_neg fun h => he (h.symm.trans hk)]
      · rw [if_neg hk, if_neg hk]

/-- After a removal, the name has no value and the others have what they had. -/
theorem get?_erase (m : OrderedMap α) (key k : String) :
    (m.erase key).get? k = if k = key then none else m.get? k :=
  lookup_filter_ne key k m.entries

private theorem lookup_eq_some_iff_mem {k : String} {value : α} :
    {es : List (String × α)} → (es.map Prod.fst).Nodup →
      (es.lookup k = some value ↔ (k, value) ∈ es)
  | [], _ => by simp
  | (j, v) :: es, h => by
    obtain ⟨hj, hes⟩ := List.nodup_cons.1 h
    rw [lookup_cons_eq, List.mem_cons, Prod.mk.injEq]
    by_cases hk : k = j
    · have hmem : (k, value) ∉ es := fun hm => hj (List.mem_map.2 ⟨_, hm, hk⟩)
      rw [if_pos hk, Option.some.injEq]
      exact ⟨fun h => Or.inl ⟨hk, h.symm⟩, fun h => (h.resolve_right hmem).2.symm⟩
    · simp [hk, lookup_eq_some_iff_mem hes]

/-- A name has a value if the two are an entry. -/
theorem get?_eq_some_iff {m : OrderedMap α} {key : String} {value : α} :
    m.get? key = some value ↔ (key, value) ∈ m.entries :=
  lookup_eq_some_iff_mem m.nodup_keys

private theorem putEntry_of_notMem {key : String} {value : α} :
    {es : List (String × α)} → key ∉ es.map Prod.fst → putEntry key value es = es ++ [(key, value)]
  | [], _ => rfl
  | e :: es, h => by
    have he : e.1 ≠ key := fun hk => h (hk ▸ List.mem_cons_self)
    have hes : key ∉ es.map Prod.fst := fun hm => h (List.mem_cons_of_mem _ hm)
    rw [putEntry, if_neg he, putEntry_of_notMem hes, List.cons_append]

/-- A new name comes last. -/
theorem entries_insert_of_notMem {m : OrderedMap α} {key : String} (value : α)
    (h : key ∉ m.keys) : (m.insert key value).entries = m.entries ++ [(key, value)] :=
  putEntry_of_notMem h

/-- Removing a name that is not there changes nothing. -/
theorem erase_of_notMem {m : OrderedMap α} {key : String} (h : key ∉ m.keys) : m.erase key = m := by
  refine ext_entries (List.filter_eq_self.2 fun e he => ?_)
  have hne : e.1 ≠ key := fun hk => h (hk ▸ List.mem_map_of_mem he)
  simpa using hne

/-- Removing a name that was new restores the map. -/
theorem erase_insert_of_notMem {m : OrderedMap α} {key : String} (value : α) (h : key ∉ m.keys) :
    (m.insert key value).erase key = m := by
  refine ext_entries ?_
  have hm : (m.erase key).entries = m.entries := congrArg entries (erase_of_notMem h)
  simp only [erase] at hm ⊢
  rw [entries_insert_of_notMem value h, List.filter_append, hm]
  simp

private theorem filter_putEntry_of_ne {key k : String} (value : α) (h : key ≠ k)
    (es : List (String × α)) : (putEntry key value es).filter (fun e => e.1 ≠ k) =
      putEntry key value (es.filter fun e => e.1 ≠ k) := by
  induction es with
  | nil => simp [putEntry, h]
  | cons e es ih =>
    by_cases he : e.1 = key
    · simp [putEntry, he, h]
    · by_cases hk : e.1 = k
      · simpa [putEntry, he, hk, Ne.symm h] using ih
      · simpa [putEntry, he, hk] using ih

/-- Removing a name leaves an insertion under another one. -/
theorem erase_insert_of_ne (m : OrderedMap α) {key k : String} (value : α) (h : key ≠ k) :
    (m.insert key value).erase k = (m.erase k).insert key value :=
  ext_entries (filter_putEntry_of_ne value h m.entries)

/-! ### Lists of entries -/

private theorem entries_foldl_insert {es : List (String × α)} (m : OrderedMap α)
    (hnodup : (es.map Prod.fst).Nodup) (hnew : ∀ e ∈ es, e.1 ∉ m.keys) :
    (es.foldl (fun m e => m.insert e.1 e.2) m).entries = m.entries ++ es := by
  induction es generalizing m with
  | nil => exact (List.append_nil _).symm
  | cons e es ih =>
    obtain ⟨he, hes⟩ := List.nodup_cons.1 hnodup
    obtain ⟨hfirst, hrest⟩ := List.forall_mem_cons.1 hnew
    have hentries := entries_insert_of_notMem e.2 hfirst
    rw [List.foldl_cons, ih _ hes, hentries, List.append_assoc, List.singleton_append]
    intro e' he' hmem
    rw [keys, hentries, List.map_append, List.mem_append, List.map_singleton,
      List.mem_singleton] at hmem
    rcases hmem with hmem | hmem
    · exact hrest e' he' hmem
    · exact he (List.mem_map.2 ⟨e', he', hmem⟩)

/-- A map is the map of its entries. -/
theorem ofList_entries (m : OrderedMap α) : ofList m.entries = m :=
  ext_entries (entries_foldl_insert empty m.nodup_keys fun _ _ => List.not_mem_nil)

/-- Entries with different names are those of a map, in their order. -/
theorem entries_ofList {es : List (String × α)} (h : (es.map Prod.fst).Nodup) :
    (ofList es).entries = es :=
  congrArg entries (ofList_entries ⟨es, h⟩)

/-! ### Mapping and agreement -/

theorem get?_map (f : α → β) (m : OrderedMap α) (key : String) :
    (m.map f).get? key = (m.get? key).map f := by
  refine Option.ext fun value => ?_
  simp only [get?_eq_some_iff, Option.map_eq_some_iff, map, List.mem_map, Prod.mk.injEq]
  constructor
  · rintro ⟨e, he, rfl, rfl⟩
    exact ⟨e.2, he, rfl⟩
  · rintro ⟨value, hv, rfl⟩
    exact ⟨_, hv, rfl, rfl⟩

@[simp] theorem keys_map (f : α → β) (m : OrderedMap α) : (m.map f).keys = m.keys :=
  List.map_map

/-- A map agrees with one whose values are related to its own. -/
theorem AgreeBy.map {r : α → β → Prop} {f : α → β} {m : OrderedMap α}
    (h : ∀ e ∈ m.entries, r e.2 (f e.2)) : AgreeBy r m (m.map f) := by
  refine ⟨(List.length_map _).symm, fun e he => ⟨f e.2, ?_, h e he⟩⟩
  rw [get?_map, get?_eq_some_iff.2 he]
  rfl

theorem AgreeBy.refl {r : α → α → Prop} {m : OrderedMap α} (h : ∀ e ∈ m.entries, r e.2 e.2) :
    AgreeBy r m m :=
  ⟨rfl, fun e he => ⟨e.2, get?_eq_some_iff.2 he, h e he⟩⟩

theorem Agree.refl (m : OrderedMap α) : m.Agree m :=
  AgreeBy.refl fun _ _ => rfl

/-- What a map has under a name is related to what a map that it agrees with has there. -/
theorem AgreeBy.exists_of_get? {r : α → β → Prop} {m : OrderedMap α} {n : OrderedMap β}
    (h : AgreeBy r m n) {key : String} {value : α} (hget : m.get? key = some value) :
    ∃ value', n.get? key = some value' ∧ r value value' := by
  obtain ⟨value', hmem, hr⟩ := h.2 _ (get?_eq_some_iff.1 hget)
  exact ⟨value', hmem, hr⟩

/-- Agreement can be read from either side. -/
theorem AgreeBy.symm {r : α → β → Prop} {m : OrderedMap α} {n : OrderedMap β} (h : AgreeBy r m n) :
    AgreeBy (fun value' value => r value value') n m := by
  refine ⟨h.1.symm, fun e he => ?_⟩
  -- both maps have as many names, and all those of the one are names of the other
  have hsub : m.keys ⊆ n.keys := fun key hkey => by
    obtain ⟨value, hvalue⟩ := contains_iff.1 (contains_iff_mem_keys.2 hkey)
    obtain ⟨value', hvalue', -⟩ := h.exists_of_get? hvalue
    exact mem_keys_of_get? hvalue'
  have hperm : m.keys.Perm n.keys := by
    refine (List.subperm_of_subset m.nodup_keys hsub).perm_of_length_le ?_
    simpa [keys, size] using Nat.le_of_eq h.1.symm
  have hget : n.get? e.1 = some e.2 := get?_eq_some_iff.2 he
  obtain ⟨value, hvalue⟩ := contains_iff.1
    (contains_iff_mem_keys.2 (hperm.mem_iff.2 (mem_keys_of_get? hget)))
  obtain ⟨value', hvalue', hr⟩ := h.exists_of_get? hvalue
  cases hget.symm.trans hvalue'
  exact ⟨value, hvalue, hr⟩

/-! ### Other orders -/

/-- The order of the entries does not matter for what is found. -/
theorem get?_eq_of_perm {m n : OrderedMap α} (h : m.entries.Perm n.entries) : m.get? = n.get? := by
  refine funext fun key => Option.ext fun value => ?_
  rw [get?_eq_some_iff, get?_eq_some_iff, h.mem_iff]

/-- Maps in which the same is found have the same entries. -/
theorem perm_of_get?_eq {m n : OrderedMap α} (h : m.get? = n.get?) :
    m.entries.Perm n.entries := by
  have hm : m.entries.Nodup := .of_map Prod.fst m.nodup_keys
  have hn : n.entries.Nodup := .of_map Prod.fst n.nodup_keys
  refine (List.perm_ext_iff_of_nodup hm hn).2 fun ⟨key, value⟩ => ?_
  rw [← get?_eq_some_iff, ← get?_eq_some_iff, h]

theorem AgreeBy.of_perm {r : α → α → Prop} {m n : OrderedMap α} (h : m.entries.Perm n.entries)
    (hr : ∀ e ∈ m.entries, r e.2 e.2) : AgreeBy r m n :=
  ⟨h.length_eq, fun e he => ⟨e.2, get?_eq_some_iff.2 (h.mem_iff.1 he), hr e he⟩⟩

end Netlist.OrderedMap
