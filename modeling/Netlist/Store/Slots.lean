import Mathlib.Data.List.Nodup
import Mathlib.Data.List.Range
import Mathlib.Tactic.Common

/-!
# Numbered slots

Values are found under the numbers of slots. The numbers of removed values are used again, the one
that was left last first, before a slot is added behind the others.

## Main definitions

* `Netlist.Slots`: values under numbers, with `get?`, `put`, `vacate` and `modify`.

## Main results

* `Netlist.Slots.get?_put`, `Netlist.Slots.get?_vacate`, `Netlist.Slots.get?_modify`: what is found
  after a change.
-/

namespace Netlist

/-- Values under the numbers of slots. -/
structure Slots (α : Type) where
  /-- The values with their numbers, the last added first. -/
  live : List (Nat × α)
  /-- The numbers without a value, the last left first. -/
  vacant : List Nat
  /-- The numbers have no gap and none of them is used twice. -/
  perm_range :
    (live.map Prod.fst ++ vacant).Perm (List.range (live.length + vacant.length))

namespace Slots

variable {α : Type}

/-- No slots. -/
def empty : Slots α :=
  ⟨[], [], .nil⟩

/-- The value under a number. -/
def get? (s : Slots α) (n : Nat) : Option α :=
  (s.live.find? fun x => x.1 = n).map Prod.snd

theorem nodup_live (s : Slots α) : (s.live.map Prod.fst).Nodup :=
  (List.nodup_append'.1 (s.perm_range.nodup_iff.2 List.nodup_range)).1

/-- What is found under a number is the value that it was put with. -/
theorem get?_eq_some_iff {s : Slots α} {n : Nat} {a : α} :
    s.get? n = some a ↔ (n, a) ∈ s.live := by
  simp only [get?, Option.map_eq_some_iff]
  constructor
  · rintro ⟨⟨m, b⟩, h, rfl⟩
    have hm : m = n := by simpa using List.find?_some h
    exact hm ▸ List.mem_of_find?_eq_some h
  · intro h
    obtain ⟨x, hx⟩ : ∃ x, s.live.find? (fun x => x.1 = n) = some x :=
      Option.isSome_iff_exists.1 (List.find?_isSome.2 ⟨_, h, by simp⟩)
    have hn : x.1 = n := by simpa using List.find?_some hx
    refine ⟨x, hx, ?_⟩
    rw [List.inj_on_of_nodup_map s.nodup_live (List.mem_of_find?_eq_some hx) h hn]

theorem isSome_get?_iff {s : Slots α} {n : Nat} :
    (s.get? n).isSome ↔ n ∈ s.live.map Prod.fst := by
  simp only [Option.isSome_iff_exists, get?_eq_some_iff, List.mem_map, Prod.exists,
    exists_eq_right, @exists_comm Nat]

/-- The number that the next value gets. -/
def next (s : Slots α) : Nat :=
  s.vacant.head?.getD s.live.length

theorem next_notMem (s : Slots α) : s.next ∉ s.live.map Prod.fst := by
  obtain ⟨live, _ | ⟨n, vacant⟩, h⟩ := s
  · intro hm
    have := h.mem_iff.1 (List.mem_append_left _ hm)
    simp [next] at this
  · have hnodup := h.nodup_iff.2 List.nodup_range
    exact fun hm => List.disjoint_of_nodup_append hnodup hm List.mem_cons_self

/-- Add a value. -/
def put (s : Slots α) (a : α) : Slots α where
  live := (s.next, a) :: s.live
  vacant := s.vacant.tail
  perm_range := by
    obtain ⟨live, _ | ⟨n, vacant⟩, h⟩ := s
    · simp only [List.append_nil, List.length_nil, Nat.add_zero] at h
      simpa [next, List.range_succ] using
        (List.perm_append_singleton _ _).symm.trans (h.append_right _)
    · have hlength : live.length + (vacant.length + 1) = live.length + 1 + vacant.length := by
        omega
      simpa [next, hlength] using List.perm_middle.symm.trans h

/-- A number in use is moved in front of the others. -/
private theorem map_fst_perm_cons {s : Slots α} {n : Nat} (h : (s.get? n).isSome) :
    (s.live.map Prod.fst).Perm (n :: (s.live.filter fun x => x.1 ≠ n).map Prod.fst) := by
  have hfilter : (s.live.filter fun x => x.1 ≠ n).map Prod.fst = (s.live.map Prod.fst).erase n := by
    rw [s.nodup_live.erase_eq_filter, List.filter_map]
    refine congrArg (List.map Prod.fst) (List.filter_congr fun x _ => ?_)
    exact decide_not
  rw [hfilter]
  exact List.perm_cons_erase (isSome_get?_iff.1 h)

/-- Remove the value under a number. -/
def vacate (s : Slots α) (n : Nat) : Slots α :=
  if h : (s.get? n).isSome then
    { live := s.live.filter fun x => x.1 ≠ n
      vacant := n :: s.vacant
      perm_range := by
        have hperm := map_fst_perm_cons h
        have hlength := hperm.length_eq
        simp only [List.length_map, List.length_cons] at hlength
        have hsum : (s.live.filter fun x => x.1 ≠ n).length + (s.vacant.length + 1) =
            s.live.length + s.vacant.length := by
          omega
        rw [List.length_cons, hsum]
        exact (List.perm_middle.trans (hperm.symm.append_right _)).trans s.perm_range }
  else s

/-- Change the value under a number. -/
def modify (s : Slots α) (n : Nat) (f : α → α) : Slots α where
  live := s.live.map fun x => if x.1 = n then (n, f x.2) else x
  vacant := s.vacant
  perm_range := by
    have hfst : (s.live.map fun x => if x.1 = n then (n, f x.2) else x).map Prod.fst =
        s.live.map Prod.fst := by
      rw [List.map_map]
      refine List.map_congr_left fun x _ => ?_
      rw [Function.comp_apply]
      split_ifs with h
      · exact h.symm
      · rfl
    rw [hfst, List.length_map]
    exact s.perm_range

/-! ### What is found after a change -/

@[simp] theorem get?_empty (n : Nat) : (empty : Slots α).get? n = none :=
  rfl

theorem get?_next (s : Slots α) : s.get? s.next = none := by
  rw [← Option.not_isSome_iff_eq_none, isSome_get?_iff]
  exact s.next_notMem

theorem get?_put (s : Slots α) (a : α) (n : Nat) :
    (s.put a).get? n = if n = s.next then some a else s.get? n := by
  by_cases h : n = s.next
  · simp [get?, put, h]
  · simp [get?, put, h, Ne.symm h]

theorem get?_vacate (s : Slots α) (n m : Nat) :
    (s.vacate n).get? m = if m = n then none else s.get? m := by
  unfold vacate
  split_ifs with hn hm hm
  · simp [get?, hm]
  · refine Option.ext fun a => ?_
    simp [get?_eq_some_iff, hm]
  · rwa [Option.not_isSome_iff_eq_none, ← hm] at hn
  · rfl

theorem get?_foldl_vacate (ns : List Nat) (s : Slots α) (m : Nat) :
    (ns.foldl vacate s).get? m = if m ∈ ns then none else s.get? m := by
  induction ns generalizing s with
  | nil => simp
  | cons n ns ih =>
    rw [List.foldl_cons, ih, get?_vacate]
    by_cases hm : m = n
    · simp [hm]
    · simp [hm]

theorem get?_modify (s : Slots α) (n : Nat) (f : α → α) (m : Nat) :
    (s.modify n f).get? m = if m = n then (s.get? m).map f else s.get? m := by
  refine Option.ext fun a => ?_
  rw [get?_eq_some_iff, modify, List.mem_map]
  split_ifs with hm
  · subst hm
    simp only [Option.map_eq_some_iff, get?_eq_some_iff]
    constructor
    · rintro ⟨⟨k, b⟩, hb, h⟩
      split_ifs at h with hk
      · obtain rfl : k = m := hk
        exact ⟨b, hb, (Prod.mk.inj h).2⟩
      · exact absurd (Prod.mk.inj h).1 hk
    · rintro ⟨b, hb, rfl⟩
      exact ⟨(m, b), hb, if_pos rfl⟩
  · rw [get?_eq_some_iff]
    constructor
    · rintro ⟨⟨k, b⟩, hb, h⟩
      split_ifs at h with hk
      · exact absurd (Prod.mk.inj h).1.symm hm
      · exact h ▸ hb
    · intro h
      exact ⟨(m, a), h, if_neg hm⟩

end Slots

end Netlist
