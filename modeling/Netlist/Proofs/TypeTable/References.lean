import Mathlib.Order.WellFounded
import Netlist.Proofs.Cycle
import Netlist.Proofs.OrderedMap
import Netlist.Proofs.Sequencing
import Netlist.TypeTable

/-!
# References between types

Validation follows the references of all types depth first. It fails with the part of its way that
has become a cycle, or goes through all types. So it accepts the tables with legal fields in which
references are well founded, and the order of the types does not matter.

## Main definitions

* `Netlist.TypeTable.Refers`: a type has a field of another type.

## Main results

* `Netlist.TypeTable.isCycle_of_visitAll`: what is reported is a cycle of references.
* `Netlist.TypeTable.validate_eq_ok_iff`: what validation accepts.
* `Netlist.TypeTable.validate_of_perm`: types can be validated in any order.
-/

namespace Netlist.TypeTable

variable {t u : TypeTable} {path done done' names : List String} {name : String}

/-- The names that the fields of a type refer to; there are none if the type is not in the table. -/
def referencesOf (t : TypeTable) (name : String) : List String :=
  match t.get? name with
  | none => []
  | some fields => references fields

/-- A type has a field of another type. -/
def Refers (t : TypeTable) (inner outer : String) : Prop :=
  inner ∈ t.referencesOf outer

theorem mem_keys_of_refers {inner outer : String} (h : t.Refers inner outer) : outer ∈ t.keys := by
  unfold Refers referencesOf at h
  split at h
  · cases h
  · rename_i hfields
    exact OrderedMap.mem_keys_of_get? hfields

/-! ### Following references -/

theorem visitAll_nil (t : TypeTable) (path done : List String) :
    t.visitAll path done [] = .ok done := by
  rw [visitAll]

/-- A type is followed by way of all its references, unless this has been done before or the type is
met again. -/
theorem visit_eq (t : TypeTable) (path done : List String) (name : String) :
    t.visit path done name =
      if name ∈ done then .ok done
      else if name ∈ path then .error (path.dropWhile (· ≠ name) ++ [name])
      else (t.visitAll (path ++ [name]) done (t.referencesOf name)).map (name :: ·) := by
  rw [visit]
  split_ifs
  · rfl
  · rfl
  · unfold referencesOf
    split
    · rename_i hget
      rw [hget, visitAll_nil]
      rfl
    · rename_i fields hget
      rw [hget]

/-- One more list of references has been followed: all of them are well founded then, if those were
that had been followed before. -/
private structure Settles (t : TypeTable) (done names done' : List String) : Prop where
  acc : (∀ m ∈ done, Acc t.Refers m) → ∀ m ∈ done', Acc t.Refers m
  mono : ∀ m ∈ done, m ∈ done'
  mem : ∀ m ∈ names, m ∈ done'

private theorem settles_visitAll (t : TypeTable) :
    (∀ path done name, ∀ done', t.visit path done name = .ok done' →
      t.Settles done [name] done') ∧
    ∀ path done names, ∀ done', t.visitAll path done names = .ok done' →
      t.Settles done names done' := by
  refine visit.mutual_induct t _ _ ?_ ?_ ?_ ?_ ?_ ?_ ?_
  · intro path done name hdone done' h
    rw [visit_eq, if_pos hdone] at h
    cases h
    exact ⟨id, fun _ hm => hm, List.forall_mem_singleton.2 hdone⟩
  · intro path done name hdone hpath done' h
    rw [visit_eq, if_neg hdone, if_pos hpath] at h
    cases h
  · intro path done name hdone hpath hget done' h
    have hnone : t.referencesOf name = [] := by rw [referencesOf, hget]
    rw [visit_eq, if_neg hdone, if_neg hpath, hnone, visitAll_nil] at h
    cases h
    refine ⟨fun hacc => List.forall_mem_cons.2 ⟨Acc.intro _ fun m hm => ?_, hacc⟩,
      fun _ => List.mem_cons_of_mem _, List.forall_mem_singleton.2 List.mem_cons_self⟩
    rw [Refers, hnone] at hm
    cases hm
  · intro path done name hdone hpath fields hget ih done' h
    have hfields : t.referencesOf name = references fields := by rw [referencesOf, hget]
    rw [visit_eq, if_neg hdone, if_neg hpath, hfields, map_eq_ok_iff] at h
    obtain ⟨done₁, h, rfl⟩ := h
    obtain ⟨hacc, hmono, hmem⟩ := ih done₁ h
    refine ⟨fun hd => List.forall_mem_cons.2 ⟨Acc.intro _ fun m hm => ?_, hacc hd⟩,
      fun m hm => List.mem_cons_of_mem _ (hmono m hm),
      List.forall_mem_singleton.2 List.mem_cons_self⟩
    exact hacc hd m (hmem m (hfields ▸ hm))
  · intro path done done' h
    rw [visitAll_nil] at h
    cases h
    exact ⟨id, fun _ hm => hm, fun _ hm => nomatch hm⟩
  · intro path done name names cycle hvisit _ done' h
    rw [visitAll, hvisit] at h
    cases h
  · intro path done name names done₁ hvisit ih₁ ih done' h
    rw [visitAll, hvisit] at h
    have hfirst := ih₁ done₁ hvisit
    have hrest := ih done' h
    exact ⟨fun hd => hrest.acc (hfirst.acc hd), fun m hm => hrest.mono m (hfirst.mono m hm),
      List.forall_mem_cons.2 ⟨hrest.mono _ (hfirst.mem _ (List.mem_singleton_self _)), hrest.mem⟩⟩

/-- What is reported is a cycle of references, if each type on the way refers to the next. -/
private theorem isCycle_of_visit (t : TypeTable) :
    (∀ path done name, ∀ cycle, (path ++ [name]).IsChain (fun outer inner => t.Refers inner outer) →
      t.visit path done name = .error cycle →
      IsCycle (fun outer inner => t.Refers inner outer) cycle) ∧
    ∀ path done names, ∀ cycle,
      (∀ name ∈ names, (path ++ [name]).IsChain fun outer inner => t.Refers inner outer) →
      t.visitAll path done names = .error cycle →
      IsCycle (fun outer inner => t.Refers inner outer) cycle := by
  refine visit.mutual_induct t _ _ ?_ ?_ ?_ ?_ ?_ ?_ ?_
  · intro path done name hdone cycle _ h
    rw [visit_eq, if_pos hdone] at h
    cases h
  · intro path done name hdone hpath cycle hchain h
    rw [visit_eq, if_neg hdone, if_pos hpath] at h
    cases h
    exact isCycle_dropWhile hchain hpath
  · intro path done name hdone hpath hget cycle _ h
    rw [visit_eq, if_neg hdone, if_neg hpath, referencesOf, hget, visitAll_nil] at h
    cases h
  · intro path done name hdone hpath fields hget ih cycle hchain h
    have hfields : t.referencesOf name = references fields := by rw [referencesOf, hget]
    rw [visit_eq, if_neg hdone, if_neg hpath, hfields, map_eq_error_iff] at h
    refine ih cycle (fun m hm => ?_) h
    refine List.isChain_append.2 ⟨hchain, List.isChain_singleton _, fun x hx y hy => ?_⟩
    rw [List.getLast?_concat, Option.mem_some_iff] at hx
    cases hy
    rw [← hx, Refers, hfields]
    exact hm
  · intro path done cycle _ h
    rw [visitAll_nil] at h
    cases h
  · intro path done name names cycle hvisit ih cycle' hchain h
    rw [visitAll, hvisit] at h
    cases h
    exact ih cycle (hchain name List.mem_cons_self) hvisit
  · intro path done name names done₁ hvisit _ ih cycle hchain h
    rw [visitAll, hvisit] at h
    exact ih cycle (fun m hm => hchain m (List.mem_cons_of_mem _ hm)) h

/-- What is reported is a cycle of references. -/
theorem isCycle_of_visitAll {cycle : List String} (h : t.visitAll [] [] names = .error cycle) :
    IsCycle (fun outer inner => t.Refers inner outer) cycle :=
  (isCycle_of_visit t).2 [] [] names cycle (fun _ _ => List.isChain_singleton _) h

/-! ### Validation -/

/-- No cycle is found if references are well founded, and only then. -/
theorem exists_visitAll_iff :
    (∃ done, t.visitAll [] [] t.keys = .ok done) ↔ WellFounded t.Refers := by
  constructor
  · rintro ⟨done, h⟩
    have hsettles := (settles_visitAll t).2 _ _ _ _ h
    have hkeys (m : String) (hm : m ∈ t.keys) : Acc t.Refers m :=
      hsettles.acc (fun _ h => nomatch h) m (hsettles.mem m hm)
    refine ⟨fun m => ?_⟩
    by_cases hm : m ∈ t.keys
    · exact hkeys m hm
    · exact Acc.intro m fun _ hin => absurd (mem_keys_of_refers hin) hm
  · intro hwf
    cases h : t.visitAll [] [] t.keys with
    | ok done => exact ⟨done, rfl⟩
    | error cycle =>
      have hcycle := isCycle_of_visitAll h
      obtain ⟨x, hx⟩ := hcycle.exists_head
      have hloop := Relation.transGen_swap.1 (hcycle.transGen hx)
      exact absurd hloop (not_transGen_of_acc (hwf.apply x))

/-- Validation accepts a table if its fields are legal and no type is inside of itself, however
deep. -/
theorem validate_eq_ok_iff : t.validate = .ok () ↔
    (∀ e ∈ t.entries, ∀ f ∈ e.2.entries, t.checkField e.1 f = .ok ()) ∧
      WellFounded t.Refers := by
  rw [← exists_visitAll_iff, validate, bind_eq_ok_iff]
  have hfields : (t.entries.forM fun e => e.2.entries.forM (t.checkField e.1)) = .ok ⟨⟩ ↔
      ∀ e ∈ t.entries, ∀ f ∈ e.2.entries, t.checkField e.1 f = .ok () := by
    rw [forM_eq_ok_iff]
    exact forall₂_congr fun e _ => forM_eq_ok_iff
  rw [← hfields]
  constructor
  · rintro ⟨⟨⟩, h, h'⟩
    obtain ⟨done, hdone, -⟩ := bind_eq_ok_iff.1 h'
    exact ⟨h, done, mapError_eq_ok_iff.1 hdone⟩
  · rintro ⟨h, done, hdone⟩
    exact ⟨⟨⟩, h, bind_eq_ok_iff.2 ⟨done, mapError_eq_ok_iff.2 hdone, rfl⟩⟩

/-- Types can be validated in any order. -/
theorem validate_of_perm (htu : t.entries.Perm u.entries) (h : t.validate = .ok ()) :
    u.validate = .ok () := by
  have hget := OrderedMap.get?_eq_of_perm htu
  have hrefers : t.Refers = u.Refers := by
    funext inner outer
    rw [Refers, Refers, referencesOf, referencesOf, hget]
  have hcontains (name : String) : t.contains name = u.contains name :=
    congrArg Option.isSome (congrFun hget name)
  have hcheck (name : String) (f : String × PortType) :
      t.checkField name f = u.checkField name f := by
    simp only [checkField, hcontains]
  obtain ⟨hfields, hwf⟩ := validate_eq_ok_iff.1 h
  refine validate_eq_ok_iff.2 ⟨fun e he f hf => ?_, hrefers ▸ hwf⟩
  exact hcheck e.1 f ▸ hfields e (htu.mem_iff.2 he) f hf

end Netlist.TypeTable
