import Mathlib.Logic.Relation
import Mathlib.Order.WellFounded
import Netlist.Proofs.Catalog.Modules

/-!
# Containment of modules

A composite contains the modules that its cells are bound to. The check of a new composite goes
through everything inside it, and finds the composite itself if it is there. So in a catalog that
is put together by registering new modules, containment is well founded.

## Main definitions

* `Netlist.Catalog.Within`: a composite has a cell of a module.

## Main results

* `Netlist.Catalog.checkContainment_induct`: the check goes through modules from the inside out.
* `Netlist.Catalog.not_reaches_of_checkBody`: an accepted composite is not inside its own cells.
* `Netlist.Catalog.checkBody_of_wellFounded`: no composite is refused if containment is well
  founded.
* `Netlist.Catalog.wellFounded_within_add`: registering a module keeps containment well founded.
-/

namespace Netlist.Catalog

variable {c d : Catalog} {root : String}

/-- A composite has a cell of a module. -/
def Within (c : Catalog) (inner outer : String) : Prop :=
  ∃ g, c.body? outer = some g ∧ ∃ i ∈ g.instances, i.isCell = true ∧ i.module = inner

/-- The check goes through modules from the inside out: what holds of a module other than `root` as
soon as it holds of everything inside it, holds of all that the check has gone through. -/
theorem checkContainment_induct {p : String → Prop} {path cleared cleared' : List String}
    {is : List Instance} (hp : ∀ m, m ≠ root → (∀ m', c.Within m' m → p m') → p m)
    (hroot : root ∈ path) (hcleared : ∀ m ∈ cleared, p m)
    (h : c.checkContainment path cleared is = .ok cleared') :
    (∀ m ∈ cleared', p m) ∧ ∀ i ∈ is, i.isCell = true → p i.module := by
  fun_induction checkContainment c path cleared is generalizing cleared' with
  | case1 =>
    cases h
    exact ⟨hcleared, fun _ hi => nomatch hi⟩
  | case2 path cleared i is hcell ih =>
    obtain ⟨hcleared', hall⟩ := ih hroot hcleared h
    refine ⟨hcleared', List.forall_mem_cons.2 ⟨fun hi => ?_, hall⟩⟩
    rw [hi] at hcell
    cases hcell
  | case3 => cases h
  | case4 path cleared i is _ _ hmem ih =>
    obtain ⟨hcleared', hall⟩ := ih hroot hcleared h
    exact ⟨hcleared', List.forall_mem_cons.2 ⟨fun _ => hcleared _ hmem, hall⟩⟩
  | case5 path cleared i is _ hpath _ hbody ih =>
    have hi : p i.module := by
      refine hp _ (fun he => hpath (he ▸ hroot)) fun m hin => ?_
      obtain ⟨g, hg, -⟩ := hin
      cases hbody.symm.trans hg
    obtain ⟨hcleared', hall⟩ := ih hroot (List.forall_mem_cons.2 ⟨hi, hcleared⟩) h
    exact ⟨hcleared', List.forall_mem_cons.2 ⟨fun _ => hi, hall⟩⟩
  | case6 => cases h
  | case7 path cleared i is _ hpath _ g hbody cleared₁ hinside ih₁ ih =>
    obtain ⟨hcleared₁, hall₁⟩ := ih₁ (List.mem_append_left _ hroot) hcleared hinside
    have hi : p i.module := by
      refine hp _ (fun he => hpath (he ▸ hroot)) fun m hin => ?_
      obtain ⟨g', hg', j, hj, hcell, rfl⟩ := hin
      cases hbody.symm.trans hg'
      exact hall₁ j hj hcell
    obtain ⟨hcleared', hall⟩ := ih hroot (List.forall_mem_cons.2 ⟨hi, hcleared₁⟩) h
    exact ⟨hcleared', List.forall_mem_cons.2 ⟨fun _ => hi, hall⟩⟩

theorem forall_cells_of_checkBody {p : String → Prop} {g : Graph}
    (hp : ∀ m, m ≠ root → (∀ m', c.Within m' m → p m') → p m) (h : c.checkBody root g = .ok ()) :
    ∀ i ∈ g.instances, i.isCell = true → p i.module := by
  obtain ⟨cleared, hcheck, -⟩ := bind_eq_ok_iff.1 h
  have hnone : ∀ m ∈ ([] : List String), p m := fun _ hm => nomatch hm
  exact (checkContainment_induct hp (List.mem_singleton_self root) hnone hcheck).2

/-- An accepted composite is not inside its own cells, however deep. -/
theorem not_reaches_of_checkBody {g : Graph} (h : c.checkBody root g = .ok ()) {i : Instance}
    (hi : i ∈ g.instances) (hcell : i.isCell = true) :
    ¬Relation.ReflTransGen c.Within root i.module := by
  refine forall_cells_of_checkBody (p := fun m => ¬Relation.ReflTransGen c.Within root m)
    (fun m hne hin hreach => ?_) h i hi hcell
  obtain rfl | ⟨m', hreach, hm'⟩ := hreach.cases_tail
  · exact hne rfl
  · exact hin m' hm' hreach

/-! ### Completeness of the check -/

/-- A cell of a module without an inside is gone through at once. -/
theorem checkContainment_cons_leaf {path cleared : List String} {i : Instance}
    (hcell : ¬(!i.isCell) = true) (hpath : i.module ∉ path) (hmem : i.module ∉ cleared)
    (hbody : c.body? i.module = none) (is : List Instance) :
    c.checkContainment path cleared (i :: is) =
      c.checkContainment path (i.module :: cleared) is := by
  rw [checkContainment, if_neg hcell, if_neg hpath, if_neg hmem]
  split
  · rfl
  · rename_i g hg
    cases hbody.symm.trans hg

/-- The check has nothing against cells of modules without an inside. -/
theorem exists_checkContainment (path cleared : List String) {is : List Instance}
    (h : ∀ i ∈ is, i.isCell = true → i.module ∉ path ∧ c.body? i.module = none) :
    ∃ cleared', c.checkContainment path cleared is = .ok cleared' := by
  induction is generalizing cleared with
  | nil => exact ⟨cleared, by rw [checkContainment]⟩
  | cons i is ih =>
    obtain ⟨hi, his⟩ := List.forall_mem_cons.1 h
    by_cases hcell : i.isCell = true
    · obtain ⟨hpath, hbody⟩ := hi hcell
      by_cases hmem : i.module ∈ cleared
      · rw [checkContainment, if_neg (by simp [hcell]), if_neg hpath, if_pos hmem]
        exact ih _ his
      · rw [checkContainment_cons_leaf (by simp [hcell]) hpath hmem hbody]
        exact ih _ his
    · rw [checkContainment, if_pos (by simpa using hcell)]
      exact ih _ his

theorem checkBody_of_leaves {g : Graph} (h : ∀ i ∈ g.instances, i.isCell = true →
    i.module ≠ root ∧ c.body? i.module = none) : c.checkBody root g = .ok () := by
  obtain ⟨cleared, hcheck⟩ := exists_checkContainment [root] []
    fun i hi hc => ⟨fun hm => (h i hi hc).1 (List.mem_singleton.1 hm), (h i hi hc).2⟩
  exact bind_eq_ok_iff.2 ⟨cleared, hcheck, rfl⟩

/-- The check has nothing against cells that no composite on the path is inside of, if containment
is well founded. -/
theorem exists_checkContainment_of_wellFounded (hwf : WellFounded c.Within)
    (path cleared : List String) {is : List Instance}
    (h : ∀ p ∈ path, ∀ i ∈ is, i.isCell = true → ¬Relation.ReflTransGen c.Within p i.module) :
    ∃ cleared', c.checkContainment path cleared is = .ok cleared' := by
  fun_induction checkContainment c path cleared is with
  | case1 => exact ⟨_, rfl⟩
  | case2 path cleared i is _ ih =>
    exact ih fun p hp j hj => h p hp j (List.mem_cons_of_mem _ hj)
  | case3 path cleared i is hcell hpath =>
    exact absurd .refl (h _ hpath i List.mem_cons_self (by simpa using hcell))
  | case4 path cleared i is _ _ _ ih =>
    exact ih fun p hp j hj => h p hp j (List.mem_cons_of_mem _ hj)
  | case5 path cleared i is _ _ _ _ ih =>
    exact ih fun p hp j hj => h p hp j (List.mem_cons_of_mem _ hj)
  | case6 path cleared i is hcell hpath _ g hbody e hinside ih =>
    have hin {j : Instance} (hj : j ∈ g.instances) (hjc : j.isCell = true) :
        c.Within j.module i.module :=
      ⟨g, hbody, j, hj, hjc, rfl⟩
    obtain ⟨cleared', hok⟩ := ih fun p hp j hj hjc hreach => by
      rcases List.mem_append.1 hp with hp | hp
      · exact h p hp i List.mem_cons_self (by simpa using hcell) (hreach.tail (hin hj hjc))
      · -- the composite would be inside of itself
        rw [List.mem_singleton.1 hp] at hreach
        have hloop := Relation.TransGen.tail' hreach (hin hj hjc)
        exact hwf.transGen.asymmetric _ _ hloop hloop
    cases hinside.symm.trans hok
  | case7 path cleared i is _ _ _ _ _ _ _ _ ih =>
    exact ih fun p hp j hj => h p hp j (List.mem_cons_of_mem _ hj)

/-- Where containment is well founded, a composite passes the check if it is not inside its own
cells. -/
theorem checkBody_of_not_reaches (hwf : WellFounded c.Within) {name : String} {g : Graph}
    (h : ∀ i ∈ g.instances, i.isCell = true → ¬Relation.ReflTransGen c.Within name i.module) :
    c.checkBody name g = .ok () := by
  obtain ⟨cleared, hcheck⟩ := exists_checkContainment_of_wellFounded hwf [name] [] fun p hp =>
    List.mem_singleton.1 hp ▸ h
  exact bind_eq_ok_iff.2 ⟨cleared, hcheck, rfl⟩

/-- Registered composites pass the check if containment is well founded. -/
theorem checkBody_of_wellFounded (hwf : WellFounded c.Within) {name : String} {g : Graph}
    (hg : c.body? name = some g) : c.checkBody name g = .ok () :=
  checkBody_of_not_reaches hwf fun i hi hcell hreach =>
    have hloop := Relation.TransGen.tail' hreach ⟨g, hg, i, hi, hcell, rfl⟩
    hwf.transGen.asymmetric _ _ hloop hloop

/-! ### New modules -/

theorem within_put_iff {name inner outer : String} {m : Module} (h : outer ≠ name) :
    (c.put name m).Within inner outer ↔ c.Within inner outer := by
  rw [Within, Within, body?_put, if_neg h]

/-- There is no endless way into a module that has passed the check. -/
theorem acc_within_put {name : String} {m : Module}
    (h : ∀ g, m.body = some g → c.checkBody name g = .ok ()) :
    Acc (c.put name m).Within name := by
  refine Acc.intro name fun m' hin => ?_
  obtain ⟨g, hg, i, hi, hcell, rfl⟩ := hin
  rw [body?_put, if_pos rfl] at hg
  exact forall_cells_of_checkBody
    (fun n hn hall => Acc.intro n fun m' hin => hall m' ((within_put_iff hn).1 hin)) (h g hg) i hi
    hcell

/-- Nor is there one into any other module, if there was none before. -/
theorem acc_within_put_of_acc {name n : String} {m : Module}
    (hname : Acc (c.put name m).Within name) (h : Acc c.Within n) :
    Acc (c.put name m).Within n := by
  induction h with
  | intro n _ ih =>
    by_cases hn : n = name
    · exact hn ▸ hname
    · exact Acc.intro n fun m' hin => ih m' ((within_put_iff hn).1 hin)

/-- Registering a new module keeps containment well founded. -/
theorem wellFounded_within_add {name : String} {m : Module} (hwf : WellFounded c.Within)
    (h : c.add name m = .ok d) : WellFounded d.Within := by
  obtain ⟨-, -, hbody, rfl⟩ := add_eq_ok_iff.1 h
  exact ⟨fun n => acc_within_put_of_acc (acc_within_put hbody) (hwf.apply n)⟩

/-! ### Cycles -/

/-- Containment is well founded if it has no cycle, because only finitely many modules have an
inside. -/
theorem wellFounded_of_acyclic (h : ∀ m, ¬Relation.TransGen c.Within m m) :
    WellFounded c.Within := by
  -- the modules that lead to `m` from outside are never met again
  have hacc (n : Nat) (path : List String) (m : String) (hn : unvisited c.names path = n)
      (hpath : ∀ p ∈ path, Relation.TransGen c.Within m p) : Acc c.Within m := by
    induction n using Nat.strong_induction_on generalizing path m with
    | _ n ih =>
      refine Acc.intro m fun m' hin => ?_
      obtain ⟨g, hg, -⟩ := id hin
      have hm : m ∉ path := fun hm => h m (hpath m hm)
      refine ih _ (hn ▸ unvisited_append_lt (mem_names_of_body? hg) hm) (path ++ [m]) m' rfl
        fun p hp => ?_
      rcases List.mem_append.1 hp with hp | hp
      · exact .head hin (hpath p hp)
      · exact List.mem_singleton.1 hp ▸ .single hin
  exact ⟨fun m => hacc _ [] m rfl fun _ hp => nomatch hp⟩

/-- Containment has no cycle if each composite passes the check on its own. -/
theorem acyclic_of_checkBody (h : ∀ name g, c.body? name = some g → c.checkBody name g = .ok ())
    (m : String) : ¬Relation.TransGen c.Within m m := by
  intro hcycle
  obtain ⟨n, hreach, g, hg, i, hi, hcell, rfl⟩ := Relation.TransGen.tail'_iff.1 hcycle
  exact not_reaches_of_checkBody (h m g hg) hi hcell hreach

end Netlist.Catalog
