import Netlist.Proofs.Cycle
import Netlist.Proofs.Library.Order

/-!
# The search finds a cycle

If the members cannot be put in order, a cycle is looked for depth first, from one member after the
other. A way that is found leads over prerequisites back to where it begins. Names that have been
seen without finding a way do not lead back, so a member on a cycle is not searched in vain.

## Main results

* `Netlist.Order.isCycle_of_firstCycle?`: what is found is a cycle.
* `Netlist.Order.exists_firstCycle?`: a cycle is found if one of the names is on a cycle.
* `Netlist.Order.exists_loop_of_misplaced?`: a member of the candidate is misplaced only if there is
  a cycle.
-/

namespace Netlist.Order

open Relation (TransGen)

variable {members : List String} {needs : String → List String} {goal name : String}
  {path seen seen' ns names way : List String}

/-! ### Ways that are found -/

/-- A way that is found leads over prerequisites from the goal back to it, if the path does so far.
-/
theorem isCycle_of_wayBack (hhead : path.head? = some goal)
    (hchain : ∀ n ∈ ns, (path ++ [n]).IsChain fun m n => n ∈ needs m)
    (h : wayBack members needs goal path seen ns = .error way) :
    IsCycle (fun m n => n ∈ needs m) way ∧ way.head? = some goal := by
  fun_induction wayBack members needs goal path seen ns with
  | case1 => cases h
  | case2 path seen ns =>
    cases h
    obtain ⟨rest, rfl⟩ := List.head?_eq_some_iff.1 hhead
    refine ⟨⟨by simp, ?_, hchain goal List.mem_cons_self⟩, rfl⟩
    rw [List.getLast?_concat]
    rfl
  | case3 path seen n ns _ _ ih =>
    exact ih hhead (fun m hm => hchain m (List.mem_cons_of_mem _ hm)) h
  | case4 path seen n ns _ _ _ ih =>
    exact ih hhead (fun m hm => hchain m (List.mem_cons_of_mem _ hm)) h
  | case5 path seen n ns _ _ _ way' hway ih =>
    cases h
    refine ih (by rw [List.head?_append, hhead]; rfl) (fun m hm => ?_) hway
    refine List.isChain_append.2 ⟨hchain n List.mem_cons_self, List.isChain_singleton _, ?_⟩
    intro x hx y hy
    rw [List.getLast?_concat, Option.mem_some_iff] at hx
    cases hy
    exact hx ▸ hm
  | case6 path seen n ns _ _ _ seen₁ _ _ ih =>
    exact ih hhead (fun m hm => hchain m (List.mem_cons_of_mem _ hm)) h

theorem isCycle_of_cycleFrom? (h : cycleFrom? members needs name = some way) :
    IsCycle (fun m n => n ∈ needs m) way ∧ way.head? = some name := by
  unfold cycleFrom? at h
  split at h
  · rename_i hway
    cases h
    refine isCycle_of_wayBack rfl (fun n hn => ?_) hway
    exact List.isChain_pair.2 hn
  · cases h

/-- What is found is a cycle that begins at one of the names. -/
theorem isCycle_of_firstCycle? (h : firstCycle? members needs names = some way) :
    IsCycle (fun m n => n ∈ needs m) way ∧ ∃ name ∈ names, way.head? = some name := by
  obtain ⟨name, hname, h⟩ := List.exists_of_findSome?_eq_some h
  obtain ⟨hcycle, hhead⟩ := isCycle_of_cycleFrom? h
  exact ⟨hcycle, name, hname, hhead⟩

/-! ### Searches in vain -/

/-- If no way is found, the prerequisites that have been gone through are seen, and those of all
that is seen now and was not before. None of them is the goal. -/
theorem seen_of_wayBack (hmembers : ∀ m ∈ members, ∀ n ∈ needs m, n ∈ members)
    (hpath : ∀ m ∈ path, m = goal ∨ m ∈ seen) (hns : ∀ n ∈ ns, n ∈ members)
    (h : wayBack members needs goal path seen ns = .ok seen') :
    (∀ n ∈ seen, n ∈ seen') ∧ (∀ n ∈ ns, n ≠ goal ∧ n ∈ seen') ∧
      ∀ m ∈ seen', m ∉ seen → ∀ n ∈ needs m, n ≠ goal ∧ n ∈ seen' := by
  fun_induction wayBack members needs goal path seen ns generalizing seen' with
  | case1 =>
    cases h
    exact ⟨fun _ hn => hn, fun _ hn => (nomatch hn), fun _ hm hnew => absurd hm hnew⟩
  | case2 => cases h
  | case3 path seen n ns hgoal hseen ih =>
    obtain ⟨hmono, hall, hclosed⟩ := ih hpath (List.forall_mem_cons.1 hns).2 h
    have hn : n ∈ seen := hseen.elim id fun hn => (hpath n hn).resolve_left hgoal
    exact ⟨hmono, List.forall_mem_cons.2 ⟨⟨hgoal, hmono n hn⟩, hall⟩, hclosed⟩
  | case4 path seen n ns _ _ hn => exact absurd (hns n List.mem_cons_self) hn
  | case5 => cases h
  | case6 path seen n ns hgoal _ hn seen₁ hinside ih₁ ih =>
    obtain ⟨hmono₁, hall₁, hclosed₁⟩ := ih₁
      (List.forall_mem_append.2 ⟨fun m hm => (hpath m hm).imp_right (List.mem_cons_of_mem _),
        List.forall_mem_singleton.2 (.inr List.mem_cons_self)⟩)
      (hmembers n (of_not_not hn)) hinside
    have hsub : ∀ m ∈ seen, m ∈ seen₁ := fun m hm => hmono₁ m (List.mem_cons_of_mem _ hm)
    obtain ⟨hmono, hall, hclosed⟩ :=
      ih (fun m hm => (hpath m hm).imp_right (hsub m)) (List.forall_mem_cons.1 hns).2 h
    refine ⟨fun m hm => hmono m (hsub m hm),
      List.forall_mem_cons.2 ⟨⟨hgoal, hmono n (hmono₁ n List.mem_cons_self)⟩, hall⟩, ?_⟩
    intro m hm hnew x hx
    by_cases hm₁ : m ∈ seen₁
    · -- the name was seen below `n`, or it is `n`, and all its prerequisites have been gone through
      have hx' : x ≠ goal ∧ x ∈ seen₁ := by
        by_cases hmn : m = n
        · exact hall₁ x (hmn ▸ hx)
        · exact hclosed₁ m hm₁ (fun hm => (List.mem_cons.1 hm).elim hmn hnew) x hx
      exact ⟨hx'.1, hmono x hx'.2⟩
    · exact hclosed m hm hm₁ x hx

/-- A way back to a member is found if there is one. -/
theorem exists_cycleFrom? (hmembers : ∀ m ∈ members, ∀ n ∈ needs m, n ∈ members)
    (hname : name ∈ members) (hloop : TransGen (fun m n => n ∈ needs m) name name) :
    ∃ way, cycleFrom? members needs name = some way := by
  unfold cycleFrom?
  cases h : wayBack members needs name [name] [] (needs name) with
  | error way => exact ⟨way, rfl⟩
  | ok seen =>
    obtain ⟨-, hall, hclosed⟩ := seen_of_wayBack hmembers
      (List.forall_mem_singleton.2 (.inl rfl)) (hmembers name hname) h
    have hreach {n : String} (hn : TransGen (fun m n => n ∈ needs m) name n) :
        n ≠ name ∧ n ∈ seen := by
      induction hn with
      | single hn => exact hall _ hn
      | tail _ hn ih => exact hclosed _ ih.2 List.not_mem_nil _ hn
    exact absurd rfl (hreach hloop).1

theorem exists_firstCycle? (hmembers : ∀ m ∈ members, ∀ n ∈ needs m, n ∈ members)
    (hname : name ∈ members) (hloop : TransGen (fun m n => n ∈ needs m) name name)
    (hnames : name ∈ names) : ∃ way, firstCycle? members needs names = some way := by
  obtain ⟨way, hway⟩ := exists_cycleFrom? hmembers hname hloop
  rw [← Option.isSome_iff_exists, firstCycle?, List.findSome?_isSome_iff]
  exact ⟨name, hnames, by rw [hway]; rfl⟩

/-- What is misplaced is a prerequisite of one of the names. -/
theorem exists_mem_of_misplaced? {before : List String} {n : String}
    (h : misplaced? needs before names = some n) : ∃ m ∈ names, n ∈ needs m := by
  induction names generalizing before with
  | nil => cases h
  | cons name names ih =>
    unfold misplaced? at h
    split at h
    · rename_i hfind
      cases h
      exact ⟨name, List.mem_cons_self, List.mem_of_find?_eq_some hfind⟩
    · obtain ⟨m, hm, hn⟩ := ih h
      exact ⟨m, List.mem_cons_of_mem _ hm, hn⟩

/-- A member of the candidate is misplaced only if some member needs itself. -/
theorem exists_loop_of_misplaced? (hnodup : members.Nodup)
    (hmembers : ∀ m ∈ members, ∀ n ∈ needs m, n ∈ members)
    (h : misplaced? needs [] (candidate members needs) ≠ none) :
    ∃ m ∈ members, TransGen (fun m n => n ∈ needs m) m m := by
  by_contra hnone
  refine h (misplaced?_candidate (fun m hm => hnone ⟨m, ?_, ?_⟩) hnodup hmembers)
  · obtain ⟨x, hx, -⟩ := TransGen.head'_iff.1 hm
    exact hmembers x hx.1 m hx.2
  · exact Relation.transGen_swap.1 (TransGen.mono (fun _ _ (h : Precedes _ _ _ _) => h.2) m m hm)

end Netlist.Order
