import Mathlib.Data.List.Nodup
import Mathlib.Logic.Relation
import Netlist.Library.Order

/-!
# The search finds an order

The search along dependents leaves a name when all its dependents have been left. A name on the
stack that has been met but not left has all the names above it on the stack as dependents, direct
or indirect; so without cycles it is not met among them, and in the end each name stands in front of
its dependents.

## Main definitions

* `Netlist.Order.Precedes`: a name is a prerequisite of a member.
* `Netlist.Order.Settled`: in a list, each name stands in front of its dependents.
* `Netlist.Order.Searching`, `Netlist.Order.Sorting`: what holds while the search goes on, and what
  holds besides without cycles.
* `Netlist.Order.Ready`: in a list, each name comes after its prerequisites.

## Main results

* `Netlist.Order.Searching.search`, `Netlist.Order.Sorting.search`: a search keeps what holds.
* `Netlist.Order.mem_candidate`, `Netlist.Order.nodup_candidate`, `Netlist.Order.settled_candidate`:
  the candidate lists each member once, and without cycles in front of its dependents.
* `Netlist.Order.misplaced?_candidate`: no member of the candidate is misplaced.
* `Netlist.Order.ready_of_misplaced?`: where none is misplaced, prerequisites come first.
-/

namespace Netlist.Order

open Relation (TransGen)

variable {members : List String} {needs : String → List String} {name : String}
  {fresh left stack names : List String}

/-- A name is a prerequisite of a member. -/
def Precedes (members : List String) (needs : String → List String) (n m : String) : Prop :=
  m ∈ members ∧ n ∈ needs m

theorem mem_dependents {m : String} :
    m ∈ dependents members needs name ↔ Precedes members needs name m := by
  rw [dependents, List.mem_filter, decide_eq_true_eq, Precedes]

/-- Each name of a list stands in front of all its dependents. -/
def Settled (members : List String) (needs : String → List String) : List String → Prop
  | [] => True
  | n :: ns => (∀ m, Precedes members needs n m → m ∈ ns) ∧ Settled members needs ns

/-- The dependents of a name in the list are in the list. -/
theorem Settled.mem {n m : String} (h : Settled members needs names) (hn : n ∈ names)
    (hm : Precedes members needs n m) : m ∈ names := by
  induction names with
  | nil => cases hn
  | cons x xs ih =>
    obtain ⟨hx, hxs⟩ := h
    rcases List.mem_cons.1 hn with rfl | hn
    · exact List.mem_cons_of_mem _ (hx m hm)
    · exact List.mem_cons_of_mem _ (ih hxs hn)

/-! ### The search -/

/-- What holds while the search goes on: members that have been met but not left are on the stack,
and no name is left twice. -/
structure Searching (members fresh left stack : List String) : Prop where
  nodup_fresh : fresh.Nodup
  nodup_left : left.Nodup
  fresh_of_mem : ∀ n ∈ left, n ∉ fresh
  left_sub : ∀ n ∈ left, n ∈ members
  stack_sub : ∀ n ∈ stack, n ∈ members
  waiting : ∀ n ∈ members, n ∉ fresh → n ∉ left → n ∈ stack

namespace Searching

/-- A name that is met for the first time stays on the stack, below its fresh dependents. -/
theorem meet (h : Searching members fresh left (name :: stack)) :
    Searching members (fresh.erase name) left
      ((dependents members needs name).filter (· ∈ fresh.erase name) ++ name :: stack) where
  nodup_fresh := h.nodup_fresh.erase _
  nodup_left := h.nodup_left
  fresh_of_mem n hn hf := h.fresh_of_mem n hn (List.mem_of_mem_erase hf)
  left_sub := h.left_sub
  stack_sub n hn := by
    rcases List.mem_append.1 hn with hn | hn
    · exact (mem_dependents.1 (List.mem_filter.1 hn).1).1
    · exact h.stack_sub n hn
  waiting n hn hfresh hleft := by
    refine List.mem_append_right _ ?_
    by_cases hne : n = name
    · exact hne ▸ List.mem_cons_self
    · exact h.waiting n hn (fun hf => hfresh ((List.mem_erase_of_ne hne).2 hf)) hleft

/-- A name that is met again is left, unless it has been. -/
theorem leave (h : Searching members fresh left (name :: stack)) (hname : name ∉ fresh) :
    Searching members fresh (if name ∈ left then left else name :: left) stack := by
  have hstack : ∀ n ∈ stack, n ∈ members := fun n hn => h.stack_sub n (List.mem_cons_of_mem _ hn)
  have hwaiting (n : String) (hn : n ∈ members) (hfresh : n ∉ fresh) (hne : n ≠ name)
      (hleft : n ∉ left) : n ∈ stack :=
    (List.mem_cons.1 (h.waiting n hn hfresh hleft)).resolve_left hne
  split_ifs with hleft
  · exact ⟨h.nodup_fresh, h.nodup_left, h.fresh_of_mem, h.left_sub, hstack,
      fun n hn hf hl => hwaiting n hn hf (fun he => hl (he ▸ hleft)) hl⟩
  · refine ⟨h.nodup_fresh, List.nodup_cons.2 ⟨hleft, h.nodup_left⟩,
      List.forall_mem_cons.2 ⟨hname, h.fresh_of_mem⟩,
      List.forall_mem_cons.2 ⟨h.stack_sub name List.mem_cons_self, h.left_sub⟩, hstack,
      fun n hn hf hl => ?_⟩
    exact hwaiting n hn hf (List.ne_of_not_mem_cons hl) (List.not_mem_of_not_mem_cons hl)

/-- A search ends with an empty stack, and has met all that was on it. -/
theorem search (h : Searching members fresh left stack) :
    Searching members (search members needs fresh left stack).1
        (search members needs fresh left stack).2 [] ∧
      (∀ n ∈ (Order.search members needs fresh left stack).1, n ∈ fresh) ∧
      ∀ n ∈ stack, n ∉ (Order.search members needs fresh left stack).1 := by
  fun_induction Order.search members needs fresh left stack with
  | case1 => exact ⟨h, fun _ hn => hn, fun _ hn => nomatch hn⟩
  | case2 fresh left name stack hname ih =>
    obtain ⟨h', hsub, hmet⟩ := ih h.meet
    exact ⟨h', fun n hn => List.mem_of_mem_erase (hsub n hn),
      fun n hn => hmet n (List.mem_append_right _ hn)⟩
  | case3 fresh left name stack hname ih =>
    obtain ⟨h', hsub, hmet⟩ := ih (h.leave hname)
    exact ⟨h', hsub, List.forall_mem_cons.2 ⟨fun hn => hname (hsub name hn), hmet⟩⟩

/-- A member that is still fresh can be put on the empty stack. -/
theorem start (h : Searching members fresh left []) (hname : name ∈ members) :
    Searching members fresh left [name] where
  nodup_fresh := h.nodup_fresh
  nodup_left := h.nodup_left
  fresh_of_mem := h.fresh_of_mem
  left_sub := h.left_sub
  stack_sub := List.forall_mem_singleton.2 hname
  waiting n hn hf hl := nomatch h.waiting n hn hf hl

/-- Searches from several names leave each member once. -/
theorem searchAll (h : Searching members fresh left []) (hnames : ∀ n ∈ names, n ∈ members)
    (hall : ∀ n ∈ members, n ∈ names ∨ n ∉ fresh) :
    (searchAll members needs fresh left names).Nodup ∧
      ∀ n, n ∈ Order.searchAll members needs fresh left names ↔ n ∈ members := by
  induction names generalizing fresh left with
  | nil =>
    refine ⟨h.nodup_left, fun n => ⟨h.left_sub n, fun hn => ?_⟩⟩
    by_contra hleft
    exact nomatch h.waiting n hn ((hall n hn).resolve_left List.not_mem_nil) hleft
  | cons name names ih =>
    obtain ⟨hname, hnames⟩ := List.forall_mem_cons.1 hnames
    unfold Order.searchAll
    split_ifs with hfresh
    · have hstart : Searching members fresh left [name] := h.start hname
      obtain ⟨h', hsub, hmet⟩ := hstart.search
      refine ih h' hnames fun n hn => ?_
      by_cases hne : n = name
      · exact .inr (hne ▸ hmet name (List.mem_singleton_self name))
      · refine (hall n hn).imp (fun hn => (List.mem_cons.1 hn).resolve_left hne) fun hf hn => ?_
        exact hf (hsub n hn)
    · refine ih h hnames fun n hn => ?_
      rcases hall n hn with hn | hn
      · rcases List.mem_cons.1 hn with rfl | hn
        · exact .inr hfresh
        · exact .inl hn
      · exact .inr hn

end Searching

/-! ### Without cycles -/

/-- What holds besides if there are no cycles: each name that has been left stands in front of its
dependents, and a name that has been met but not left waits below its dependents that have not been
left, with nothing but direct and indirect dependents above it. -/
structure Sorting (members : List String) (needs : String → List String)
    (fresh left stack : List String) : Prop where
  settled : Settled members needs left
  below : ∀ n ∈ members, n ∉ fresh → n ∉ left → ∃ above below, stack = above ++ n :: below ∧
    (∀ m, Precedes members needs n m → m ∈ left ∨ m ∈ above) ∧
    ∀ m ∈ above, TransGen (Precedes members needs) n m

namespace Sorting

/-- The head of the stack is above every other name that waits. -/
private theorem above_eq_cons {n : String} {above below : List String} (hne : n ≠ name)
    (h : name :: stack = above ++ n :: below) :
    ∃ rest, above = name :: rest ∧ stack = rest ++ n :: below := by
  cases above with
  | nil => exact absurd (List.cons.inj h).1.symm hne
  | cons x rest =>
    obtain ⟨rfl, hrest⟩ := List.cons.inj h
    exact ⟨rest, rfl, hrest⟩

/-- A name that is met for the first time waits below its fresh dependents. -/
theorem meet (hacyc : ∀ n, ¬TransGen (Precedes members needs) n n)
    (h : Sorting members needs fresh left (name :: stack)) :
    Sorting members needs (fresh.erase name) left
      ((dependents members needs name).filter (· ∈ fresh.erase name) ++ name :: stack) := by
  have hdep {m : String}
      (hm : m ∈ (dependents members needs name).filter (· ∈ fresh.erase name)) :
      Precedes members needs name m :=
    mem_dependents.1 (List.mem_filter.1 hm).1
  refine ⟨h.settled, fun n hn hfresh hleft => ?_⟩
  by_cases hne : n = name
  · subst hne
    refine ⟨_, stack, rfl, fun m hm => ?_, fun m hm => .single (hdep hm)⟩
    by_contra hopen
    obtain ⟨hmleft, hmabove⟩ := not_or.1 hopen
    have hmfresh : m ∉ fresh.erase n := fun hf =>
      hmabove (List.mem_filter.2 ⟨mem_dependents.2 hm, by simpa using hf⟩)
    have hmn : m ≠ n := fun he => hacyc n (.single (he ▸ hm))
    -- a dependent that waits already would be below the name on the stack
    obtain ⟨above, below, hstack, -, hreach⟩ := h.below m hm.1
      (fun hf => hmfresh ((List.mem_erase_of_ne hmn).2 hf)) hmleft
    obtain ⟨rest, rfl, -⟩ := above_eq_cons hmn hstack
    exact hacyc n (.head hm (hreach n List.mem_cons_self))
  · obtain ⟨above, below, hstack, hall, hreach⟩ := h.below n hn
      (fun hf => hfresh ((List.mem_erase_of_ne hne).2 hf)) hleft
    obtain ⟨rest, habove, hrest⟩ := above_eq_cons hne hstack
    refine ⟨(dependents members needs name).filter (· ∈ fresh.erase name) ++ above, below,
      by rw [hstack, List.append_assoc], fun m hm => ?_, fun m hm => ?_⟩
    · exact (hall m hm).imp_right (List.mem_append_right _)
    · rcases List.mem_append.1 hm with hm | hm
      · exact .tail (hreach name (habove ▸ List.mem_cons_self)) (hdep hm)
      · exact hreach m hm

/-- A name that is met again has nothing above it on the stack, so its dependents have been left. -/
theorem leave (hacyc : ∀ n, ¬TransGen (Precedes members needs) n n)
    (h : Sorting members needs fresh left (name :: stack)) (hmember : name ∈ members)
    (hname : name ∉ fresh) :
    Sorting members needs fresh (if name ∈ left then left else name :: left) stack := by
  -- the others keep waiting, with the name no longer above them
  have hbelow (left' : List String) (hin : name ∈ left') (hsub : ∀ m ∈ left, m ∈ left') :
      ∀ n ∈ members, n ∉ fresh → n ∉ left' → ∃ above below, stack = above ++ n :: below ∧
        (∀ m, Precedes members needs n m → m ∈ left' ∨ m ∈ above) ∧
        ∀ m ∈ above, TransGen (Precedes members needs) n m := by
    intro n hn hfresh hleft
    have hne : n ≠ name := fun he => hleft (he ▸ hin)
    obtain ⟨above, below, hs, hall, hreach⟩ := h.below n hn hfresh fun hl => hleft (hsub n hl)
    obtain ⟨rest, rfl, hrest⟩ := above_eq_cons hne hs
    refine ⟨rest, below, hrest, fun m hm => ?_,
      fun m hm => hreach m (List.mem_cons_of_mem _ hm)⟩
    rcases hall m hm with hm | hm
    · exact .inl (hsub m hm)
    · rcases List.mem_cons.1 hm with rfl | hm
      · exact .inl hin
      · exact .inr hm
  split_ifs with hleft
  · exact ⟨h.settled, hbelow left hleft fun _ hm => hm⟩
  · refine ⟨⟨fun m hm => ?_, h.settled⟩,
      hbelow _ List.mem_cons_self fun m hm => List.mem_cons_of_mem _ hm⟩
    obtain ⟨above, below, hs, hall, hreach⟩ := h.below name hmember hname hleft
    cases above with
    | nil => exact (hall m hm).resolve_right List.not_mem_nil
    | cons x above =>
      obtain ⟨rfl, -⟩ := List.cons.inj hs
      exact absurd (hreach _ List.mem_cons_self) (hacyc _)

/-- A search keeps what is left sorted. -/
theorem search (hacyc : ∀ n, ¬TransGen (Precedes members needs) n n)
    (hs : Searching members fresh left stack) (h : Sorting members needs fresh left stack) :
    Sorting members needs (search members needs fresh left stack).1
      (Order.search members needs fresh left stack).2 [] := by
  fun_induction Order.search members needs fresh left stack with
  | case1 => exact h
  | case2 fresh left name stack hname ih => exact ih hs.meet (h.meet hacyc)
  | case3 fresh left name stack hname ih =>
    exact ih (hs.leave hname) (h.leave hacyc (hs.stack_sub name List.mem_cons_self) hname)

/-- Searches from several names leave each member in front of its dependents. -/
theorem searchAll (hacyc : ∀ n, ¬TransGen (Precedes members needs) n n)
    (hs : Searching members fresh left []) (h : Sorting members needs fresh left [])
    (hnames : ∀ n ∈ names, n ∈ members) :
    Settled members needs (searchAll members needs fresh left names) := by
  induction names generalizing fresh left with
  | nil => exact h.settled
  | cons name names ih =>
    obtain ⟨hname, hnames⟩ := List.forall_mem_cons.1 hnames
    unfold Order.searchAll
    split_ifs with hfresh
    · have hstart : Sorting members needs fresh left [name] :=
        ⟨h.settled, fun n hn hf hl => nomatch hs.waiting n hn hf hl⟩
      exact ih (hs.start hname).search.1 (hstart.search hacyc (hs.start hname)) hnames
    · exact ih hs h hnames

end Sorting

/-! ### The candidate -/

private theorem searching_members (hnodup : members.Nodup) : Searching members members [] [] where
  nodup_fresh := hnodup
  nodup_left := List.nodup_nil
  fresh_of_mem _ hn := nomatch hn
  left_sub _ hn := nomatch hn
  stack_sub _ hn := nomatch hn
  waiting _ hn hf := absurd hn hf

/-- The candidate lists the members. -/
theorem mem_candidate (hnodup : members.Nodup) :
    name ∈ candidate members needs ↔ name ∈ members :=
  ((searching_members hnodup).searchAll (fun _ hn => hn) fun _ hn => .inl hn).2 name

theorem nodup_candidate (hnodup : members.Nodup) : (candidate members needs).Nodup :=
  ((searching_members hnodup).searchAll (fun _ hn => hn) fun _ hn => .inl hn).1

/-- Without cycles, the candidate lists each member in front of its dependents. -/
theorem settled_candidate (hacyc : ∀ n, ¬TransGen (Precedes members needs) n n)
    (hnodup : members.Nodup) : Settled members needs (candidate members needs) :=
  Sorting.searchAll hacyc (searching_members hnodup) ⟨trivial, fun _ hn hf => absurd hn hf⟩
    fun _ hn => hn

theorem misplaced?_of_settled {before : List String}
    (hmembers : ∀ n ∈ names, n ∈ members) (hneeds : ∀ m ∈ members, ∀ n ∈ needs m, n ∈ members)
    (hall : ∀ n ∈ members, n ∈ before ∨ n ∈ names) (hnodup : names.Nodup)
    (h : Settled members needs names) : misplaced? needs before names = none := by
  induction names generalizing before with
  | nil => rfl
  | cons name names ih =>
    obtain ⟨hnot, hnodup⟩ := List.nodup_cons.1 hnodup
    obtain ⟨hname, hmembers⟩ := List.forall_mem_cons.1 hmembers
    have hfind : (needs name).find? (fun n => n ∉ name :: before) = none := by
      refine List.find?_eq_none.2 fun n hn hbehind => of_decide_eq_true hbehind ?_
      rcases hall n (hneeds name hname n hn) with hb | hb
      · exact List.mem_cons_of_mem _ hb
      · rcases List.mem_cons.1 hb with rfl | hb
        · exact List.mem_cons_self
        · -- a prerequisite behind the name would have the name behind itself
          exact absurd (h.2.mem hb ⟨hname, hn⟩) hnot
    unfold misplaced?
    rw [hfind]
    refine ih hmembers (fun n hn => ?_) hnodup h.2
    rcases hall n hn with hb | hb
    · exact .inl (List.mem_cons_of_mem _ hb)
    · rcases List.mem_cons.1 hb with rfl | hb
      · exact .inl List.mem_cons_self
      · exact .inr hb

/-- Without cycles, no member of the candidate stands in front of a prerequisite. -/
theorem misplaced?_candidate (hacyc : ∀ n, ¬TransGen (Precedes members needs) n n)
    (hnodup : members.Nodup) (hneeds : ∀ m ∈ members, ∀ n ∈ needs m, n ∈ members) :
    misplaced? needs [] (candidate members needs) = none :=
  misplaced?_of_settled (fun _ hn => (mem_candidate hnodup).1 hn) hneeds
    (fun _ hn => .inr ((mem_candidate hnodup).2 hn)) (nodup_candidate hnodup)
    (settled_candidate hacyc hnodup)

/-! ### Prerequisites first -/

/-- Each listed name has its prerequisites among the names that are done when its turn comes. -/
def Ready (needs : String → List String) : List String → List String → Prop
  | _, [] => True
  | done, name :: names => (∀ n ∈ needs name, n ∈ done) ∧ Ready needs (name :: done) names

/-- The prerequisites of a listed name are in front of it, or they were done before. -/
theorem Ready.mem_of_append {done front rest : List String}
    (h : Ready needs done (front ++ name :: rest)) :
    ∀ n ∈ needs name, n ∈ front ∨ n ∈ done := by
  induction front generalizing done with
  | nil => exact fun n hn => .inr (h.1 n hn)
  | cons x front ih =>
    intro n hn
    rcases ih h.2 n hn with hn | hn
    · exact .inl (List.mem_cons_of_mem _ hn)
    · rcases List.mem_cons.1 hn with rfl | hn
      · exact .inl List.mem_cons_self
      · exact .inr hn

/-- Where no name is misplaced and none is its own prerequisite, prerequisites come first. -/
theorem ready_of_misplaced? {done : List String} (hself : ∀ n ∈ names, n ∉ needs n)
    (h : misplaced? needs done names = none) : Ready needs done names := by
  induction names generalizing done with
  | nil => trivial
  | cons name names ih =>
    obtain ⟨hname, hself⟩ := List.forall_mem_cons.1 hself
    unfold misplaced? at h
    split at h
    · cases h
    · rename_i hfind
      refine ⟨fun n hn => ?_, ih hself h⟩
      have hmem : n ∈ name :: done :=
        of_not_not fun hnot => List.find?_eq_none.1 hfind n hn (decide_eq_true hnot)
      exact (List.mem_cons.1 hmem).resolve_left fun he => hname (he ▸ hn)

end Netlist.Order
