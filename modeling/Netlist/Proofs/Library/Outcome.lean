import Mathlib
import Netlist.Proofs.Library.BuildOrder
import Netlist.Proofs.Library.Search
import Netlist.Sample

/-!
# All outcomes of the order of assembly

For a composite that is described and not registered, the order of assembly fails because of a
module that is not known, else because of a cycle, or it lists what has to be assembled. Which of
these it is depends on the composites that are reached from the given one over modules that are not
registered.

## Main definitions

* `Netlist.Library.Instantiates`, `Netlist.Library.Requires`: what described composites instantiate,
  and which of it is not registered.
* `Netlist.Library.Member`: a composite that can be assembled is reached.
* `Netlist.Library.Absent`: a module is reached and neither registered nor described.
* `Netlist.Library.IsOrder`: a list of all that is reached, prerequisites first.
* `Netlist.Library.Outcome`: what the order of assembly can be.

## Main results

* `Netlist.Library.mem_closure_iff`: the closure consists of the described composites that are
  reached.
* `Netlist.Library.outcome_buildOrder`: each order of assembly is such an outcome.
* `Netlist.Library.buildOrder_exact`: when the order fails and with what, and what it lists.
-/

namespace Netlist.Library

open Relation (TransGen ReflTransGen)

variable {c : Catalog} {l : Library} {name m n : String}
  {found pending members ms order : List String}

/-! ### What is reached -/

/-- A described composite instantiates a module. -/
def Instantiates (l : Library) (outer inner : String) : Prop :=
  ∃ d, l.description? outer = some d ∧ inner ∈ d.dependencies

/-- A described composite instantiates a module that is not registered. -/
def Requires (c : Catalog) (l : Library) (outer inner : String) : Prop :=
  l.Instantiates outer inner ∧ ¬c.contains inner = true

/-- A composite that is described and not registered is reached from a given one over modules that
are not registered. -/
structure Member (c : Catalog) (l : Library) (name m : String) : Prop where
  pending : l.Pending c m
  reached : ReflTransGen (l.Requires c) name m

/-- A composite that is reached instantiates a module that is neither registered nor described. -/
def Absent (c : Catalog) (l : Library) (name m : String) : Prop :=
  ¬l.contains m = true ∧ ∃ outer, l.Member c name outer ∧ l.Requires c outer m

theorem Member.tail (h : l.Member c name m) (hpresent : ∀ x, ¬l.Absent c name x)
    (hn : l.Requires c m n) : l.Member c name n where
  pending := ⟨of_not_not fun hdescribed => hpresent n ⟨hdescribed, m, h, hn⟩, hn.2⟩
  reached := h.reached.tail hn

theorem requires_of_mem_needs (h : n ∈ l.needs c m) : l.Requires c m n := by
  unfold needs prerequisites at h
  split at h
  · rename_i ms hms
    split at hms
    · cases hms
      cases h
    · rename_i d hd
      obtain ⟨-, rfl⟩ := missing_eq_ok_iff.1 hms
      obtain ⟨hmem, hc⟩ := List.mem_filter.1 h
      exact ⟨⟨d, hd, hmem⟩, by simpa using hc⟩
  · cases h

theorem Buildable.mem_needs_iff (h : l.Buildable c m) : n ∈ l.needs c m ↔ l.Requires c m n := by
  refine ⟨requires_of_mem_needs, fun ⟨⟨d, hd, hn⟩, hc⟩ => ?_⟩
  rw [needs_eq hd (h.found d hd)]
  exact List.mem_filter.2 ⟨hn, by simpa using hc⟩

/-! ### The closure -/

/-- If something is missing, the first such module is reported. -/
theorem missing_eq_error {e : Error} (h : l.missing c ms = .error e) :
    ∃ m ∈ ms, ¬c.contains m = true ∧ ¬l.contains m = true ∧ e = .moduleNotFound m := by
  induction ms with
  | nil => cases h
  | cons m ms ih =>
    unfold missing at h
    split_ifs at h with hc hl
    · obtain ⟨x, hx, hx'⟩ := ih h
      exact ⟨x, List.mem_cons_of_mem _ hx, hx'⟩
    · obtain ⟨x, hx, hx'⟩ := ih (map_eq_error_iff.1 h)
      exact ⟨x, List.mem_cons_of_mem _ hx, hx'⟩
    · cases h
      exact ⟨m, List.mem_cons_self, hc, hl, rfl⟩

/-- The closure fails because of a module that is reached and neither registered nor described. -/
theorem absent_of_closure {e : Error} (h : l.closure c found pending = .error e)
    (hpending : ∀ m ∈ pending, l.Member c name m) :
    ∃ m, l.Absent c name m ∧ e = .moduleNotFound m := by
  fun_induction closure c l found pending with
  | case1 => cases h
  | case2 _ _ _ _ ih => exact ih h (List.forall_mem_cons.1 hpending).2
  | case3 _ _ _ _ _ ih => exact ih h (List.forall_mem_cons.1 hpending).2
  | case4 _ m ms _ d hd e' hmissing =>
    cases h
    obtain ⟨x, hx, hc, hl, he⟩ := missing_eq_error hmissing
    exact ⟨x, ⟨hl, m, hpending m List.mem_cons_self, ⟨d, hd, hx⟩, hc⟩, he⟩
  | case5 _ m ms _ d hd needs hneeds ih =>
    obtain ⟨hm, hms⟩ := List.forall_mem_cons.1 hpending
    refine ih h (List.forall_mem_append.2 ⟨fun n hn => ?_, hms⟩)
    have hn := (List.mem_filter.1 (List.mem_reverse.1 hn)).1
    have hpending := mem_of_missing hneeds hn
    obtain ⟨-, rfl⟩ := missing_eq_ok_iff.1 hneeds
    exact ⟨hpending, hm.reached.tail ⟨⟨d, hd, (List.mem_filter.1 hn).1⟩, hpending.2⟩⟩

/-- All that is found is reached. -/
theorem reached_of_closure (h : l.closure c found pending = .ok members)
    (hfound : ∀ m ∈ found, ReflTransGen (l.Requires c) name m)
    (hpending : ∀ m ∈ pending, ReflTransGen (l.Requires c) name m) :
    ∀ m ∈ members, ReflTransGen (l.Requires c) name m := by
  have hnext {found : List String} {m : String}
      (hfound : ∀ x ∈ found, ReflTransGen (l.Requires c) name x)
      (hm : ReflTransGen (l.Requires c) name m) :
      ∀ x ∈ found ++ [m], ReflTransGen (l.Requires c) name x :=
    List.forall_mem_append.2 ⟨hfound, List.forall_mem_singleton.2 hm⟩
  fun_induction closure c l found pending with
  | case1 =>
    cases h
    exact hfound
  | case2 _ _ _ _ ih => exact ih h hfound (List.forall_mem_cons.1 hpending).2
  | case3 _ m ms _ _ ih =>
    obtain ⟨hm, hms⟩ := List.forall_mem_cons.1 hpending
    exact ih h (hnext hfound hm) hms
  | case4 => cases h
  | case5 _ m ms _ d hd needs hneeds ih =>
    obtain ⟨hm, hms⟩ := List.forall_mem_cons.1 hpending
    refine ih h (hnext hfound hm) (List.forall_mem_append.2 ⟨fun n hn => ?_, hms⟩)
    obtain ⟨-, rfl⟩ := missing_eq_ok_iff.1 hneeds
    obtain ⟨hn, hc⟩ := List.mem_filter.1 (List.mem_filter.1 (List.mem_reverse.1 hn)).1
    exact hm.tail ⟨⟨d, hd, hn⟩, by simpa using hc⟩

section Closure

variable (hname : l.Pending c name) (h : l.closure c [] [name] = .ok members)

include hname h

private theorem buildable_of_mem_closure : ∀ m ∈ members, l.Buildable c m :=
  buildable_of_closure h (fun _ hm => nomatch hm) (List.forall_mem_singleton.2 hname)

/-- The closure consists of the described composites that are reached. -/
theorem mem_closure_iff : m ∈ members ↔ l.Member c name m := by
  have hbuildable := buildable_of_mem_closure hname h
  constructor
  · intro hm
    exact ⟨(hbuildable m hm).pending, reached_of_closure h (fun _ hm => nomatch hm)
      (List.forall_mem_singleton.2 .refl) m hm⟩
  · rintro ⟨-, hreached⟩
    induction hreached with
    | refl => exact mem_of_closure h (.inr (List.mem_singleton_self name))
    | tail _ hn ih =>
      exact closed_of_closure h (fun _ hm => nomatch hm) _ ih _
        ((hbuildable _ ih).mem_needs_iff.2 hn)

/-- Nothing is missing if the closure is found. -/
theorem not_absent_of_closure (m : String) : ¬l.Absent c name m := by
  rintro ⟨hm, outer, houter, ⟨d, hd, hmem⟩, hc⟩
  have hbuildable := buildable_of_mem_closure hname h outer ((mem_closure_iff hname h).2 houter)
  exact hm ((hbuildable.found d hd m hmem).resolve_left hc)

end Closure

/-! ### Orders -/

/-- A list of all described composites that are reached: each of them once, after all that it
instantiates and that is not registered, and the given one last. -/
structure IsOrder (c : Catalog) (l : Library) (name : String) (order : List String) : Prop where
  nodup : order.Nodup
  mem_iff : ∀ m, m ∈ order ↔ l.Member c name m
  after : ∀ front m rest, order = front ++ m :: rest → ∀ n, l.Requires c m n → n ∈ front
  last : order.getLast? = some name

namespace IsOrder

/-- Composites that can be put in order do not need themselves. -/
theorem acyclic (h : l.IsOrder c name order) (hm : l.Member c name m) :
    ¬TransGen (l.Requires c) m m := by
  -- all that a composite requires stands in front of it
  have hbefore {front rest : List String} {m n : String} (horder : order = front ++ m :: rest)
      (hmn : TransGen (l.Requires c) m n) : n ∈ front := by
    induction hmn with
    | single hn => exact h.after front m rest horder _ hn
    | tail _ hn ih =>
      obtain ⟨before, behind, rfl⟩ := List.append_of_mem ih
      rw [List.append_assoc, List.cons_append] at horder
      exact List.mem_append_left _ (h.after before _ _ horder _ hn)
  intro hloop
  obtain ⟨front, rest, horder⟩ := List.append_of_mem ((h.mem_iff m).2 hm)
  have hnodup := horder ▸ h.nodup
  exact (List.nodup_append'.1 hnodup).2.2 (hbefore horder hloop) List.mem_cons_self

end IsOrder

/-- A list of all that is reached, prerequisites first, ends with the composite that all others are
reached from. -/
theorem isOrder_of_ready (hnodup : order.Nodup) (hmem : ∀ m, m ∈ order ↔ l.Member c name m)
    (hafter : ∀ front m rest, order = front ++ m :: rest → ∀ n, l.Requires c m n → n ∈ front)
    (hname : l.Pending c name) : l.IsOrder c name order := by
  refine ⟨hnodup, hmem, hafter, ?_⟩
  obtain ⟨front, rest, horder⟩ := List.append_of_mem ((hmem name).2 ⟨hname, .refl⟩)
  -- what is reached stands no later than the given composite
  have hfront {m : String} (hm : ReflTransGen (l.Requires c) name m) : m ∈ front ++ [name] := by
    induction hm with
    | refl => exact List.mem_append_right _ (List.mem_singleton_self name)
    | @tail outer _ _ hn ih =>
      obtain ⟨before, behind, hsplit⟩ := List.append_of_mem ih
      have hall : order = before ++ outer :: (behind ++ rest) := by
        rw [horder, List.append_cons, hsplit, List.append_assoc, List.cons_append]
      rw [hsplit]
      exact List.mem_append_left _ (hafter before _ _ hall _ hn)
  cases rest with
  | nil => rw [horder, List.getLast?_concat]
  | cons x rest =>
    have hx : x ∈ order := horder ▸ by simp
    rw [horder, List.append_cons] at hnodup
    exact absurd List.mem_cons_self
      (List.disjoint_of_nodup_append hnodup (hfront ((hmem x).1 hx).reached))

/-! ### All outcomes -/

/-- What the order of assembly can be: a module is reached and not known; or all is known, and there
is a cycle of composites that are reached; or there is none, and the composites are listed. -/
inductive Outcome (c : Catalog) (l : Library) (name : String) : Except Error (List String) → Prop
  | absent {m : String} (h : l.Absent c name m) : Outcome c l name (.error (.moduleNotFound m))
  | cyclic {path : List String} (hpresent : ∀ m, ¬l.Absent c name m)
      (hcycle : IsCycle (l.Requires c) path) (hmembers : ∀ m ∈ path, l.Member c name m) :
      Outcome c l name (.error (.cyclicContainment path))
  | ordered {order : List String} (hpresent : ∀ m, ¬l.Absent c name m)
      (horder : l.IsOrder c name order) : Outcome c l name (.ok order)

/-- A cycle of needs begins at a member and so stays among the members. -/
private theorem outcome_of_isCycle (hname : l.Pending c name)
    (h : l.closure c [] [name] = .ok members) {way : List String}
    (hway : IsCycle (fun m n => n ∈ l.needs c m) way) (hhead : way.head? = some m)
    (hm : m ∈ members) : l.Outcome c name (.error (.cyclicContainment way)) := by
  have hclosed := closed_of_closure h fun _ hm => nomatch hm
  refine .cyclic (not_absent_of_closure hname h)
    ⟨hway.two_le, hway.closed, hway.chain.imp fun _ _ => requires_of_mem_needs⟩ ?_
  refine fun n hn => (mem_closure_iff hname h).1 ?_
  refine hway.chain.induction (· ∈ members) _ (fun x y hxy hx => hclosed x hx y hxy) ?_ n hn
  intro hne
  rw [List.head?_eq_some_head hne, Option.some.injEq] at hhead
  exact hhead ▸ hm

/-- Each order of assembly is such an outcome. -/
theorem outcome_buildOrder (hname : l.Pending c name) :
    l.Outcome c name (l.buildOrder c name) := by
  unfold buildOrder
  rw [if_neg hname.2, hname.1]
  change l.Outcome c name (l.closure c [] [name] >>= _)
  cases hclosure : l.closure c [] [name] with
  | error e =>
    obtain ⟨m, hm, rfl⟩ := absent_of_closure hclosure
      (List.forall_mem_singleton.2 ⟨hname, .refl⟩)
    exact .absent hm
  | ok members =>
    have hnodup : members.Nodup := nodup_of_closure hclosure List.nodup_nil
    have hclosed := closed_of_closure hclosure fun _ hm => nomatch hm
    have hbuildable := buildable_of_mem_closure hname hclosure
    rw [ok_bind]
    dsimp only
    split
    · rename_i m hself
      have hm : m ∈ members := List.mem_of_find?_eq_some hself
      have hneeds : m ∈ l.needs c m := by simpa using List.find?_some hself
      exact outcome_of_isCycle hname hclosure ⟨by simp, rfl, List.isChain_pair.2 hneeds⟩ rfl hm
    · rename_i hself
      split
      · rename_i hmisplaced
        have hready := Order.ready_of_misplaced?
          (fun m hm hn => List.find?_eq_none.1 hself m ((Order.mem_candidate hnodup).1 hm)
            (decide_eq_true hn)) hmisplaced
        refine .ordered (not_absent_of_closure hname hclosure)
          (isOrder_of_ready (Order.nodup_candidate hnodup)
            (fun m => (Order.mem_candidate hnodup).trans (mem_closure_iff hname hclosure)) ?_ hname)
        intro front m rest horder n hn
        have hm : m ∈ Order.candidate members (l.needs c) := by
          rw [horder]
          exact List.mem_append_right _ List.mem_cons_self
        rw [Order.mem_candidate hnodup] at hm
        exact (Order.Ready.mem_of_append (horder ▸ hready) n
          ((hbuildable m hm).mem_needs_iff.2 hn)).resolve_right List.not_mem_nil
      · rename_i m hmisplaced
        -- some member is on a cycle, so the search does not end in vain
        obtain ⟨x, hx, hloop⟩ := Order.exists_loop_of_misplaced? hnodup hclosed
          (by rw [hmisplaced]; exact nofun)
        obtain ⟨way, hway⟩ := Order.exists_firstCycle? hclosed hx hloop
          (List.mem_cons_of_mem m hx)
        obtain ⟨hcycle, y, hy, hhead⟩ := Order.isCycle_of_firstCycle? hway
        rw [hway]
        refine outcome_of_isCycle hname hclosure hcycle hhead ?_
        rcases List.mem_cons.1 hy with rfl | hy
        · obtain ⟨z, hz, hyz⟩ := Order.exists_mem_of_misplaced? hmisplaced
          exact hclosed z ((Order.mem_candidate hnodup).1 hz) y hyz
        · exact hy

/-- The order of assembly of a composite that is described and not registered fails because of a
module that is not known if there is one. Otherwise it fails with a cycle if the described
composites that are reached have one, and else it lists all of them, each after those that it needs,
with the given one last. -/
theorem buildOrder_exact (hname : l.Pending c name) :
    ((∀ m, l.buildOrder c name = .error (.moduleNotFound m) → l.Absent c name m) ∧
      ((∃ m, l.Absent c name m) → ∃ m, l.buildOrder c name = .error (.moduleNotFound m))) ∧
    ((∀ m, ¬l.Absent c name m) →
      ((∃ path, l.buildOrder c name = .error (.cyclicContainment path)) ↔
        ∃ m, l.Member c name m ∧ TransGen (l.Requires c) m m)) ∧
    (∀ path, l.buildOrder c name = .error (.cyclicContainment path) →
      IsCycle (l.Requires c) path ∧ ∀ m ∈ path, l.Member c name m) ∧
    ((∀ m, ¬l.Absent c name m) → (∀ m, l.Member c name m → ¬TransGen (l.Requires c) m m) →
      ∃ order, l.buildOrder c name = .ok order) ∧
    ∀ order, l.buildOrder c name = .ok order → l.IsOrder c name order := by
  have hloop {path : List String} (hcycle : IsCycle (l.Requires c) path)
      (hmembers : ∀ m ∈ path, l.Member c name m) :
      ∃ m, l.Member c name m ∧ TransGen (l.Requires c) m m := by
    obtain ⟨m, hm⟩ := hcycle.exists_head
    exact ⟨m, hmembers m (List.mem_of_mem_head? hm), hcycle.transGen hm⟩
  have houtcome := outcome_buildOrder hname
  generalize l.buildOrder c name = result at houtcome
  cases houtcome with
  | absent h =>
    refine ⟨⟨fun m he => ?_, fun _ => ⟨_, rfl⟩⟩, fun hnone => absurd h (hnone _),
      fun _ he => (nomatch he), fun hnone => absurd h (hnone _), fun _ he => (nomatch he)⟩
    cases he
    exact h
  | cyclic hpresent hcycle hmembers =>
    refine ⟨⟨fun _ he => (nomatch he), fun ⟨m, hm⟩ => absurd hm (hpresent m)⟩,
      fun _ => ⟨fun _ => hloop hcycle hmembers, fun _ => ⟨_, rfl⟩⟩, fun path he => ?_,
      fun _ hacyc => ?_, fun _ he => (nomatch he)⟩
    · cases he
      exact ⟨hcycle, hmembers⟩
    · obtain ⟨m, hm, hmm⟩ := hloop hcycle hmembers
      exact absurd hmm (hacyc m hm)
  | ordered hpresent horder =>
    refine ⟨⟨fun _ he => (nomatch he), fun ⟨m, hm⟩ => absurd hm (hpresent m)⟩,
      fun _ => ⟨fun ⟨_, he⟩ => (nomatch he), fun ⟨m, hm, hmm⟩ => ?_⟩, fun _ he => (nomatch he),
      fun _ _ => ⟨_, rfl⟩, fun order he => ?_⟩
    · exact absurd hmm (horder.acyclic hm)
    · cases he
      exact horder

end Netlist.Library

namespace Netlist

namespace Sample

/-- The description of a composite without ports, with one cell of each of several modules. -/
def describeCells (name : String) (modules : List String) : Description where
  name := name
  remark := ""
  inputs := .empty
  outputs := .empty
  cells := modules.map fun m => ⟨"x" ++ m, m⟩
  connections := []
  inputSinks := .empty
  outputSources := .empty
  feedThrough := .empty

/-- Composites that can be put in order, two that need each other, and one that needs a module that
is not there. -/
def tangle : Library where
  boundary := .standard
  entries := .ofList <| [describeCells "top" ["leaf", "left", "right"],
    describeCells "left" ["right"], describeCells "right" ["leaf"], describeCells "hen" ["egg"],
    describeCells "egg" ["left", "hen"], describeCells "stray" ["top", "lost"]].map
      fun d => (d.name, ⟨d, none⟩)

end Sample

namespace Library

theorem buildOrder_exact_tangle :
    Sample.tangle.IsOrder Sample.leaves "top" ["right", "left", "top"] ∧
    IsCycle (Sample.tangle.Requires Sample.leaves) ["egg", "hen", "egg"] ∧
    Sample.tangle.Absent Sample.leaves "stray" "lost" := by
  have htop : Sample.tangle.Pending Sample.leaves "top" := ⟨by decide, by decide⟩
  have hhen : Sample.tangle.Pending Sample.leaves "hen" := ⟨by decide, by decide⟩
  have hstray : Sample.tangle.Pending Sample.leaves "stray" := ⟨by decide, by decide⟩
  obtain ⟨-, -, -, -, hordered⟩ := buildOrder_exact htop
  obtain ⟨-, -, hcyclic, -⟩ := buildOrder_exact hhen
  obtain ⟨⟨habsent, -⟩, -⟩ := buildOrder_exact hstray
  exact ⟨hordered _ (by decide_cbv), (hcyclic _ (by decide_cbv)).1, habsent _ (by decide_cbv)⟩

end Library

end Netlist
