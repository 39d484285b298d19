import Netlist.Proofs.Catalog.Locality
import Netlist.Proofs.Flatten.Expansion

/-!
# What flattening looks at

A composite is flattened by what a catalog knows of the modules inside it, direct or indirect. So
two catalogs that agree on some modules, among them with each composite the modules of its
instances, flatten these composites alike, or fail alike.

## Main results

* `Netlist.Flatten.compositeCells_congr`, `Netlist.Graph.inline_congr`: single steps.
* `Netlist.Flatten.Expands.boundTo`: flat insides are bound to the modules that are agreed on.
* `Netlist.Catalog.flattenModule_congr`: flattening a composite.
-/

namespace Netlist

variable {p : String → Prop} {c d : Catalog} {b : Boundary} {g g' sub : Graph} {name : String}

/-! ### Inlining -/

namespace Graph

theorem BoundTo.without (hg : g.BoundTo p) (name : String) : (g.without name).BoundTo p :=
  fun i hi => hg i (List.mem_of_mem_filter hi)

theorem BoundTo.inline (hg : g.BoundTo p) (hsub : sub.BoundTo p)
    (h : g.inline c b name sub = .ok g') : g'.BoundTo p := by
  intro i hi
  rw [instances_inline h] at hi
  rcases List.mem_append.1 hi with hi | hi
  · exact hg.without name i hi
  · obtain ⟨j, hj, -, rfl⟩ := Inline.mem_innerCells.1 hi
    exact hsub j hj

theorem connectAll_congr (h : c.AgreeOn p d) (hg : g.BoundTo p) (ls : List Bundle) :
    Inline.connectAll c g ls = Inline.connectAll d g ls :=
  foldlM_congr_of_keeps (fun _ _ _ _ hg hy => hg.connect hy)
    (fun _ _ _ hg => connect_congr h hg _ _ _) hg

/-- A composite is inlined by what is known of the modules around it and in it. -/
theorem inline_congr (h : c.AgreeOn p d) (hg : g.BoundTo p) (hsub : sub.BoundTo p) (b : Boundary)
    (name : String) : g.inline c b name sub = g.inline d b name sub := by
  have hcells : ∀ i ∈ Inline.cells sub, p i.module := fun i hi => hsub i (List.mem_of_mem_filter hi)
  have hkeep : ∀ i ∈ Inline.cells sub, ∀ g g' : Graph, g.BoundTo p →
      g.instantiate c (b.join name i.name) i.module = .ok g' → g'.BoundTo p :=
    fun i hi _ _ hg hy => hg.instantiate (hcells i hi) hy
  refine bind_congr_of_ok fun _ _ => bind_congr_of_ok fun ⟨_, g₁⟩ h₁ => ?_
  have hg₁ : g₁.BoundTo p := by
    unfold remove at h₁
    split at h₁
    · cases h₁
      exact hg.without name
    · cases h₁
  dsimp only
  rw [← foldlM_congr_of_keeps hkeep (fun i hi _ _ => instantiate_congr h (hcells i hi) _) hg₁]
  refine bind_congr_of_ok fun g₂ h₂ => ?_
  have hg₂ : g₂.BoundTo p := foldlM_keeps hkeep hg₁ h₂
  rw [← connectAll_congr h hg₂]
  refine bind_congr_of_ok fun g₃ h₃ => connectAll_congr h ?_ _
  exact foldlM_keeps (fun _ _ _ _ hg hy => hg.connect hy) hg₂ h₃

end Graph

namespace Flatten

variable {q q' : Progress} {module : String} {cells : List (String × String)}

theorem bodyOf_congr (h : c.AgreeOn p d) (hm : p module) : bodyOf c module = bodyOf d module := by
  rw [bodyOf, bodyOf, h.module? module hm]

theorem compositeCells_congr (h : c.AgreeOn p d) {is : List Instance} (his : ∀ i ∈ is, p i.module) :
    compositeCells c is = compositeCells d is := by
  induction is with
  | nil => rfl
  | cons i is ih =>
    obtain ⟨hi, his⟩ := List.forall_mem_cons.1 his
    rw [compositeCells, compositeCells, h.module? _ hi, ih his]

/-! ### One step of flattening -/

theorem enter_eq_ok_iff : q.enter module = .ok q' ↔
    module ∉ q.underway ∧ q' = { q with underway := q.underway ++ [module] } := by
  rw [Progress.enter, ite_error_eq_ok_iff, Except.ok.injEq, eq_comm (a := q')]

theorem expand_eq (c : Catalog) (b : Boundary) (q : Progress) (module : String) :
    expand c b q module = match q.finished? module with
      | some g => .ok (g, q.finished)
      | none => do
        let g ← bodyOf c module
        let q ← q.enter module
        let cells ← compositeCells c g.instances
        let (work, finished) ← expandAll c b q g cells
        let flat := if cells = [] then g else dropStray g work
        return (flat, finished.insert module flat) := by
  rw [expand]
  cases q.finished? module with
  | some g => rfl
  | none =>
    dsimp only
    split <;> rename_i hbody <;> rw [hbody]
    · rfl
    · split <;> rename_i henter <;> rw [henter, ok_bind]
      · rfl
      · rw [ok_bind]
        split <;> rename_i hcells <;> rw [hcells]
        · rfl
        · rw [ok_bind]
          split <;> rename_i hwork <;> rw [hwork] <;> rfl

theorem expandAll_cons (c : Catalog) (b : Boundary) (q : Progress) (work : Graph)
    (name module : String) (cells : List (String × String)) :
    expandAll c b q work ((name, module) :: cells) = (do
      let (sub, finished) ← expand c b q module
      let work ← work.inline c b name sub
      expandAll c b { q with finished } work cells) := by
  rw [expandAll]
  split <;> rename_i hsub <;> rw [hsub]
  · rfl
  · rw [ok_bind]
    dsimp only
    split <;> rename_i hinline <;> rw [hinline] <;> rfl

/-! ### Flattening -/

theorem Inlined.boundTo {R : String → Graph → Prop} (h : Inlined c b R g cells g')
    (hg : g.BoundTo p) (hR : ∀ e ∈ cells, ∀ s, R e.2 s → s.BoundTo p) : g'.BoundTo p := by
  induction h with
  | nil => exact hg
  | cons hsub hinline _ ih =>
    obtain ⟨hhead, hR⟩ := List.forall_mem_cons.1 hR
    exact ih (hg.inline (hhead _ hsub) hinline) hR

/-- The flat inside of a composite is bound to any modules that, with each composite among them, the
instances inside are bound to. -/
theorem Expands.boundTo {f : Graph} (hclosed : ∀ m g, p m → c.body? m = some g → g.BoundTo p)
    (h : Expands c b module f) (hm : p module) : f.BoundTo p := by
  revert hm
  refine Expands.induct (P := fun m f => p m → f.BoundTo p)
    (fun {module g work cells} hbody hcells hwork hm => ?_) h
  have hg : g.BoundTo p := hclosed module g hm hbody
  have hwork : work.BoundTo p := hwork.boundTo hg fun e he s hs =>
    hs.2 (hg _ ((mem_compositeCells hcells).1 he).1)
  exact fun i hi => hwork i (mem_instances_dropStray.1 hi).1

variable (h : c.AgreeOn p d) (hclosed : ∀ m g, p m → c.body? m = some g → g.BoundTo p)
include h hclosed

mutual

/-- A composite is expanded by what is known of the modules in it. -/
theorem expand_congr {q : Progress} {module : String} (hq : Remembers c b q.finished)
    (hm : p module) : expand c b q module = expand d b q module := by
  rw [expand_eq, expand_eq]
  split
  · rfl
  · rw [← bodyOf_congr h hm]
    refine bind_congr_of_ok fun g hbody => bind_congr_of_ok fun q' henter => ?_
    have hg : g.BoundTo p := hclosed module g hm (bodyOf_eq_ok_iff.1 hbody)
    obtain ⟨hnew, rfl⟩ := enter_eq_ok_iff.1 henter
    rw [← compositeCells_congr h hg]
    refine bind_congr_of_ok fun cells hcells => ?_
    have hmodules : ∀ e ∈ cells, p e.2 := fun e he => hg _ ((mem_compositeCells hcells).1 he).1
    rw [expandAll_congr (q := { q with underway := q.underway ++ [module] }) hq hg hmodules]
termination_by (unvisited c.names q.underway, 0)
decreasing_by
  exact Prod.Lex.left _ _ (unvisited_append_lt (mem_names_of_bodyOf hbody) hnew)

theorem expandAll_congr {q : Progress} {work : Graph} {cells : List (String × String)}
    (hq : Remembers c b q.finished) (hwork : work.BoundTo p) (hcells : ∀ e ∈ cells, p e.2) :
    expandAll c b q work cells = expandAll d b q work cells := by
  match cells with
  | [] => rw [expandAll, expandAll]
  | (name, module) :: cells =>
    obtain ⟨hm, hcells⟩ := List.forall_mem_cons.1 hcells
    rw [expandAll_cons, expandAll_cons, ← expand_congr hq hm]
    refine bind_congr_of_ok fun ⟨sub, finished⟩ hsub => ?_
    obtain ⟨hexp, hfinished⟩ := expands_of_expand hsub hq
    have hbound : sub.BoundTo p := hexp.boundTo hclosed hm
    dsimp only
    rw [← Graph.inline_congr h hwork hbound]
    refine bind_congr_of_ok fun g₁ h₁ => ?_
    exact expandAll_congr hfinished (hwork.inline hbound h₁) hcells
termination_by (unvisited c.names q.underway, cells.length + 1)
decreasing_by
  · exact Prod.Lex.right _ (Nat.succ_pos _)
  · exact Prod.Lex.right _ (by simp)

end

end Flatten

/-- Two catalogs that agree on some modules flatten the composites among them alike, if the
instances in these are bound to such modules again. -/
theorem Catalog.flattenModule_congr (h : c.AgreeOn p d)
    (hclosed : ∀ m g, p m → c.body? m = some g → g.BoundTo p) (b : Boundary) {m : String}
    (hm : p m) : c.flattenModule b m = d.flattenModule b m := by
  rw [flattenModule, flattenModule,
    Flatten.expand_congr h hclosed (q := .start) Flatten.remembers_start hm]

end Netlist
