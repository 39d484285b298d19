import Mathlib.Logic.Relation
import Netlist.Flatten.Basic
import Netlist.Proofs.Catalog.Modules
import Netlist.Proofs.Flatten.Inline

/-!
# Flattening without a memory

Flattening keeps the composites that it has finished and watches over those that are under way.
Neither shows in what it gives: the flat inside of a composite is its inside with the flat insides
of the composites in it inlined.

## Main definitions

* `Netlist.Flatten.Inlined`: composite cells are inlined one after the other.
* `Netlist.Flatten.Expands`: the flat inside of a composite, without a memory.
* `Netlist.Flatten.Contains`: a composite has a cell of another composite inside.

## Main results

* `Netlist.Flatten.compositeCells_eq_ok_iff`: the composite cells of a list of instances.
* `Netlist.Flatten.flattenModule_eq_ok_iff`: flattening a composite gives its flat inside.
* `Netlist.Flatten.flattenGraph_eq_ok_iff`: flattening a graph inlines the flat insides of its
  composites.
-/

namespace Netlist

namespace Flatten

variable {c : Catalog} {b : Boundary} {p : Progress} {g g' work : Graph} {module : String}
  {cells : List (String × String)}

theorem bodyOf_eq_ok_iff : bodyOf c module = .ok g ↔ c.body? module = some g := by
  unfold bodyOf Catalog.body?
  cases c.module? module with
  | none => simp
  | some m => cases h : m.body <;> simp [h]

/-! ### Composite cells -/

/-- Whether an instance is a cell of a composite. -/
def isCompositeCell (c : Catalog) (i : Instance) : Bool :=
  i.isCell && (c.body? i.module).isSome

theorem isCompositeCell_iff {i : Instance} :
    isCompositeCell c i = true ↔ i.role = .cell ∧ ∃ g, c.body? i.module = some g := by
  simp only [isCompositeCell, Instance.isCell, Bool.and_eq_true, decide_eq_true_eq,
    Option.isSome_iff_exists]

/-- The composite cells of a list of instances are told in order, if all cells are bound to
registered modules. -/
theorem compositeCells_eq_ok_iff {is : List Instance} : compositeCells c is = .ok cells ↔
    (∀ i ∈ is, i.isCell = true → c.contains i.module = true) ∧
      cells = (is.filter (isCompositeCell c)).map fun i => (i.name, i.module) := by
  induction is generalizing cells with
  | nil =>
    exact ⟨fun h => ⟨fun _ hi => (nomatch hi), (Except.ok.inj h).symm⟩, fun h => h.2 ▸ rfl⟩
  | cons i is ih =>
    rw [List.forall_mem_cons]
    unfold compositeCells
    by_cases hi : i.isCell = true
    · cases hm : c.module? i.module with
      | none => simp [hi, Catalog.contains_iff_module?, hm]
      | some m =>
        have hreg : c.contains i.module = true := Catalog.contains_iff_module?.2 ⟨m, hm⟩
        cases hb : m.body with
        | none =>
          have hn : isCompositeCell c i = false := by
            simp [isCompositeCell, Catalog.body?, hm, hb]
          simp [hi, hreg, Module.isLeaf, hb, ih, hn]
        | some g =>
          have hy : isCompositeCell c i = true := by
            simp [isCompositeCell, Catalog.body?, hm, hb, hi]
          rw [List.filter_cons_of_pos hy, List.map_cons]
          cases hcs : compositeCells c is with
          | error e =>
            simp only [hcs, reduceCtorEq, false_iff] at ih
            simp only [hi, hreg, Module.isLeaf, hb, Bool.not_true, Bool.false_eq_true, if_false,
              Option.isNone_some, Except.map, reduceCtorEq, false_iff]
            exact fun h => ih ⟨h.1.2, rfl⟩
          | ok cs =>
            obtain ⟨hall, rfl⟩ := ih.1 hcs
            simp only [hi, hreg, Module.isLeaf, hb, Bool.not_true, Bool.false_eq_true, if_false,
              Option.isNone_some, Except.map, Except.ok.injEq, true_imp_iff, true_and]
            exact ⟨fun h => ⟨hall, h.symm⟩, fun h => h.2.symm⟩
    · have hn : isCompositeCell c i = false := by simp [isCompositeCell, hi]
      simp [hi, ih, hn]

theorem mem_compositeCells {is : List Instance} (h : compositeCells c is = .ok cells)
    {n m : String} : (n, m) ∈ cells ↔ ⟨n, m, .cell⟩ ∈ is ∧ ∃ g, c.body? m = some g := by
  rw [(compositeCells_eq_ok_iff.1 h).2, List.mem_map]
  simp only [List.mem_filter, isCompositeCell_iff, Prod.mk.injEq]
  constructor
  · rintro ⟨⟨n, m, r⟩, ⟨hi, rfl, hb⟩, rfl, rfl⟩
    exact ⟨hi, hb⟩
  · rintro ⟨hi, hb⟩
    exact ⟨_, ⟨hi, rfl, hb⟩, rfl, rfl⟩

/-- Composite cells are told in the order of the instances. -/
theorem compositeCells_sublist (h : compositeCells c g.instances = .ok cells) :
    (cells.map Prod.fst).Sublist g.names := by
  rw [(compositeCells_eq_ok_iff.1 h).2, List.map_map]
  exact List.filter_sublist.map _

theorem nodup_compositeCells (hg : g.names.Nodup) (h : compositeCells c g.instances = .ok cells) :
    (cells.map Prod.fst).Nodup :=
  hg.sublist (compositeCells_sublist h)

/-- A cell that is not composite is a leaf. -/
theorem hasLeaf_of_compositeCells {is : List Instance} (h : compositeCells c is = .ok cells)
    {i : Instance} (hi : i ∈ is) (hr : i.role = .cell) (hn : (i.name, i.module) ∉ cells) :
    c.HasLeaf i.module := by
  have hreg := (compositeCells_eq_ok_iff.1 h).1 i hi (by simp [Instance.isCell, hr])
  refine Catalog.hasLeaf_of_body? hreg (Option.eq_none_iff_forall_not_mem.2 fun g hg => hn ?_)
  exact (mem_compositeCells h).2 ⟨hr ▸ hi, g, hg⟩

/-! ### Stray cells -/

theorem mem_instances_dropStray {i : Instance} : i ∈ (dropStray g work).instances ↔
    i ∈ work.instances ∧
      (i.role = .cell → i.name ∉ g.names → work.isOrphan i.name = false) := by
  rw [dropStray, Graph.mem_instances_removeOrphans]
  refine and_congr_right fun _ => ?_
  rw [Bool.and_eq_true, Bool.not_eq_true', ← Bool.not_eq_true (g.contains i.name),
    Graph.contains_iff, Instance.isCell, decide_eq_true_eq, ← Bool.not_eq_true]
  tauto

@[simp] theorem wires_dropStray (g work : Graph) : (dropStray g work).wires = work.wires :=
  rfl

/-- The instances of the graph itself are no strays. -/
theorem dropStray_self (g : Graph) : dropStray g g = g := by
  have h : (g.instances.filter fun i =>
      !(g.isOrphan i.name && (i.isCell && !g.contains i.name))) = g.instances := by
    refine List.filter_eq_self.2 fun i hi => ?_
    rw [Graph.contains_iff.2 (Graph.mem_names.2 ⟨i, hi, rfl⟩)]
    simp
  rw [dropStray, Graph.removeOrphans, h]

/-! ### Flat insides -/

/-- Composite cells are inlined one after the other. The graph that takes the place of a cell is
related to the cell's module by `R`. -/
inductive Inlined (c : Catalog) (b : Boundary) (R : String → Graph → Prop) :
    Graph → List (String × String) → Graph → Prop
  | nil {g : Graph} : Inlined c b R g [] g
  | cons {g g₁ g' sub : Graph} {name module : String} {cells : List (String × String)}
      (hsub : R module sub) (hinline : g.inline c b name sub = .ok g₁)
      (hrest : Inlined c b R g₁ cells g') : Inlined c b R g ((name, module) :: cells) g'

/-- The flat inside of a composite: its inside, with the flat insides of its composite cells
inlined. -/
inductive Expands (c : Catalog) (b : Boundary) : String → Graph → Prop
  | mk {module : String} {g work : Graph} {cells : List (String × String)}
      (hbody : c.body? module = some g) (hcells : compositeCells c g.instances = .ok cells)
      (hwork : Inlined c b (fun m s => Expands c b m s) g cells work) :
      Expands c b module (dropStray g work)

theorem Inlined.mono {R S : String → Graph → Prop} (h : Inlined c b R g cells g')
    (hRS : ∀ e ∈ cells, ∀ s, R e.2 s → S e.2 s) : Inlined c b S g cells g' := by
  induction h with
  | nil => exact .nil
  | cons hsub hinline _ ih =>
    obtain ⟨hhead, htail⟩ := List.forall_mem_cons.1 hRS
    exact .cons (hhead _ hsub) hinline (ih htail)

/-- Where what takes the place of a cell is determined, so is the outcome. -/
theorem Inlined.unique {R S : String → Graph → Prop} (h : Inlined c b R g cells g')
    {g'' : Graph} (h' : Inlined c b S g cells g'')
    (hRS : ∀ e ∈ cells, ∀ s t, R e.2 s → S e.2 t → t = s) : g'' = g' := by
  induction h with
  | nil =>
    cases h'
    rfl
  | cons hsub hinline _ ih =>
    obtain ⟨hhead, htail⟩ := List.forall_mem_cons.1 hRS
    cases h' with
    | cons hsub' hinline' hrest' =>
      rw [hhead _ _ hsub hsub'] at hinline'
      rw [Except.ok.inj (hinline.symm.trans hinline')] at ih
      exact ih hrest' htail

/-- Every cell that is inlined has something to take its place. -/
theorem Inlined.exists_of_mem {R : String → Graph → Prop} (h : Inlined c b R g cells g')
    {e : String × String} (he : e ∈ cells) : ∃ s, R e.2 s := by
  induction h with
  | nil => cases he
  | cons hsub _ _ ih =>
    rcases List.mem_cons.1 he with rfl | he
    · exact ⟨_, hsub⟩
    · exact ih he

/-- A sequence of inlinings in two parts. -/
theorem Inlined.exists_of_append {R : String → Graph → Prop} {cells' : List (String × String)}
    (h : Inlined c b R g (cells ++ cells') g') :
    ∃ g₁, Inlined c b R g cells g₁ ∧ Inlined c b R g₁ cells' g' := by
  induction cells generalizing g with
  | nil => exact ⟨g, .nil, h⟩
  | cons e cells ih =>
    cases h with
    | cons hsub hinline hrest =>
      obtain ⟨g₁, h₁, h⟩ := ih hrest
      exact ⟨g₁, .cons hsub hinline h₁, h⟩

/-- What holds of the flat inside of a composite whenever it holds of those of the composites in it
holds of all flat insides. -/
theorem Expands.induct {P : String → Graph → Prop}
    (step : ∀ {module g work cells}, c.body? module = some g →
      compositeCells c g.instances = .ok cells →
      Inlined c b (fun m s => Expands c b m s ∧ P m s) g cells work → P module (dropStray g work))
    {flat : Graph} (h : Expands c b module flat) : P module flat :=
  @Expands.rec c b (fun m s _ => P m s)
    (fun g cells g' _ => Inlined c b (fun m s => Expands c b m s ∧ P m s) g cells g')
    (fun hbody hcells _ ih => step hbody hcells ih) .nil
    (fun hsub hinline _ hP ih => .cons ⟨hsub, hP⟩ hinline ih) _ _ h

/-- A composite has at most one flat inside. -/
theorem Expands.unique {f f' : Graph} (h : Expands c b module f) (h' : Expands c b module f') :
    f' = f := by
  revert f'
  refine Expands.induct (P := fun m f => ∀ {f'}, Expands c b m f' → f' = f)
    (fun {module g work cells} hbody hcells hwork f' h' => ?_) h
  cases h' with
  | mk hbody' hcells' hwork' =>
    cases hbody.symm.trans hbody'
    cases hcells.symm.trans hcells'
    rw [hwork.unique hwork' fun e _ s t hs ht => hs.2 ht]

/-- A composite has a cell of another composite inside. -/
def Contains (c : Catalog) (m m' : String) : Prop :=
  ∃ g cells, c.body? m = some g ∧ compositeCells c g.instances = .ok cells ∧
    m' ∈ cells.map Prod.snd

/-- If the composites under way contain a composite, then these and the composite itself contain the
composites that it has cells of. -/
theorem transGen_of_mem_cells {underway : List String} (hbody : c.body? module = some g)
    (hcells : compositeCells c g.instances = .ok cells)
    (hunder : ∀ u ∈ underway, Relation.TransGen (Contains c) u module) :
    ∀ u ∈ underway ++ [module], ∀ e ∈ cells, Relation.TransGen (Contains c) u e.2 := by
  intro u hu e he
  have hone : Contains c module e.2 := ⟨g, cells, hbody, hcells, List.mem_map_of_mem he⟩
  rw [List.mem_append, List.mem_singleton] at hu
  rcases hu with hu | rfl
  · exact (hunder u hu).tail hone
  · exact .single hone

/-- A composite with a flat inside does not contain itself. -/
theorem Expands.not_transGen {f : Graph} (h : Expands c b module f) :
    ¬Relation.TransGen (Contains c) module module := by
  refine Expands.induct (P := fun m _ => ¬Relation.TransGen (Contains c) m m)
    (fun {module g work cells} hbody hcells hwork hloop => ?_) h
  -- the way from the composite back to it begins with one of its cells
  obtain ⟨m, hstep, hback⟩ := Relation.TransGen.head'_iff.1 hloop
  obtain ⟨g', cells', hbody', hcells', hm⟩ := hstep
  have hone : Contains c module m := ⟨g', cells', hbody', hcells', hm⟩
  cases hbody.symm.trans hbody'
  cases hcells.symm.trans hcells'
  obtain ⟨e, he, rfl⟩ := List.mem_map.1 hm
  obtain ⟨s, -, hs⟩ := hwork.exists_of_mem he
  exact hs (Relation.TransGen.tail' hback hone)

/-! ### The memory of flattening -/

/-- What is kept of finished composites is right. -/
def Remembers (c : Catalog) (b : Boundary) (finished : OrderedMap Graph) : Prop :=
  ∀ m f, finished.get? m = some f → Expands c b m f

theorem Remembers.insert {finished : OrderedMap Graph} (h : Remembers c b finished) {f : Graph}
    (hf : Expands c b module f) : Remembers c b (finished.insert module f) := by
  intro m f' hm
  rw [OrderedMap.get?_insert] at hm
  split_ifs at hm with he
  · cases hm
    exact he ▸ hf
  · exact h m f' hm

private theorem dropStray_of_nil {finished : OrderedMap Graph}
    (h : expandAll c b p g cells = .ok (work, finished)) :
    (if cells = [] then g else dropStray g work) = dropStray g work := by
  split_ifs with hc
  · rw [hc, expandAll] at h
    cases h
    exact (dropStray_self g).symm
  · rfl

/-- A composite is taken from the memory, or its inside is expanded while it is under way. -/
theorem expand_eq_ok_iff {f : Graph} {finished : OrderedMap Graph} :
    expand c b p module = .ok (f, finished) ↔
      (p.finished.get? module = some f ∧ finished = p.finished) ∨
        (p.finished.get? module = none ∧ module ∉ p.underway ∧
          ∃ g cells work fs, c.body? module = some g ∧ compositeCells c g.instances = .ok cells ∧
            expandAll c b { p with underway := p.underway ++ [module] } g cells = .ok (work, fs) ∧
            f = dropStray g work ∧ finished = fs.insert module f) := by
  rw [expand, Progress.finished?]
  cases p.finished.get? module with
  | some f' => simp [eq_comm]
  | none =>
    simp only [reduceCtorEq, false_and, false_or, true_and]
    constructor
    · intro h
      split at h <;> rename_i hbody
      · cases h
      split at h <;> rename_i henter
      · cases h
      split at h <;> rename_i hcells
      · cases h
      split at h <;> rename_i hwork
      · cases h
      obtain ⟨hnew, hq⟩ := underway_of_enter henter
      rw [dropStray_of_nil hwork] at h
      cases h
      unfold Progress.enter at henter
      rw [if_neg hnew] at henter
      cases henter
      exact ⟨hnew, _, _, _, _, bodyOf_eq_ok_iff.1 hbody, hcells, hwork, rfl, rfl⟩
    · rintro ⟨hnew, g, cells, work, fs, hbody, hcells, hwork, rfl, rfl⟩
      have henter : p.enter module = .ok { p with underway := p.underway ++ [module] } :=
        if_neg hnew
      split <;> rename_i hbody' <;> cases (bodyOf_eq_ok_iff.2 hbody).symm.trans hbody'
      split <;> rename_i henter' <;> cases henter.symm.trans henter'
      simp only [hcells, hwork, dropStray_of_nil hwork]

theorem expandAll_nil_eq_ok_iff {finished : OrderedMap Graph} :
    expandAll c b p g [] = .ok (work, finished) ↔ work = g ∧ finished = p.finished := by
  rw [expandAll]
  simp [eq_comm]

theorem expandAll_cons_eq_ok_iff {name : String} {finished : OrderedMap Graph} :
    expandAll c b p g ((name, module) :: cells) = .ok (work, finished) ↔
      ∃ sub fs g₁, expand c b p module = .ok (sub, fs) ∧ g.inline c b name sub = .ok g₁ ∧
        expandAll c b { p with finished := fs } g₁ cells = .ok (work, finished) := by
  rw [expandAll]
  constructor
  · intro h
    split at h <;> rename_i hsub
    · cases h
    split at h <;> rename_i hinline
    · cases h
    exact ⟨_, _, _, hsub, hinline, h⟩
  · rintro ⟨sub, fs, g₁, hsub, hinline, h⟩
    simp only [hsub, hinline, h]

mutual

/-- What expanding gives is the flat inside, and the memory stays right. -/
theorem expands_of_expand {p : Progress} {module : String} {f : Graph} {finished : OrderedMap Graph}
    (h : expand c b p module = .ok (f, finished)) (hp : Remembers c b p.finished) :
    Expands c b module f ∧ Remembers c b finished := by
  rcases expand_eq_ok_iff.1 h with ⟨hf, rfl⟩ | ⟨-, hnew, g, cells, work, fs, hbody, hcells, hwork,
    rfl, rfl⟩
  · exact ⟨hp _ _ hf, hp⟩
  · obtain ⟨hwork, hfs⟩ := inlined_of_expandAll hwork hp
    have hf : Expands c b module (dropStray g work) := .mk hbody hcells hwork
    exact ⟨hf, hfs.insert hf⟩
termination_by (unvisited c.names p.underway, 0)
decreasing_by
  exact Prod.Lex.left _ _ (unvisited_append_lt (Catalog.mem_names_of_body? hbody) hnew)

theorem inlined_of_expandAll {p : Progress} {g work : Graph} {cells : List (String × String)}
    {finished : OrderedMap Graph} (h : expandAll c b p g cells = .ok (work, finished))
    (hp : Remembers c b p.finished) :
    Inlined c b (Expands c b) g cells work ∧ Remembers c b finished := by
  match cells with
  | [] =>
    obtain ⟨rfl, rfl⟩ := expandAll_nil_eq_ok_iff.1 h
    exact ⟨.nil, hp⟩
  | (name, module) :: cells =>
    obtain ⟨sub, fs, g₁, hsub, hinline, h⟩ := expandAll_cons_eq_ok_iff.1 h
    obtain ⟨hsub, hfs⟩ := expands_of_expand hsub hp
    obtain ⟨hrest, hfin⟩ := inlined_of_expandAll h hfs
    exact ⟨.cons hsub hinline hrest, hfin⟩
termination_by (unvisited c.names p.underway, cells.length + 1)
decreasing_by
  · exact Prod.Lex.right _ (Nat.succ_pos _)
  · exact Prod.Lex.right _ (by simp)

end

/-- Where each composite cell can be expanded whenever it contains no composite that is under way,
the cells can be inlined. -/
private theorem exists_expandAll {R : String → Graph → Prop} (h : Inlined c b R g cells work)
    (underway : List String) (hR : ∀ e ∈ cells, ∀ s, R e.2 s → ∀ p, p.underway = underway →
      Remembers c b p.finished → ∃ fs, expand c b p e.2 = .ok (s, fs) ∧ Remembers c b fs) :
    ∀ p, p.underway = underway → Remembers c b p.finished →
      ∃ fs, expandAll c b p g cells = .ok (work, fs) ∧ Remembers c b fs := by
  induction h with
  | nil => exact fun p _ hfin => ⟨p.finished, expandAll_nil_eq_ok_iff.2 ⟨rfl, rfl⟩, hfin⟩
  | cons hsub hinline _ ih =>
    intro p hp hfin
    obtain ⟨hhead, htail⟩ := List.forall_mem_cons.1 hR
    obtain ⟨fs, hexp, hfs⟩ := hhead _ hsub p hp hfin
    obtain ⟨fs', hall, hfs'⟩ := ih htail { p with finished := fs } hp hfs
    exact ⟨fs', expandAll_cons_eq_ok_iff.2 ⟨_, _, _, hexp, hinline, hall⟩, hfs'⟩

/-- A composite with a flat inside can be expanded while composites that contain it are under
way. -/
theorem Expands.exists_expand {f : Graph} (h : Expands c b module f) : ∀ p : Progress,
    Remembers c b p.finished → (∀ u ∈ p.underway, Relation.TransGen (Contains c) u module) →
      ∃ fs, expand c b p module = .ok (f, fs) ∧ Remembers c b fs := by
  refine Expands.induct (P := fun module f => ∀ p : Progress, Remembers c b p.finished →
    (∀ u ∈ p.underway, Relation.TransGen (Contains c) u module) →
      ∃ fs, expand c b p module = .ok (f, fs) ∧ Remembers c b fs)
    (fun {module g work cells} hbody hcells hwork p hfin hunder => ?_) h
  have hexp : Expands c b module (dropStray g work) :=
    .mk hbody hcells (hwork.mono fun _ _ _ => And.left)
  cases hget : p.finished.get? module with
  | some f' =>
    have hf' := hexp.unique (hfin _ _ hget)
    exact ⟨p.finished, expand_eq_ok_iff.2 (Or.inl ⟨hf' ▸ hget, rfl⟩), hfin⟩
  | none =>
    have hnew : module ∉ p.underway := fun hm => hexp.not_transGen (hunder _ hm)
    obtain ⟨fs, hall, hfs⟩ := exists_expandAll hwork
      (p.underway ++ [module]) (fun e he s hs q hq hfin' => hs.2 q hfin' fun u hu =>
        transGen_of_mem_cells hbody hcells hunder u (hq ▸ hu) e he)
      { p with underway := p.underway ++ [module] } rfl hfin
    exact ⟨_, expand_eq_ok_iff.2 (Or.inr ⟨hget, hnew, g, cells, work, fs, hbody, hcells, hall, rfl,
      rfl⟩), hfs.insert hexp⟩

theorem remembers_start : Remembers c b Progress.start.finished :=
  fun _ _ h => nomatch h

/-- Flattening a composite gives its flat inside. -/
theorem flattenModule_eq_ok_iff {f : Graph} :
    c.flattenModule b module = .ok f ↔ Expands c b module f := by
  unfold Catalog.flattenModule
  rw [bind_eq_ok_iff]
  constructor
  · rintro ⟨⟨f', fs⟩, hexp, hf⟩
    cases hf
    exact (expands_of_expand hexp remembers_start).1
  · intro h
    obtain ⟨fs, hexp, -⟩ := h.exists_expand .start remembers_start fun _ hu => nomatch hu
    exact ⟨(f, fs), hexp, rfl⟩

/-- Flattening a graph inlines the flat insides of its composites and drops the cells that are left
without links. -/
theorem flattenGraph_eq_ok_iff {f : Graph} : c.flattenGraph b g = .ok f ↔
    ∃ cells work, compositeCells c g.instances = .ok cells ∧
      Inlined c b (Expands c b) g cells work ∧ f = dropStray g work := by
  unfold Catalog.flattenGraph
  rw [bind_eq_ok_iff]
  refine exists_congr fun cells => ?_
  constructor
  · rintro ⟨hcells, h⟩
    split_ifs at h with hnil
    · cases h
      exact ⟨g, hcells, hnil ▸ .nil, (dropStray_self g).symm⟩
    · obtain ⟨⟨work, fs⟩, hall, hf⟩ := bind_eq_ok_iff.1 h
      cases hf
      exact ⟨work, hcells, (inlined_of_expandAll hall remembers_start).1, rfl⟩
  · rintro ⟨work, hcells, hwork, rfl⟩
    refine ⟨hcells, ?_⟩
    split_ifs with hnil
    · cases hnil
      cases hwork
      rw [dropStray_self]
      rfl
    · obtain ⟨fs, hall, -⟩ := exists_expandAll hwork []
        (fun e _ s hs p hp hfin => hs.exists_expand p hfin (by simp [hp])) .start rfl
        remembers_start
      exact bind_eq_ok_iff.2 ⟨(work, fs), hall, rfl⟩

end Flatten

end Netlist
