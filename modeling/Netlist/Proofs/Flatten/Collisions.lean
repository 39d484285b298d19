import Netlist.Proofs.Catalog.History
import Netlist.Proofs.Cycle
import Netlist.Proofs.Flatten.Unroll

/-!
# Names that are taken

The cells that are put in where a composite is taken apart have joined names. These are no
identifiers, so nothing else has them as long as all instances have identifiers for names. But a
composite can be registered with any names for its boundary instances, also with one that a cell in
it gets. Then neither the composite nor anything that contains it can be flattened, and there is no
other reason why what was registered could not be.

## Main definitions

* `Netlist.Catalog.Obstructed`: a boundary instance of a composite has the name that a cell gets.
* `Netlist.Catalog.Outcome`: what flattening comes to.

## Main results

* `Netlist.Flatten.expands_or_obstructed`: a composite has a flat inside, or flattening it fails
  because of a composite that is obstructed.
* `Netlist.Flatten.Expands.not_obstructed`: what has a flat inside contains no such composite.
* `Netlist.Catalog.Built.flatten_outcome`: what flattening comes to where everything was registered.
-/

namespace Netlist

open Relation (TransGen ReflTransGen)

namespace Catalog

variable {c : Catalog} {b : Boundary} {m x n : String}

/-- A boundary instance of the composite `m` has the joined name `x` that a cell gets where the
composite cell `n` inside is taken apart. -/
def Obstructed (c : Catalog) (b : Boundary) (m x n : String) : Prop :=
  ∃ B, c.body? m = some B ∧ (∃ i ∈ B.instances, i.role ≠ .cell ∧ i.name = x) ∧
    ∃ k f, ⟨n, k, .cell⟩ ∈ B.instances ∧ c.flattenModule b k = .ok f ∧
      ∃ j ∈ f.instances, j.role = .cell ∧ b.join n j.name = x

/-- What flattening comes to where it goes through given composites. If none of them is obstructed,
there is a flat graph, and it passes validation. Otherwise a name is taken that obstructs one. -/
def Outcome (c : Catalog) (b : Boundary) (reached : String → Prop) (r : Except Error Graph) :
    Prop :=
  ((∀ m, reached m → ¬∃ x n, c.Obstructed b m x n) ∧
      ∃ flat, r = .ok flat ∧ flat.validate c = .ok ()) ∨
    ∃ m x n, reached m ∧ c.Obstructed b m x n ∧ r = .error (.nameCollision x n)

/-- No composite is obstructed whose boundary instances have identifiers for names. -/
theorem not_obstructed_of_named (hb : b.Separates)
    (hn : ∀ m B, c.body? m = some B → Flatten.Named B) : ¬c.Obstructed b m x n := by
  rintro ⟨B, hB, ⟨i, hi, -, rfl⟩, _, _, _, _, _, _, _, hx⟩
  exact Boundary.not_isIdentifier_join hb (hx ▸ hn m B hB i.name (Graph.mem_names.2 ⟨i, hi, rfl⟩))

end Catalog

namespace Flatten

variable {c : Catalog} {b : Boundary} {g work B f : Graph} {module x n : String}
  {cells : List (String × String)} {R : String → Graph → Prop} {path : List String}

/-! ### Where names are taken -/

/-- A name that is taken when composites are inlined, whose cells have identifiers for names,
belongs to a boundary instance. -/
theorem Collides.obstructed (hb : b.Separates) (hB : c.body? module = some B) (hg : B.WellFormed)
    (hn : CellsNamed B) (hcells : compositeCells c B.instances = .ok cells)
    (h : Collides c b (Expands c b) B cells x n) : c.Obstructed b module x n := by
  have hp := pending_of_compositeCells hg.nodup_names hcells
  have hcell {n m : String} (he : (n, m) ∈ cells) : ⟨n, m, .cell⟩ ∈ B.instances :=
    ((hp.mem_iff n m).1 he).1
  obtain ⟨cells₁, k, cells₂, g₁, s, rfl, hrun, hs, ⟨j, hj, rfl⟩, htaken⟩ := h.exists_prefix
  have hmem : (n, k) ∈ cells₁ ++ (n, k) :: cells₂ := List.mem_append_right _ List.mem_cons_self
  obtain ⟨hj, hjr⟩ := Inline.mem_cells.1 hj
  obtain ⟨i, hi, hname⟩ := Graph.mem_names.1 htaken
  refine ⟨B, hB, ?_, k, s, hcell hmem, flattenModule_eq_ok_iff.2 hs, j, hj, hjr, rfl⟩
  rcases hrun.mem_instances_or hi with hi | ⟨n', m', s', hmem', -, hi⟩
  · refine ⟨i, hi, fun hr => ?_, hname⟩
    exact Boundary.not_isIdentifier_join hb (hname ▸ hn i hi hr)
  · -- the cells that were put in before are from composite cells of other names
    obtain ⟨j', -, -, rfl⟩ := Inline.mem_innerCells.1 hi
    have hmem₁ : (n', m') ∈ cells₁ ++ (n, k) :: cells₂ := List.mem_append_left _ hmem'
    obtain ⟨rfl, -⟩ := Boundary.join_inj_of_isIdentifier hb (hn _ (hcell hmem₁) rfl)
      (hn _ (hcell hmem) rfl) hname
    have hnodup := hp.nodup
    rw [List.map_append, List.nodup_append'] at hnodup
    exact absurd List.mem_cons_self (hnodup.2.2 (List.mem_map.2 ⟨_, hmem', rfl⟩))

/-- A name that is taken is what unrolling fails with. -/
theorem Collides.unrollAll_eq (h : Collides c b R g cells x n)
    (hR : ∀ e ∈ cells, ∀ s, R e.2 s → unroll c b path e.2 = .ok s) :
    unrollAll c b path g cells = .error (.nameCollision x n) := by
  induction h with
  | here hsub _ _ hinline =>
    rw [unrollAll_cons, hR _ List.mem_cons_self _ hsub, ok_bind, hinline]
    rfl
  | later hsub hinline _ ih =>
    obtain ⟨hhead, hR⟩ := List.forall_mem_cons.1 hR
    rw [unrollAll_cons, hhead _ hsub, ok_bind, hinline, ok_bind, ih hR]

/-- Unrolling a composite fails with what unrolling the cells in it fails with. -/
theorem unroll_eq_error {e : Error} (hB : c.body? module = some B) (hnew : module ∉ path)
    (hcells : compositeCells c B.instances = .ok cells)
    (h : unrollAll c b (path ++ [module]) B cells = .error e) :
    unroll c b path module = .error e := by
  rw [unroll_eq c b ⟨path, .empty⟩ module, bodyOf_eq_ok_iff.2 hB, ok_bind,
    enter_eq_ok_iff.2 ⟨hnew, rfl⟩, ok_bind, hcells, ok_bind, h]
  rfl

/-! ### What flattening comes to -/

/-- If each composite cell of a graph has a flat inside or cannot be unrolled because of a name that
is taken, all of them can be inlined or unrolling them fails with such a name. -/
theorem inlined_or_unrollAll_eq_error {T : String → String → Prop}
    (hc : ∀ m B, c.body? m = some B → Whole c m B) (hg : g.WellFormed) (hs : g.Sound c)
    (hcells : compositeCells c g.instances = .ok cells)
    (hpath : ∀ u ∈ path, ∀ e ∈ cells, TransGen (Contains c) u e.2)
    (hcell : ∀ e ∈ cells, (∃ s, Expands c b e.2 s) ∨
      ∃ x n, T x n ∧ unroll c b path e.2 = .error (.nameCollision x n)) :
    (∃ work, Inlined c b (Expands c b) g cells work) ∨
      ∃ x n, (T x n ∨ Collides c b (Expands c b) g cells x n) ∧
        unrollAll c b path g cells = .error (.nameCollision x n) := by
  have hunroll : ∀ e ∈ cells, ∀ s, Expands c b e.2 s → unroll c b path e.2 = .ok s :=
    fun e he s hs => hs.unroll_eq path fun u hu => hpath u hu e he
  have hR : ∀ e ∈ cells, ∀ s, Expands c b e.2 s → LeafCells c s ∧ Insertable c e.2 s :=
    fun _ _ _ h => (h.leaf_whole hc).imp_right Whole.insertable
  obtain hwork | ⟨x, n, h⟩ | ⟨cells₁, ⟨name, m⟩, cells₂, g₁, rfl, hrun, hnot⟩ :=
    inlined_or_stops (b := b) hg hs (pending_of_compositeCells hg.nodup_names hcells) hR
  · exact Or.inl hwork
  · exact Or.inr ⟨x, n, Or.inr h, h.unrollAll_eq hunroll⟩
  · obtain ⟨hcell₁, hcell₂⟩ := List.forall_mem_append.1 hcell
    obtain ⟨x, n, hT, herr⟩ := (hcell₂ _ List.mem_cons_self).resolve_left hnot
    refine Or.inr ⟨x, n, Or.inl hT, ?_⟩
    rw [unrollAll_append, hrun.unrollAll_eq (List.forall_mem_append.1 hunroll).1, ok_bind,
      unrollAll_cons, herr]
    rfl

theorem Contains.within {m m' : String} (h : Contains c m m') : c.Within m' m := by
  obtain ⟨g, cells, hbody, hcells, hm⟩ := h
  obtain ⟨e, he, rfl⟩ := List.mem_map.1 hm
  exact within_of_mem hbody hcells he

theorem not_transGen_contains (hwf : WellFounded c.Within) (m : String) :
    ¬TransGen (Contains c) m m := by
  intro h
  have hswap : TransGen (Function.swap c.Within) m m :=
    TransGen.mono (fun _ _ h => Contains.within h) m m h
  exact not_transGen_of_acc (hwf.apply m) (Relation.transGen_swap.1 hswap)

/-- A registered composite has a flat inside, or unrolling it fails because of an obstructed
composite that is reached. -/
theorem expands_or_obstructed (hb : b.Separates) (hwf : WellFounded c.Within)
    (hc : ∀ m B, c.body? m = some B → Whole c m B ∧ CellsNamed B) (hB : c.body? module = some B)
    (hpath : ∀ u ∈ path, TransGen (Contains c) u module) :
    (∃ f, Expands c b module f) ∨ ∃ x n,
      (∃ m, ReflTransGen c.Within m module ∧ c.Obstructed b m x n) ∧
        unroll c b path module = .error (.nameCollision x n) := by
  induction module using hwf.induction generalizing B path with
  | _ module ih =>
    obtain ⟨hw, hn⟩ := hc _ _ hB
    obtain ⟨cells, hcells⟩ := exists_compositeCells hw.sound
    have hinside := transGen_of_mem_cells hB hcells hpath
    have hnew : module ∉ path := fun hm => not_transGen_contains hwf module (hpath module hm)
    have hcell : ∀ e ∈ cells, (∃ s, Expands c b e.2 s) ∨ ∃ x n,
        (∃ m, ReflTransGen c.Within m module ∧ c.Obstructed b m x n) ∧
          unroll c b (path ++ [module]) e.2 = .error (.nameCollision x n) := by
      intro e he
      obtain ⟨B', hB'⟩ := ((mem_compositeCells hcells).1 he).2
      have hin := within_of_mem hB hcells he
      refine (ih e.2 hin hB' fun u hu => hinside u hu e he).imp_right ?_
      rintro ⟨x, n, ⟨m, hreach, hm⟩, herr⟩
      exact ⟨x, n, ⟨m, hreach.tail hin, hm⟩, herr⟩
    obtain ⟨work, hwork⟩ | ⟨x, n, hm | hcol, herr⟩ := inlined_or_unrollAll_eq_error
      (fun m B hB => (hc m B hB).1) hw.wellFormed hw.sound hcells hinside hcell
    · exact Or.inl ⟨_, .mk hB hcells hwork⟩
    · exact Or.inr ⟨x, n, hm, unroll_eq_error hB hnew hcells herr⟩
    · exact Or.inr ⟨x, n, ⟨module, .refl, hcol.obstructed hb hB hw.wellFormed hn hcells⟩,
        unroll_eq_error hB hnew hcells herr⟩

/-- A graph whose instances have identifiers for names can be flattened, or flattening it fails
because of an obstructed composite that is reached. -/
theorem exists_flattenGraph_or_obstructed (hb : b.Separates) (hwf : WellFounded c.Within)
    (hc : ∀ m B, c.body? m = some B → Whole c m B ∧ CellsNamed B) (hg : g.WellFormed)
    (hs : g.Sound c) (hn : Named g) :
    (∃ flat, c.flattenGraph b g = .ok flat) ∨ ∃ x n,
      (∃ m, (∃ i ∈ g.instances, ReflTransGen c.Within m i.module) ∧ c.Obstructed b m x n) ∧
        c.flattenGraph b g = .error (.nameCollision x n) := by
  obtain ⟨cells, hcells⟩ := exists_compositeCells hs
  have hcell : ∀ e ∈ cells, (∃ s, Expands c b e.2 s) ∨ ∃ x n,
      (∃ m, (∃ i ∈ g.instances, ReflTransGen c.Within m i.module) ∧ c.Obstructed b m x n) ∧
        unroll c b [] e.2 = .error (.nameCollision x n) := by
    intro e he
    obtain ⟨hi, B, hB⟩ := (mem_compositeCells hcells).1 he
    refine (expands_or_obstructed hb hwf hc hB (List.forall_mem_nil _)).imp_right ?_
    rintro ⟨x, n, ⟨m, hreach, hm⟩, herr⟩
    exact ⟨x, n, ⟨m, ⟨_, hi, hreach⟩, hm⟩, herr⟩
  obtain ⟨work, hwork⟩ | ⟨x, n, hm | hcol, herr⟩ := inlined_or_unrollAll_eq_error
    (fun m B hB => (hc m B hB).1) hg hs hcells (List.forall_mem_nil _) hcell
  · exact Or.inl ⟨_, flattenGraph_eq_ok_iff.2 ⟨cells, work, hcells, hwork, rfl⟩⟩
  · refine Or.inr ⟨x, n, hm, ?_⟩
    have hne : cells ≠ [] := by
      rintro rfl
      rw [unrollAll] at herr
      cases herr
    rw [Catalog.flattenGraph_eq_unrollGraph, Catalog.unrollGraph, hcells, ok_bind, if_neg hne, herr]
    rfl
  · exact absurd hcol (not_collides_of_named hb hg hn hcells)

/-! ### What is flattened -/

/-- A composite cell is not among those that are inlined if a cell inside it gets the name of an
instance that stays. -/
theorem Inlined.not_mem_of_taken (h : Inlined c b R g cells work) {i : Instance} {m : String}
    (hi : i ∈ g.instances) (hn : i.name ∉ cells.map Prod.fst)
    (htaken : ∀ s, R m s → ∃ j ∈ Inline.cells s, b.join n j.name = i.name) : (n, m) ∉ cells := by
  induction h with
  | nil => exact List.not_mem_nil
  | @cons g g₁ g' sub name module cells hsub hinline _ ih =>
    obtain ⟨hname, hn⟩ := not_or.1 (mt List.mem_cons.2 hn)
    intro hmem
    rcases List.mem_cons.1 hmem with he | hmem
    · cases he
      obtain ⟨j, hj, hji⟩ := htaken _ hsub
      exact (Graph.inline_eq_ok_iff.1 hinline).2.1 j hj
        (hji ▸ Graph.mem_names.2 ⟨i, hi, rfl⟩)
    · refine ih ?_ hn hmem
      rw [Graph.instances_inline hinline]
      exact List.mem_append_left _ (List.mem_filter.2 ⟨hi, by simpa using hname⟩)

/-- A composite with a flat inside is not obstructed. -/
theorem Expands.not_obstructed (h : Expands c b module f)
    (hg : ∀ B, c.body? module = some B → B.WellFormed) : ¬∃ x n, c.Obstructed b module x n := by
  rintro ⟨x, n, B, hB, ⟨i, hi, hr, rfl⟩, k, s, hmem, hs, j, hj, hjr, hx⟩
  have hs := flattenModule_eq_ok_iff.1 hs
  cases h with
  | @mk _ _ work cells hbody hcells hwork =>
    cases hbody.symm.trans hB
    have hnot : i.name ∉ cells.map Prod.fst := fun hmap => by
      obtain ⟨⟨n', m'⟩, he, hname⟩ := List.mem_map.1 hmap
      have hi' := List.inj_on_of_nodup_map (hg B hB).nodup_names hi
        ((mem_compositeCells hcells).1 he).1 hname.symm
      exact hr (hi' ▸ rfl)
    have hbodyk : ∃ B', c.body? k = some B' := by
      cases hs with
      | mk hbody _ _ => exact ⟨_, hbody⟩
    refine hwork.not_mem_of_taken hi hnot (fun s' hs' => ⟨j, ?_, hx⟩)
      ((mem_compositeCells hcells).2 ⟨hmem, hbodyk⟩)
    exact Inline.mem_cells.2 ⟨(hs.unique hs').symm ▸ hj, hjr⟩

/-- The composites that are reached from one with a flat inside have flat insides. -/
theorem Expands.exists_of_reflTransGen (h : Expands c b module f) : ∀ m,
    ReflTransGen c.Within m module → (∃ B, c.body? m = some B) → ∃ f', Expands c b m f' := by
  refine Expands.induct (P := fun module _ => ∀ m, ReflTransGen c.Within m module →
    (∃ B, c.body? m = some B) → ∃ f', Expands c b m f')
    (fun {module g work cells} hbody hcells hwork m hreach hm => ?_) h
  rcases ReflTransGen.cases_tail hreach with rfl | ⟨x, hmx, g', hg', i, hi, hcell, rfl⟩
  · exact ⟨_, .mk hbody hcells (hwork.mono fun _ _ _ => And.left)⟩
  · cases hbody.symm.trans hg'
    have hrole : i.role = .cell := by simpa [Instance.isCell] using hcell
    have he : (i.name, i.module) ∈ cells :=
      (mem_compositeCells hcells).2 ⟨hrole ▸ hi, exists_body_of_reflTransGen hmx hm⟩
    obtain ⟨s, -, hs⟩ := hwork.exists_of_mem he
    exact hs m hmx hm

end Flatten

/-! ### Catalogs in which everything was registered -/

namespace Catalog

open Flatten

variable {c : Catalog} {b : Boundary}

/-- Where no composite is obstructed, flattening gives a graph that passes validation. -/
theorem Outcome.exists_eq_ok {p : String → Prop} {r : Except Error Graph} (h : c.Outcome b p r)
    (hn : ∀ m x n, ¬c.Obstructed b m x n) : ∃ flat, r = .ok flat ∧ flat.validate c = .ok () := by
  rcases h with ⟨-, hflat⟩ | ⟨m, x, n, -, hm, -⟩
  · exact hflat
  · exact absurd hm (hn m x n)

namespace Built

variable (h : c.Built) (hb : b.Separates)
include h hb

/-- What flattening a composite comes to. -/
theorem outcome_flattenModule {m : String} {B : Graph} (hB : c.body? m = some B) :
    c.Outcome b (fun n => ReflTransGen c.Within n m) (c.flattenModule b m) := by
  have hwhole : ∀ m B, c.body? m = some B → Whole c m B := fun m B hB => (h.whole m B hB).1
  rcases expands_or_obstructed hb h.wellFounded h.whole hB (List.forall_mem_nil _) with
    ⟨f, hf⟩ | ⟨x, n, ⟨k, hreach, hk⟩, herr⟩
  · refine Or.inl ⟨fun k hreach hobstructed => ?_, f, flattenModule_eq_ok_iff.2 hf, ?_⟩
    · obtain ⟨x, n, B', hB', -⟩ := id hobstructed
      obtain ⟨f', hf'⟩ := hf.exists_of_reflTransGen k hreach ⟨B', hB'⟩
      exact hf'.not_obstructed (fun B hB => (hwhole k B hB).wellFormed) hobstructed
    · obtain ⟨hw, -⟩ := hf.whole hB (hwhole m B hB)
      exact (Graph.validate_eq_ok_iff hw.wellFormed).2 hw.sound
  · exact Or.inr ⟨k, x, n, hreach, hk, (flattenModule_eq_unrollModule c b m).trans herr⟩

/-- What flattening a graph comes to. -/
theorem outcome_flattenGraph {g : Graph} (hg : g.Built c) (hn : Named g) :
    c.Outcome b (fun m => ∃ i ∈ g.instances, ReflTransGen c.Within m i.module)
      (c.flattenGraph b g) := by
  have hw := hg.wellFormed
  rcases exists_flattenGraph_or_obstructed hb h.wellFounded h.whole hw hg.sound hn with
    ⟨flat, hflat⟩ | ⟨x, n, ⟨m, hreach, hm⟩, herr⟩
  · obtain ⟨cells, work, hcells, hwork, rfl⟩ := flattenGraph_eq_ok_iff.1 hflat
    refine Or.inl ⟨fun m hreach hobstructed => ?_, _, hflat, ?_⟩
    · obtain ⟨i, hi, hreach⟩ := hreach
      obtain ⟨x, n, B, hB, -⟩ := id hobstructed
      have he : (i.name, i.module) ∈ cells := (mem_compositeCells hcells).2
        ⟨hg.cells i hi ▸ hi, exists_body_of_reflTransGen hreach ⟨B, hB⟩⟩
      obtain ⟨s, hs⟩ := hwork.exists_of_mem he
      obtain ⟨f, hf⟩ := hs.exists_of_reflTransGen m hreach ⟨B, hB⟩
      exact hf.not_obstructed (fun B hB => (h.whole m B hB).1.wellFormed) hobstructed
    · exact (Graph.validate_eq_ok_iff (dropStray_wellFormed (hwork.wellFormed hw))).2
        (sound_dropStray_of_inlined hwork hw hg.sound)
  · exact Or.inr ⟨m, x, n, hreach, hm, herr⟩

end Built

/-- What flattening comes to in a catalog in which everything was registered, with whatever names at
the boundaries: for a graph that was put together by checked changes and has identifiers for names,
and for each composite. There is a flat graph, and it passes validation, unless a composite is
reached that is obstructed; then flattening fails with a name that obstructs one, and with nothing
else. It never fails if all boundary instances have identifiers for names. -/
theorem Built.flatten_outcome (h : c.Built) (hb : b.check = .ok ()) :
    (∀ g, g.Built c → (∀ n ∈ g.names, isIdentifier n = true) →
      c.Outcome b (fun m => ∃ i ∈ g.instances, ReflTransGen c.Within m i.module)
        (c.flattenGraph b g)) ∧
    (∀ m B, c.body? m = some B →
      c.Outcome b (fun n => ReflTransGen c.Within n m) (c.flattenModule b m)) ∧
    ((∀ m B, c.body? m = some B → ∀ n ∈ B.names, isIdentifier n = true) →
      (∀ g, g.Built c → (∀ n ∈ g.names, isIdentifier n = true) →
        ∃ flat, c.flattenGraph b g = .ok flat ∧ flat.validate c = .ok ()) ∧
      ∀ m B, c.body? m = some B →
        ∃ flat, c.flattenModule b m = .ok flat ∧ flat.validate c = .ok ()) := by
  obtain ⟨-, -, -, hsep⟩ := Boundary.check_eq_ok_iff.1 hb
  refine ⟨fun g hg hn => h.outcome_flattenGraph hsep hg hn,
    fun m B hB => h.outcome_flattenModule hsep hB, fun hnamed => ?_⟩
  have hfree (m x n : String) : ¬c.Obstructed b m x n := not_obstructed_of_named hsep hnamed
  exact ⟨fun g hg hn => (h.outcome_flattenGraph hsep hg hn).exists_eq_ok hfree,
    fun m B hB => (h.outcome_flattenModule hsep hB).exists_eq_ok hfree⟩

/-- A composite around a composite can be flattened, and so can a graph with it. -/
theorem Built.flatten_outcome_plainNested :
    Sample.plainNested.Built ∧ Boundary.standard.check = .ok () ∧
      Sample.nestRow.Built Sample.plainNested ∧
      (∀ n ∈ Sample.nestRow.names, isIdentifier n = true) ∧
      (∃ flat, Sample.plainNested.flattenGraph .standard Sample.nestRow = .ok flat ∧
        flat.validate Sample.plainNested = .ok ()) ∧
      ∃ flat, Sample.plainNested.flattenModule .standard "nest" = .ok flat ∧
        flat.validate Sample.plainNested = .ok () := by
  have hb : Boundary.standard.check = .ok () := by decide
  have hnames : ∀ n ∈ Sample.nestRow.names, isIdentifier n = true := by decide
  have hnest : Sample.plainNested.body? "nest" = some Sample.plainInside := by decide
  obtain ⟨hgraph, hmodule⟩ := (Sample.built_plainNested.flatten_outcome hb).2.2
    fun m B hB => Sample.named_of_plainNested hB
  exact ⟨Sample.built_plainNested, hb, Sample.built_plainNestRow, hnames,
    hgraph _ Sample.built_plainNestRow hnames, hmodule _ _ hnest⟩

/-- The same composite can be registered with a boundary instance that has the name of the leaf in
it. Flattening fails then. -/
theorem Built.flatten_fails_for_joined_block :
    Sample.nested.Built ∧ Boundary.standard.check = .ok () ∧
      Sample.nestRow.Built Sample.nested ∧
      (∀ n ∈ Sample.nestRow.names, isIdentifier n = true) ∧
      Sample.nested.flattenGraph .standard Sample.nestRow = .error (.nameCollision "a.x" "a") ∧
      Sample.nested.flattenModule .standard "nest" = .error (.nameCollision "a.x" "a") :=
  ⟨Sample.built_nested, by decide, Sample.built_nestRow, by decide, by decide_cbv, by decide_cbv⟩

end Catalog

end Netlist
