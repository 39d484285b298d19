import Netlist.Proofs.Catalog.Containment
import Netlist.Proofs.Flatten.Bordered
import Netlist.Proofs.Flatten.Run
import Netlist.Proofs.Names

/-!
# When flattening succeeds

Where the inside of every composite is sound and has a boundary, composites can be inlined one after
the other as long as no name is taken that this creates; a name that is taken is what flattening
fails with. Where the instances have identifiers for names, no name is taken: what is created has
the separator in it.

## Main definitions

* `Netlist.Flatten.Whole`: a sound graph with the boundary of a composite.
* `Netlist.Flatten.Insertable`: a sound graph with no boundary instances but those of a composite.
* `Netlist.Flatten.Collides`: a sequence of inlinings stops at a name that is taken.
* `Netlist.Flatten.Named`, `Netlist.Flatten.CellsNamed`: instances, or only cells, have identifiers
  for names.

## Main results

* `Netlist.Flatten.Expands.sound`: flat insides are sound and have the boundary of the inside.
* `Netlist.Flatten.inlined_or_stops`, `Netlist.Flatten.exists_inlined_or_collides`: composites can
  be inlined, unless a name is taken.
* `Netlist.Flatten.flattenGraph_eq_error`: what flattening fails with if a name is taken.
* `Netlist.Flatten.exists_expands_of_insertable`, `Netlist.Flatten.exists_flattenGraph`: flattening
  succeeds where instances have identifiers for names.
-/

namespace Netlist

namespace Flatten

variable {c : Catalog} {b : Boundary} {g g' work : Graph} {module : String}
  {cells : List (String × String)} {R : String → Graph → Prop}

/-! ### Insides of composites -/

/-- A sound graph with the boundary of a composite. -/
structure Whole (c : Catalog) (module : String) (g : Graph) : Prop where
  wellFormed : g.WellFormed
  sound : g.Sound c
  framed : ∃ input output, g.Framed module input output

/-- A sound graph with no boundary instances but those of a composite. -/
structure Insertable (c : Catalog) (module : String) (g : Graph) : Prop where
  wellFormed : g.WellFormed
  sound : g.Sound c
  bordered : g.Bordered module

theorem Whole.insertable (h : Whole c module g) : Insertable c module g := by
  obtain ⟨input, output, hf⟩ := h.framed
  exact ⟨h.wellFormed, h.sound, hf.bordered⟩

theorem Inlined.sound (h : Inlined c b R g cells g') (hg : g.WellFormed) (hs : g.Sound c) :
    g'.Sound c := by
  induction h with
  | nil => exact hs
  | cons _ hinline _ ih =>
    exact ih (Graph.inline_wellFormed hg hinline) (Graph.inline_sound hg hs hinline)

/-- A sound graph stays sound when it is flattened. -/
theorem sound_dropStray_of_inlined (h : Inlined c b R g cells work) (hg : g.WellFormed)
    (hs : g.Sound c) : (dropStray g work).Sound c :=
  (h.sound hg hs).removeOrphans (h.wellFormed hg) _

/-- The flat inside of a composite is sound and has the boundary of the inside. -/
theorem Expands.sound {f B : Graph} (h : Expands c b module f) (hB : c.body? module = some B)
    (hg : B.WellFormed) (hs : B.Sound c) : f.WellFormed ∧ f.Sound c ∧ f.frame = B.frame := by
  cases h with
  | mk hbody hcells hwork =>
    cases hB.symm.trans hbody
    have hR : ∀ m s, Expands c b m s → LeafCells c s := fun _ _ hs => hs.leafCells
    have hp := pending_of_compositeCells hg.nodup_names hcells
    exact ⟨dropStray_wellFormed (hwork.wellFormed hg), sound_dropStray_of_inlined hwork hg hs,
      (frame_dropStray B _).trans (hwork.frame_eq hg hp hR)⟩

theorem Expands.whole {f B : Graph} (h : Expands c b module f) (hB : c.body? module = some B)
    (hw : Whole c module B) : Whole c module f ∧ f.frame = B.frame := by
  obtain ⟨hg, hs, hframe⟩ := h.sound hB hw.wellFormed hw.sound
  obtain ⟨input, output, hf⟩ := hw.framed
  exact ⟨⟨hg, hs, input, output, hframe.trans hf⟩, hframe⟩

theorem Expands.insertable {f B : Graph} (h : Expands c b module f)
    (hB : c.body? module = some B) (hi : Insertable c module B) : Insertable c module f := by
  obtain ⟨hg, hs, hframe⟩ := h.sound hB hi.wellFormed hi.sound
  exact ⟨hg, hs, by rw [Graph.Bordered, hframe]; exact hi.bordered⟩

/-! ### Sequences of inlinings -/

/-- Composite cells are inlined one after the other up to one of them, the cell `n`, that cannot be
inlined because the name `x` of a cell inside is taken. -/
inductive Collides (c : Catalog) (b : Boundary) (R : String → Graph → Prop) :
    Graph → List (String × String) → String → String → Prop
  | here {g sub : Graph} {name module : String} {cells : List (String × String)} {i : Instance}
      (hsub : R module sub) (hi : i ∈ Inline.cells sub) (htaken : b.join name i.name ∈ g.names)
      (hinline : g.inline c b name sub = .error (.nameCollision (b.join name i.name) name)) :
      Collides c b R g ((name, module) :: cells) (b.join name i.name) name
  | later {g g₁ sub : Graph} {name module x n : String} {cells : List (String × String)}
      (hsub : R module sub) (hinline : g.inline c b name sub = .ok g₁)
      (hrest : Collides c b R g₁ cells x n) : Collides c b R g ((name, module) :: cells) x n

/-- Up to the cell that cannot be inlined, cells are inlined. -/
theorem Collides.exists_prefix {x n : String} (h : Collides c b R g cells x n) :
    ∃ cells₁ m cells₂ g₁ s, cells = cells₁ ++ (n, m) :: cells₂ ∧ Inlined c b R g cells₁ g₁ ∧
      R m s ∧ (∃ i ∈ Inline.cells s, x = b.join n i.name) ∧ x ∈ g₁.names := by
  induction h with
  | here hsub hi htaken _ => exact ⟨[], _, _, _, _, rfl, .nil, hsub, ⟨_, hi, rfl⟩, htaken⟩
  | later hsub hinline _ ih =>
    obtain ⟨cells₁, m, cells₂, g₁, s, rfl, hrun, h⟩ := ih
    exact ⟨_ :: cells₁, m, cells₂, g₁, s, rfl, .cons hsub hinline hrun, h⟩

/-- Composites can be inlined one after the other, up to a name that is taken or to a cell that has
nothing to take its place. -/
theorem inlined_or_stops (hg : g.WellFormed) (hs : g.Sound c) (hp : Pending c g cells)
    (hR : ∀ e ∈ cells, ∀ s, R e.2 s → LeafCells c s ∧ Insertable c e.2 s) :
    (∃ g', Inlined c b R g cells g') ∨ (∃ x n, Collides c b R g cells x n) ∨
      ∃ cells₁ e cells₂ g₁, cells = cells₁ ++ e :: cells₂ ∧ Inlined c b R g cells₁ g₁ ∧
        ¬∃ s, R e.2 s := by
  induction cells generalizing g with
  | nil => exact Or.inl ⟨g, .nil⟩
  | cons e cells ih =>
    by_cases hex : ∃ s, R e.2 s
    · obtain ⟨name, module⟩ := e
      obtain ⟨sub, hsub⟩ := hex
      obtain ⟨hhead, hR⟩ := List.forall_mem_cons.1 hR
      obtain ⟨hleaf, hsubg, hsubs, hbord⟩ := hhead _ hsub
      by_cases hfresh : ∀ i ∈ Inline.cells sub, b.join name i.name ∉ g.names
      · obtain ⟨g₁, h₁⟩ := hbord.exists_inline hg hs hp.head_mem.1 hsubg hsubs hfresh
        rcases ih (Graph.inline_wellFormed hg h₁) (Graph.inline_sound hg hs h₁)
          (hp.inline hleaf h₁) hR with ⟨g', h⟩ | ⟨x, n, h⟩ | ⟨cells₁, e, cells₂, g₂, rfl, h, hnot⟩
        · exact Or.inl ⟨g', .cons hsub h₁ h⟩
        · exact Or.inr (Or.inl ⟨x, n, .later hsub h₁ h⟩)
        · exact Or.inr (Or.inr ⟨_ :: cells₁, e, cells₂, g₂, rfl, .cons hsub h₁ h, hnot⟩)
      · push Not at hfresh
        obtain ⟨i, hi, htaken⟩ := hfresh
        obtain ⟨j, hj, htaken, hinline⟩ := Graph.exists_inline_eq_error hi htaken
        exact Or.inr (Or.inl ⟨_, _, .here hsub hj htaken hinline⟩)
    · exact Or.inr (Or.inr ⟨[], e, cells, g, rfl, .nil, hex⟩)

/-- Composites can be inlined one after the other, unless a name is taken. -/
theorem inlined_or_collides_of_insertable (hg : g.WellFormed) (hs : g.Sound c)
    (hp : Pending c g cells) (hex : ∀ e ∈ cells, ∃ s, R e.2 s)
    (hR : ∀ e ∈ cells, ∀ s, R e.2 s → LeafCells c s ∧ Insertable c e.2 s) :
    (∃ g', Inlined c b R g cells g') ∨ ∃ x n, Collides c b R g cells x n := by
  refine (inlined_or_stops hg hs hp hR).imp_right fun h => h.resolve_right ?_
  rintro ⟨cells₁, e, cells₂, -, rfl, -, hnot⟩
  exact hnot (hex e (List.mem_append_right _ List.mem_cons_self))

theorem exists_inlined_or_collides (hg : g.WellFormed) (hs : g.Sound c) (hp : Pending c g cells)
    (hex : ∀ e ∈ cells, ∃ s, R e.2 s) (hR : ∀ m s, R m s → LeafCells c s ∧ Whole c m s) :
    (∃ g', Inlined c b R g cells g') ∨ ∃ x n, Collides c b R g cells x n :=
  inlined_or_collides_of_insertable hg hs hp hex fun e _ s h =>
    (hR e.2 s h).imp_right Whole.insertable

/-- No name is taken if none is that inlining may create and these differ from cell to cell. -/
theorem not_collides (hp : (cells.map Prod.fst).Nodup)
    (hfresh : ∀ e ∈ cells, ∀ x, b.join e.1 x ∉ g.names)
    (hjoin : ∀ e ∈ cells, ∀ e' ∈ cells, ∀ x x', b.join e.1 x = b.join e'.1 x' → e.1 = e'.1)
    {x n : String} : ¬Collides c b R g cells x n := by
  intro h
  induction h with
  | here _ _ htaken _ => exact hfresh _ List.mem_cons_self _ htaken
  | @later g g₁ sub name module x n cells hsub h₁ _ ih =>
    obtain ⟨hnot, hp⟩ := List.nodup_cons.1 hp
    have hmem {e : String × String} (he : e ∈ cells) : e ∈ (name, module) :: cells :=
      List.mem_cons_of_mem _ he
    refine ih hp (fun e he x hx => ?_) fun e he e' he' => hjoin e (hmem he) e' (hmem he')
    rw [Graph.names, Graph.instances_inline h₁, List.map_append, List.mem_append] at hx
    rcases hx with hx | hx
    · exact hfresh e (hmem he) x (Graph.mem_names_without.1 hx).1
    · obtain ⟨i, hi, hn⟩ := List.mem_map.1 hx
      obtain ⟨j, -, -, rfl⟩ := Inline.mem_innerCells.1 hi
      refine hnot (List.mem_map.2 ⟨e, he, ?_⟩)
      exact hjoin e (hmem he) _ List.mem_cons_self x j.name hn.symm

private theorem expandAll_eq_error {x n : String} (h : Collides c b (Expands c b) g cells x n)
    {p : Progress} (hp : p.underway = []) (hfin : Remembers c b p.finished) :
    expandAll c b p g cells = .error (.nameCollision x n) := by
  have hunder (module : String) : ∀ u ∈ p.underway, Relation.TransGen (Contains c) u module := by
    rw [hp]
    exact fun _ hu => nomatch hu
  induction h generalizing p with
  | here hsub _ _ hinline =>
    obtain ⟨fs, hexp, -⟩ := hsub.exists_expand p hfin (hunder _)
    rw [expandAll]
    simp only [hexp, hinline]
  | later hsub hinline _ ih =>
    obtain ⟨fs, hexp, hfs⟩ := hsub.exists_expand p hfin (hunder _)
    rw [expandAll]
    simp only [hexp, hinline]
    exact ih (p := { p with finished := fs }) hp hfs hunder

/-- A name that is taken is what flattening fails with. -/
theorem flattenGraph_eq_error {x n : String} (hcells : compositeCells c g.instances = .ok cells)
    (h : Collides c b (Expands c b) g cells x n) :
    c.flattenGraph b g = .error (.nameCollision x n) := by
  have hne : cells ≠ [] := by
    rintro rfl
    cases h
  unfold Catalog.flattenGraph
  rw [hcells]
  change (if cells = [] then _ else _) = _
  rw [if_neg hne, expandAll_eq_error h rfl remembers_start]
  rfl

/-! ### Identifiers for names -/

/-- All instances have identifiers for names. -/
def Named (g : Graph) : Prop :=
  ∀ n ∈ g.names, isIdentifier n = true

/-- All cells have identifiers for names. -/
def CellsNamed (g : Graph) : Prop :=
  ∀ i ∈ g.instances, i.role = .cell → isIdentifier i.name = true

theorem Expands.leaf_whole (hc : ∀ m B, c.body? m = some B → Whole c m B) {f : Graph}
    (h : Expands c b module f) : LeafCells c f ∧ Whole c module f := by
  refine ⟨h.leafCells, ?_⟩
  cases h with
  | mk hbody hcells hwork => exact ((Expands.mk hbody hcells hwork).whole hbody (hc _ _ hbody)).1

/-- Where instances have identifiers for names, no name is taken that inlining creates. -/
theorem not_collides_of_named (hb : b.Separates) (hg : g.WellFormed) (hn : Named g)
    (hcells : compositeCells c g.instances = .ok cells) {x n : String} :
    ¬Collides c b R g cells x n := by
  have hid {e : String × String} (he : e ∈ cells) : isIdentifier e.1 = true :=
    hn _ (Graph.mem_names.2 ⟨_, ((mem_compositeCells hcells).1 he).1, rfl⟩)
  exact not_collides (nodup_compositeCells hg.nodup_names hcells)
    (fun e _ x hx => Boundary.not_isIdentifier_join hb (hn _ hx))
    fun e he e' he' x x' h => (Boundary.join_inj_of_isIdentifier hb (hid he) (hid he') h).1

/-- Where instances have identifiers for names, flat insides can be inlined one after the other. -/
theorem exists_inlined_of_named (hb : b.Separates) (hg : g.WellFormed) (hs : g.Sound c)
    (hn : Named g) (hcells : compositeCells c g.instances = .ok cells)
    (hins : ∀ e ∈ cells, ∀ s, Expands c b e.2 s → Insertable c e.2 s)
    (hex : ∀ e ∈ cells, ∃ s, Expands c b e.2 s) :
    ∃ work, Inlined c b (Expands c b) g cells work := by
  have hp := pending_of_compositeCells hg.nodup_names hcells
  refine (inlined_or_collides_of_insertable hg hs hp hex fun e he s h =>
    ⟨h.leafCells, hins e he s h⟩).resolve_right ?_
  rintro ⟨x, n, hcollides⟩
  exact not_collides_of_named hb hg hn hcells hcollides

/-- The cells of a sound graph are registered. -/
theorem exists_compositeCells (hs : g.Sound c) :
    ∃ cells, compositeCells c g.instances = .ok cells :=
  ⟨_, compositeCells_eq_ok_iff.2 ⟨fun i hi _ => hs.registered i hi, rfl⟩⟩

theorem within_of_mem {B : Graph} (hB : c.body? module = some B)
    (hcells : compositeCells c B.instances = .ok cells) {e : String × String} (he : e ∈ cells) :
    c.Within e.2 module :=
  ⟨B, hB, _, ((mem_compositeCells hcells).1 he).1, rfl, rfl⟩

/-- Every composite has a flat inside, if containment is well founded, the insides of composites are
sound, with identifiers for names, and those of the composites that are inside others can be
inserted. -/
theorem exists_expands_of_insertable (hb : b.Separates) (hwf : WellFounded c.Within)
    (hc : ∀ m B, c.body? m = some B → B.WellFormed ∧ B.Sound c ∧ Named B)
    (hbord : ∀ m outer B, c.Within m outer → c.body? m = some B → B.Bordered m) {B : Graph}
    (hB : c.body? module = some B) : ∃ f, Expands c b module f := by
  induction module using hwf.induction generalizing B with
  | _ module ih =>
    obtain ⟨hg, hs, hn⟩ := hc _ _ hB
    obtain ⟨cells, hcells⟩ := exists_compositeCells hs
    have hin {e : String × String} (he : e ∈ cells) : c.Within e.2 module :=
      within_of_mem hB hcells he
    obtain ⟨work, hwork⟩ := exists_inlined_of_named hb hg hs hn hcells
      (fun e he s h => by
        obtain ⟨B', hB'⟩ := ((mem_compositeCells hcells).1 he).2
        obtain ⟨hg', hs', -⟩ := hc _ _ hB'
        exact h.insertable hB' ⟨hg', hs', hbord _ _ _ (hin he) hB'⟩)
      fun e he => by
        obtain ⟨B', hB'⟩ := ((mem_compositeCells hcells).1 he).2
        exact ih _ (hin he) hB'
    exact ⟨_, .mk hB hcells hwork⟩

theorem exists_expands (hb : b.Separates) (hwf : WellFounded c.Within)
    (hc : ∀ m B, c.body? m = some B → Whole c m B ∧ Named B) {B : Graph}
    (hB : c.body? module = some B) : ∃ f, Expands c b module f :=
  exists_expands_of_insertable hb hwf
    (fun m B hB => ⟨(hc m B hB).1.wellFormed, (hc m B hB).1.sound, (hc m B hB).2⟩)
    (fun m _ B _ hB => (hc m B hB).1.insertable.bordered) hB

/-- A sound graph with identifiers for names can be flattened, and stays sound. -/
theorem exists_flattenGraph (hb : b.Separates) (hwf : WellFounded c.Within)
    (hc : ∀ m B, c.body? m = some B → Whole c m B ∧ Named B) (hg : g.WellFormed)
    (hs : g.Sound c) (hn : Named g) :
    ∃ flat, c.flattenGraph b g = .ok flat ∧ flat.WellFormed ∧ flat.Sound c := by
  obtain ⟨cells, hcells⟩ := exists_compositeCells hs
  obtain ⟨work, hwork⟩ := exists_inlined_of_named hb hg hs hn hcells
    (fun e _ s h => (h.leaf_whole fun m B hB => (hc m B hB).1).2.insertable) fun e he => by
      obtain ⟨s, hs⟩ := ((mem_compositeCells hcells).1 he).2
      exact exists_expands hb hwf hc hs
  exact ⟨_, flattenGraph_eq_ok_iff.2 ⟨cells, work, hcells, hwork, rfl⟩,
    dropStray_wellFormed (hwork.wellFormed hg), sound_dropStray_of_inlined hwork hg hs⟩

end Flatten

end Netlist
