import Netlist.Proofs.Catalog.Locality
import Netlist.Proofs.Library.BuildOrder
import Netlist.Proofs.Library.Checked

/-!
# What loading composites gives

A catalog that a library has assembled composites in holds described composites besides what it held
before. Each of them is as it was assembled in an earlier catalog, which knew all that it
instantiates.

## Main definitions

* `Netlist.Library.Filed`: the descriptions in a library are kept under their names.
* `Netlist.Library.Parsed`: the descriptions in a library have been read, each under its name.
* `Netlist.Library.Yields`: a described composite can be put together, with a given inside.
* `Netlist.Library.Gathered`, `Netlist.Library.Loaded`: what assembling composites on top of a
  catalog and on top of leaves gives.

## Main results

* `Netlist.Library.ofDescriptions_filed`: libraries are filed.
* `Netlist.Library.scan_parsed`, `Netlist.Library.ofDescriptions_parsed`: libraries of checked
  descriptions are parsed.
* `Netlist.Library.buildOne_eq_ok_iff`: assembling a composite registers what it yields.
* `Netlist.Library.Yields.of_agreeOn`: a composite yields the same in catalogs that agree on the
  modules in it.
* `Netlist.Library.gathered_keeping`, `Netlist.Library.loaded_keeping`: whatever is assembled, and
  whether or not it can be.
* `Netlist.Library.contains_of_loadAll`: loading everything registers every described composite.
-/

namespace Netlist

open Catalog (Edit)

/-- The module that a description stands for, with a given inside. -/
def Description.toModule (x : Description) (B : Graph) : Module :=
  ⟨x.inputs, x.outputs, some B⟩

namespace Library

variable {c d d' : Catalog} {l l' : Library} {b : Boundary} {name : String} {x : Description}
  {B : Graph}

/-! ### Filed and parsed libraries -/

/-- Each description in a library is kept under its own name. -/
def Filed (l : Library) : Prop :=
  ∀ name x, l.description? name = some x → x.name = name

theorem filed_empty (b : Boundary) : (empty b).Filed :=
  fun _ _ h => nomatch h

theorem Filed.insert {path : Option String} (hl : l.Filed) (h : l.insert x path = .ok l') :
    l'.Filed := by
  intro name y hy
  unfold Library.insert at h
  split at h
  · cases h
    unfold description? at hy
    rw [OrderedMap.get?_insert] at hy
    split_ifs at hy with hname
    · cases hy
      exact hname.symm
    · exact hl name y hy
  · split at h <;> cases h

/-- A library of descriptions is filed, whether or not they pass their checks. -/
theorem ofDescriptions_filed {xs : List Description} (h : ofDescriptions b xs = .ok l) : l.Filed :=
  foldlM_keeps (fun _ _ _ _ hl h₁ => hl.insert h₁) (filed_empty b) h

/-- The descriptions in a library have been read: each is kept under its name, and has passed its
check. -/
structure Parsed (l : Library) : Prop where
  filed : l.Filed
  checked : l.Checked

theorem parsed_of_entries (h : ∀ e ∈ l.entries.entries,
    e.2.description.name = e.1 ∧ e.2.description.check = .ok ()) : l.Parsed := by
  have hentry {name : String} {x : Description} (hx : l.description? name = some x) :
      x.name = name ∧ x.check = .ok () := by
    obtain ⟨e, he, rfl⟩ := Option.map_eq_some_iff.1 hx
    exact h (name, e) (OrderedMap.get?_eq_some_iff.1 he)
  exact ⟨fun _ _ hx => (hentry hx).1, fun _ _ hx => (hentry hx).2⟩

theorem parsed_empty (b : Boundary) : (empty b).Parsed :=
  ⟨filed_empty b, fun _ _ h => (nomatch h)⟩

theorem Parsed.insert {path : Option String} (hl : l.Parsed) (hx : x.check = .ok ())
    (h : l.insert x path = .ok l') : l'.Parsed :=
  ⟨hl.filed.insert h, hl.checked.insert hx h⟩

/-- A library that was collected from files is parsed. -/
theorem scan_parsed {files : FileTree} {dir : String} (h : scan files dir b = .ok l) :
    l.Parsed := by
  refine foldlM_keeps (fun path _ l₁ l₂ hl h₁ => ?_) (parsed_empty b) h
  obtain ⟨text, -, h₁⟩ := bind_eq_ok_iff.1 h₁
  obtain ⟨x, hx, h₁⟩ := bind_eq_ok_iff.1 h₁
  exact hl.insert (check_of_ofText (mapError_eq_ok_iff.1 hx)) h₁

/-- A library of checked descriptions is parsed. -/
theorem ofDescriptions_parsed {xs : List Description} (hxs : ∀ x ∈ xs, x.check = .ok ())
    (h : ofDescriptions b xs = .ok l) : l.Parsed :=
  foldlM_keeps (fun x hx _ _ hl h₁ => hl.insert (hxs x hx) h₁) (parsed_empty b) h

theorem Parsed.isIdentifier (hl : l.Parsed) (h : l.contains name = true) :
    isIdentifier name = true := by
  obtain ⟨x, hx⟩ := contains_iff_description?.1 h
  rw [← hl.filed name x hx]
  exact (Description.check_eq_ok_iff.1 (hl.checked name x hx)).name

/-- No composite is described under the name of a module that exists while another is wired. -/
theorem Parsed.not_contains_scaffold (hl : l.Parsed) (a : Assembly) (block : String) :
    ¬l.contains (a.scaffold block) = true := by
  intro h
  have hpart := all_isPart_of_isIdentifier (hl.isIdentifier h) ':' (by
    simp [Assembly.scaffold])
  exact absurd hpart (by decide)

/-! ### Assembling one composite -/

/-- The names of the modules that the boundary instances of a composite are bound to while it is
wired. -/
def scaffolds (b : Boundary) (name : String) : List String :=
  [name ++ "::" ++ b.inputBlock, name ++ "::" ++ b.outputBlock]

/-- A described composite is new and can be put together, with `B` inside then, and its ports are
legal. -/
structure Yields (c : Catalog) (b : Boundary) (x : Description) (B : Graph) : Prop where
  gives : ∃ g, inside c x = .ok g ∧ (assembly x g).Gives c b B
  ports : Catalog.checkPorts c.types x.name x.inputs x.outputs = .ok ()

namespace Yields

theorem new (h : Yields c b x B) : ¬c.contains x.name = true := by
  obtain ⟨g, -, hB⟩ := h.gives
  exact hB.new

theorem dependencies (h : Yields c b x B) : ∀ m ∈ x.dependencies, c.contains m = true := by
  obtain ⟨g, hg, -⟩ := h.gives
  exact (instances_of_inside hg).2

/-- A new composite with legal ports is registered if it does not contain itself. -/
theorem add (h : Yields c b x B) (hbody : c.checkBody x.name B = .ok ()) :
    c.add x.name (x.toModule B) = .ok (c.put x.name (x.toModule B)) := by
  refine Catalog.add_eq_ok_iff.2 ⟨h.new, h.ports, fun g hg => ?_, rfl⟩
  cases hg
  exact hbody

/-- The instances inside a composite are its cells and its boundary instances. -/
theorem instances_eq (h : Yields c b x B) :
    B.instances = x.cells.map (fun i => ⟨i.name, i.module, .cell⟩) ++
      [⟨b.inputBlock, x.name, .inputBoundary⟩, ⟨b.outputBlock, x.name, .outputBoundary⟩] := by
  obtain ⟨g, hg, hB⟩ := h.gives
  rw [hB.instances_eq (built_of_inside hg).wellFormed]
  exact congrArg (· ++ _) (instances_of_inside hg).1

theorem exists_cell (h : Yields c b x B) {m : String}
    (hm : m ∈ x.dependencies) : ∃ i ∈ B.instances, i.isCell = true ∧ i.module = m := by
  obtain ⟨k, hk, rfl⟩ := mem_dependencies.1 hm
  refine ⟨⟨k.name, k.module, .cell⟩, ?_, rfl, rfl⟩
  rw [h.instances_eq]
  exact List.mem_append_left _ (List.mem_map_of_mem hk)

theorem wellFormed (h : Yields c b x B) : B.WellFormed := by
  obtain ⟨g, hg, hB⟩ := h.gives
  exact hB.wellFormed (built_of_inside hg).wellFormed

theorem sound (h : Yields c b x B) (hbody : c.checkBody x.name B = .ok ()) :
    B.Sound (c.put x.name (x.toModule B)) := by
  obtain ⟨g, hg, hB⟩ := h.gives
  have hin := built_of_inside hg
  exact hB.sound hin.wellFormed hin.sound (h.add hbody)

/-- The modules that the boundary instances of the composite are bound to are new. -/
theorem scaffolds_new (h : Yields c b x B) :
    ∀ taken ∈ scaffolds b x.name, ¬c.contains taken = true := by
  obtain ⟨g, -, hB⟩ := h.gives
  exact List.forall_mem_cons.2 ⟨hB.input_new, List.forall_mem_singleton.2 hB.output_new⟩

/-- A composite yields the same in catalogs that agree on the modules in it, if its names are new
there. -/
theorem of_agreeOn (h : Yields c b x B) (hagree : c.AgreeOn (· ∈ x.dependencies) d)
    (hname : ¬d.contains x.name = true)
    (hfree : ∀ taken ∈ scaffolds b x.name, ¬d.contains taken = true) : Yields d b x B where
  gives := by
    obtain ⟨g, hg, hB⟩ := h.gives
    have hdeps : ∀ m ∈ x.dependencies, m ∈ x.dependencies := fun _ hm => hm
    obtain ⟨hin, hfree⟩ := List.forall_mem_cons.1 hfree
    refine ⟨g, (inside_congr hagree hdeps).symm.trans hg, ?_⟩
    exact hB.of_agreeOn hagree (boundTo_of_inside hdeps hg) hname hin
      (hfree _ (List.mem_singleton_self _))
  ports := hagree.types ▸ h.ports

end Yields

/-- Assembling a composite registers what it yields. -/
theorem buildOne_eq_ok_iff {u : Unit} : (buildOne b x).runOn c = (.ok u, d) ↔
    ∃ B, Yields c b x B ∧ c.checkBody x.name B = .ok () ∧ d = c.put x.name (x.toModule B) := by
  unfold buildOne
  rw [Edit.runOn_bind_eq_ok_iff]
  constructor
  · rintro ⟨g, _, hquery, hregister⟩
    obtain ⟨hg, rfl⟩ := Edit.runOn_query_eq_ok_iff.1 hquery
    obtain ⟨B, hB, hadd⟩ := Assembly.register_eq_ok_iff.1 hregister
    obtain ⟨-, hports, hbody, rfl⟩ := Catalog.add_eq_ok_iff.1 hadd
    exact ⟨B, ⟨⟨g, hg, hB⟩, hports⟩, hbody B rfl, rfl⟩
  · rintro ⟨B, hy, hbody, rfl⟩
    obtain ⟨g, hg, hB⟩ := hy.gives
    exact ⟨g, c, Edit.runOn_query_eq_ok_iff.2 ⟨hg, rfl⟩,
      Assembly.register_eq_ok_iff.2 ⟨B, hB, hy.add hbody⟩⟩

/-- A composite is assembled if its names are new, its ports legal and its cells and wires in order,
and if it does not contain itself. -/
theorem buildOne_of_checks {g : Graph} (hinside : inside c x = .ok g)
    (hnames : (assembly x g).check c = .ok () ∧
      ¬c.contains ((assembly x g).scaffold b.inputBlock) = true ∧
      ¬c.contains ((assembly x g).scaffold b.outputBlock) = true ∧
      (assembly x g).scaffold b.outputBlock ≠ (assembly x g).scaffold b.inputBlock)
    (hports : Catalog.checkPorts c.types x.name x.inputs x.outputs = .ok ())
    (hwired : (assembly x g).wire ((assembly x g).scaffolded c b) b >>= (assembly x g).settle b =
      .ok B)
    (hbody : c.checkBody x.name B = .ok ()) :
    (buildOne b x).runOn c = (.ok (), c.put x.name (x.toModule B)) := by
  obtain ⟨hcheck, hin, hout, hne⟩ := hnames
  exact buildOne_eq_ok_iff.2 ⟨B, ⟨⟨g, hinside, hcheck, hin, hout, hne, bind_eq_ok_iff.1 hwired⟩,
    hports⟩, hbody, rfl⟩

/-- A composite is refused for its wires if its names are new, its ports legal and its cells in
order. -/
theorem buildOne_of_wire_eq_error {g : Graph} {e : Error} (hinside : inside c x = .ok g)
    (hnames : (assembly x g).check c = .ok () ∧
      ¬c.contains ((assembly x g).scaffold b.inputBlock) = true ∧
      ¬c.contains ((assembly x g).scaffold b.outputBlock) = true ∧
      (assembly x g).scaffold b.outputBlock ≠ (assembly x g).scaffold b.inputBlock)
    (hports : Catalog.checkPorts c.types x.name x.inputs x.outputs = .ok ())
    (hwire : (assembly x g).wire ((assembly x g).scaffolded c b) b = .error e) :
    (buildOne b x).runOn c = (.error e, c) :=
  Edit.runOn_bind_eq_error_iff.2 (.inr ⟨g, c, Edit.runOn_query_eq_ok_iff.2 ⟨hinside, rfl⟩,
    Assembly.register_of_wire_eq_error hnames hports hwire⟩)

/-- Where a composite would yield something but for a module that has a name it needs for its
boundary instances, it is refused for such a name. -/
theorem Yields.buildOne_eq_duplicate (h : Yields c b x B)
    (hagree : c.AgreeOn (· ∈ x.dependencies) d) (hname : ¬d.contains x.name = true) {taken : String}
    (hmem : taken ∈ scaffolds b x.name) (htaken : d.contains taken = true) :
    ∃ taken ∈ scaffolds b x.name, d.contains taken = true ∧
      (buildOne b x).runOn d = (.error (.duplicateModule taken), d) := by
  obtain ⟨g, hg, hB⟩ := h.gives
  have hg' : inside d x = .ok g := (inside_congr hagree fun _ hm => hm).symm.trans hg
  have hcheck : (assembly x g).check d = .ok () :=
    Assembly.check_eq_ok_iff.2 ⟨hname, (Assembly.check_eq_ok_iff.1 hB.check).2⟩
  have hports : Catalog.checkPorts d.types x.name x.inputs x.outputs = .ok () :=
    hagree.types ▸ h.ports
  obtain ⟨taken, hmem, htaken, hrun⟩ :=
    Assembly.register_eq_duplicate (b := b) hcheck hports hmem htaken
  refine ⟨taken, hmem, htaken, Edit.runOn_bind_eq_error_iff.2 (.inr ⟨g, d, ?_, hrun⟩)⟩
  exact Edit.runOn_query_eq_ok_iff.2 ⟨hg', rfl⟩

/-- A composite that cannot be assembled, because its cells and wires are not in order or it is
refused with them, leaves the catalog as it was. -/
theorem refused_of_buildOne {e : Error} (h : (buildOne b x).runOn c = (.error e, d)) :
    (inside c x = .error e ∨
      ∃ g, inside c x = .ok g ∧ Assembly.Refused c b (assembly x g) e) ∧ d = c := by
  rw [buildOne, Edit.runOn_bind_eq_error_iff] at h
  obtain h | ⟨g, _, hquery, h⟩ := h
  · obtain ⟨h, rfl⟩ := Edit.runOn_query_eq_error_iff.1 h
    exact ⟨.inl h, rfl⟩
  · obtain ⟨hg, rfl⟩ := Edit.runOn_query_eq_ok_iff.1 hquery
    obtain ⟨h, rfl⟩ := Assembly.refused_of_register h
    exact ⟨.inr ⟨g, hg, h⟩, rfl⟩

theorem buildOne_eq_error {e : Error} (h : (buildOne b x).runOn c = (.error e, d)) : d = c :=
  (refused_of_buildOne h).2

/-- Assembling a composite keeps what holds on when the composite is registered. -/
theorem buildOne_keeps_of {I : Catalog → Prop} (h : ∀ c B, I c → Yields c b x B →
    c.checkBody x.name B = .ok () → I (c.put x.name (x.toModule B))) : Keeps I (buildOne b x) := by
  refine Edit.keeps_of_runOn fun c r d hc hrun => ?_
  cases r with
  | error e => exact buildOne_eq_error hrun ▸ hc
  | ok u =>
    obtain ⟨B, hy, hbody, rfl⟩ := buildOne_eq_ok_iff.1 hrun
    exact h c B hc hy hbody

/-! ### Loaded catalogs -/

/-- A described composite is registered as it was assembled in an earlier catalog. -/
structure Recorded (l : Library) (c d : Catalog) (name : String) (x : Description) (B : Graph) :
    Prop where
  described : l.description? name = some x
  registered : d.module? name = some (x.toModule B)
  yields : ∃ c', c'.types = c.types ∧ c.Grows c' ∧ c'.Grows d ∧ Yields c' l.boundary x B

theorem Recorded.mono (h : Recorded l c d name x B) (hd : d.Grows d') :
    Recorded l c d' name x B := by
  obtain ⟨c', htypes, hc, hc', hy⟩ := h.yields
  exact ⟨h.described, hd.module? _ _ h.registered, c', htypes, hc, hc'.trans hd, hy⟩

/-- What assembling described composites on top of a catalog gives: nothing else is added, and there
is no endless way into what is. -/
structure Gathered (l : Library) (c d : Catalog) : Prop where
  types : d.types = c.types
  grows : c.Grows d
  acc : ∀ m, ¬c.contains m = true → Acc d.Within m
  recorded : ∀ m, d.contains m = true → c.contains m = true ∨ ∃ x B, Recorded l c d m x B

namespace Gathered

/-- A catalog in which nothing has been assembled. -/
theorem refl (l : Library) (c : Catalog) : Gathered l c c where
  types := rfl
  grows := .refl
  acc m hm := by
    refine Acc.intro m fun n hin => ?_
    obtain ⟨g, hg, -⟩ := hin
    exact absurd (OrderedMap.contains_iff_mem_keys.2 (Catalog.mem_names_of_body? hg)) hm
  recorded _ hm := .inl hm

theorem step (hl : l.Filed) (hd : Gathered l c d) (hx : l.description? name = some x)
    (hy : Yields d l.boundary x B) (hbody : d.checkBody x.name B = .ok ()) :
    Gathered l c (d.put x.name (x.toModule B)) := by
  have hname := hl name x hx
  have hgrows : d.Grows (d.put x.name (x.toModule B)) := .put hy.new _
  have hacc : Acc (d.put x.name (x.toModule B)).Within x.name :=
    Catalog.acc_within_put fun g hg => Option.some.inj hg ▸ hbody
  refine ⟨hd.types, hd.grows.trans hgrows,
    fun m hm => Catalog.acc_within_put_of_acc hacc (hd.acc m hm), fun m hm => ?_⟩
  by_cases hmx : m = x.name
  · refine .inr ⟨x, B, by rw [hmx, hname, hx], ?_, d, hd.types, hd.grows, hgrows, hy⟩
    rw [Catalog.module?_put, if_pos hmx]
  · refine (hd.recorded m ((Catalog.contains_put.1 hm).resolve_left hmx)).imp_right ?_
    rintro ⟨y, B', hrec⟩
    exact ⟨y, B', hrec.mono hgrows⟩

end Gathered

/-- Whatever a library assembles, and whether or not it can be assembled, catalogs stay gathered. -/
theorem gathered_keeping (hl : l.Filed) (c : Catalog) : l.Keeping (Gathered l c) :=
  fun _ _ hx => buildOne_keeps_of fun _ _ hd hy hbody => hd.step hl hx hy hbody

/-- What assembling described composites on top of leaves gives: nothing else is added, containment
is well founded, and the insides of composites are sound. -/
structure Loaded (l : Library) (c d : Catalog) : Prop where
  types : d.types = c.types
  grows : c.Grows d
  wellFounded : WellFounded d.Within
  inside : ∀ m B, d.body? m = some B → B.WellFormed ∧ B.Sound d
  recorded : ∀ m, d.contains m = true → c.contains m = true ∨ ∃ x B, Recorded l c d m x B

namespace Loaded

theorem gathered (h : Loaded l c d) : Gathered l c d :=
  ⟨h.types, h.grows, fun m _ => h.wellFounded.apply m, h.recorded⟩

/-- A catalog of leaves, in which nothing has been assembled. -/
theorem of_leaves (l : Library) (hc : ∀ m, c.body? m = none) : Loaded l c c where
  types := rfl
  grows := .refl
  wellFounded := (Catalog.Tidy.of_leaves hc).wellFounded
  inside m _ hB := nomatch (hc m).symm.trans hB
  recorded _ hm := .inl hm

theorem step (hl : l.Filed) (hd : Loaded l c d) (hx : l.description? name = some x)
    (hy : Yields d l.boundary x B) (hbody : d.checkBody x.name B = .ok ()) :
    Loaded l c (d.put x.name (x.toModule B)) := by
  obtain ⟨htypes, hgrows, -, hrecorded⟩ := hd.gathered.step hl hx hy hbody
  refine ⟨htypes, hgrows, Catalog.wellFounded_within_add hd.wellFounded (hy.add hbody),
    fun m B' hB' => ?_, hrecorded⟩
  rw [Catalog.body?_put] at hB'
  split_ifs at hB'
  · cases hB'
    exact ⟨hy.wellFormed, hy.sound hbody⟩
  · obtain ⟨hw, hs⟩ := hd.inside m B' hB'
    exact ⟨hw, hs.mono (.put hy.new _)⟩

end Loaded

/-- Whatever a library assembles, and whether or not it can be assembled, catalogs stay loaded. -/
theorem loaded_keeping (hl : l.Filed) (c : Catalog) : l.Keeping (Loaded l c) :=
  fun _ _ hx => buildOne_keeps_of fun _ _ hd hy hbody => hd.step hl hx hy hbody

/-! ### Loading everything -/

/-- A composite is assembled if there is an order for it and each composite in the order is. -/
theorem build_eq_ok_iff {order : List String} : (l.build name).runOn c = (.ok order, d) ↔
    l.buildOrder c name = .ok order ∧ (order.forM l.buildListed).runOn c = (.ok (), d) := by
  rw [build_eq, Edit.runOn_bind_eq_ok_iff]
  constructor
  · rintro ⟨order', c', hquery, h⟩
    obtain ⟨horder, rfl⟩ := Edit.runOn_query_eq_ok_iff.1 hquery
    obtain ⟨_, _, hforM, hreturn⟩ := Edit.runOn_bind_eq_ok_iff.1 h
    cases hreturn
    exact ⟨horder, hforM⟩
  · rintro ⟨horder, hforM⟩
    exact ⟨order, c, Edit.runOn_query_eq_ok_iff.2 ⟨horder, rfl⟩,
      Edit.runOn_bind_eq_ok_iff.2 ⟨(), d, hforM, rfl⟩⟩

theorem build_of_forM_error {order : List String} {e : Error}
    (horder : l.buildOrder c name = .ok order)
    (h : (order.forM l.buildListed).runOn c = (.error e, d)) :
    (l.build name).runOn c = (.error e, d) := by
  rw [build_eq, Edit.runOn_bind, Edit.runOn_query, horder]
  exact Edit.runOn_bind_eq_error_iff.2 (.inl h)

/-- A composite that can be assembled by itself needs no other one to be assembled. -/
theorem build_of_buildListed (hl : l.Filed) (hname : l.contains name = true)
    (h : (l.buildListed name).runOn c = (.ok (), d)) :
    (l.build name).runOn c = (.ok [name], d) := by
  obtain ⟨x, hx⟩ := contains_iff_description?.1 hname
  have hone := h
  rw [buildListed, hx] at hone
  obtain ⟨B, hy, -, -⟩ := buildOne_eq_ok_iff.1 hone
  obtain rfl := hl name x hx
  exact build_eq_ok_iff.2 ⟨buildOrder_of_registered hx hy.new hy.dependencies,
    Edit.runOn_bind_eq_ok_iff.2 ⟨(), d, h, rfl⟩⟩

theorem load_of_build {order : List String} (hname : l.contains name = true)
    (h : (l.build name).runOn c = (.ok order, d)) : (l.load name).runOn c = (.ok true, d) := by
  rw [load, if_pos hname]
  exact Edit.runOn_bind_eq_ok_iff.2 ⟨order, d, h, rfl⟩

theorem load_of_build_error {e : Error} (hname : l.contains name = true)
    (h : (l.build name).runOn c = (.error e, d)) : (l.load name).runOn c = (.error e, d) := by
  rw [load, if_pos hname]
  exact Edit.runOn_bind_eq_error_iff.2 (.inl h)

theorem runOn_buildAll_of_contains {names : List String} (h : c.contains name = true) :
    (l.buildAll (name :: names)).runOn c = (l.buildAll names).runOn c := by
  rw [buildAll, Edit.runOn_get_bind, if_pos h]

theorem runOn_buildAll_of_build {e : Catalog} {names order : List String} {n : Nat}
    (h : ¬c.contains name = true) (hbuild : (l.build name).runOn c = (.ok order, d))
    (hrest : (l.buildAll names).runOn d = (.ok n, e)) :
    (l.buildAll (name :: names)).runOn c = (.ok (order.length + n), e) := by
  rw [buildAll, Edit.runOn_get_bind, if_neg h]
  exact Edit.runOn_bind_eq_ok_iff.2 ⟨order, d, hbuild,
    Edit.runOn_bind_eq_ok_iff.2 ⟨n, e, hrest, rfl⟩⟩

/-- The catalog after some composites were assembled knows what it knew before. -/
theorem grows_of_forM {order : List String} {u : Unit}
    (h : (order.forM l.buildListed).runOn c = (.ok u, d)) : c.Grows d :=
  Edit.of_keeps ((Keeping.of_enduring (Catalog.enduring_grows c) l).forM order) .refl h

theorem contains_of_forM (hl : l.Filed) {order : List String} {u : Unit}
    (h : (order.forM l.buildListed).runOn c = (.ok u, d)) {m : String} (hm : m ∈ order)
    (hdescribed : l.contains m = true) : d.contains m = true := by
  obtain ⟨x, hx⟩ := contains_iff_description?.1 hdescribed
  obtain ⟨c₁, c₂, rest, hone, hrest⟩ := Edit.exists_of_runOn_forM_eq_ok h hm
  rw [buildListed, hx] at hone
  obtain ⟨B, -, -, rfl⟩ := buildOne_eq_ok_iff.1 hone
  exact (grows_of_forM hrest).contains (Catalog.contains_put.2 (.inl (hl m x hx).symm))

theorem contains_of_buildAll (hl : l.Filed) {names : List String} {n : Nat}
    (h : (l.buildAll names).runOn c = (.ok n, d)) :
    ∀ m ∈ names, l.contains m = true → d.contains m = true := by
  have hgrows {names : List String} {c d : Catalog} {n : Nat}
      (h : (l.buildAll names).runOn c = (.ok n, d)) : c.Grows d :=
    Edit.of_keeps ((Keeping.of_enduring (Catalog.enduring_grows c) l).buildAll names) .refl h
  induction names generalizing c n with
  | nil => exact fun _ hm => nomatch hm
  | cons name names ih =>
    rw [buildAll, Edit.runOn_get_bind] at h
    split_ifs at h with hname
    · exact List.forall_mem_cons.2 ⟨fun _ => (hgrows h).contains hname, ih h⟩
    · obtain ⟨order, c₁, hbuild, h⟩ := Edit.runOn_bind_eq_ok_iff.1 h
      obtain ⟨n', c₂, hrest, h⟩ := Edit.runOn_bind_eq_ok_iff.1 h
      cases h
      refine List.forall_mem_cons.2 ⟨fun hdescribed => (hgrows hrest).contains ?_, ih hrest⟩
      obtain ⟨horder, hforM⟩ := build_eq_ok_iff.1 hbuild
      exact contains_of_forM hl hforM (mem_of_buildOrder horder hname) hdescribed

/-- Loading everything registers every described composite. -/
theorem contains_of_loadAll (hl : l.Filed) {n : Nat} (h : l.loadAll.runOn c = (.ok n, d))
    {m : String} (hm : l.contains m = true) : d.contains m = true :=
  contains_of_buildAll hl h m (OrderedMap.contains_iff_mem_keys.1 hm) hm

end Library

end Netlist
