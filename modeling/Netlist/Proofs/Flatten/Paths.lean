import Netlist.Proofs.Flatten.Hierarchy
import Netlist.Proofs.Flatten.Success

/-!
# Names of paths

A cell in nested composites gets the names of the composite cells around it in front of its own
when the composites are taken apart, the outermost first. The separator may begin or end like an
identifier, and where it meets a name, parts of it may be found once more. But it has a character
that no identifier has, and the first such character in the name of a path is in the first
separator. So a path can be told from its name.

## Main definitions

* `Netlist.Boundary.joinPath`: the name of a path; `Netlist.Boundary.IsPath` are the paths of
  instances that have identifiers for names.
* `Netlist.Hierarchy.LeafAt`: the leaves of a hierarchy, with `Netlist.Hierarchy.flatCell`, the
  cells that they become.

## Main results

* `Netlist.Boundary.separates_iff_joinPath_inj`: paths can be told from their names exactly if the
  separator has a character that no identifier has.
* `Netlist.Config.joinPath_unambiguous`: so they can under all settings that are accepted.
* `Netlist.Hierarchy.flatName_inj_of_graphAt`: no two instances in a hierarchy have the same name.
* `Netlist.Hierarchy.Connects.existsUnique`: a wire that a hierarchy amounts to tells where in the
  hierarchy its ends are.
* `Netlist.Flatten.existsUnique_leafAt`: each cell of a flattened graph is told by its name to be
  one leaf of the hierarchy.
-/

namespace Netlist

namespace Boundary

variable {b : Boundary} {n x : String} {path path' : List String}

/-! ### Joined paths -/

/-- The names on a path, joined from the right. The path begins with the outermost name. -/
def joinPath (b : Boundary) : List String → String
  | [] => ""
  | [name] => name
  | name :: next :: path => b.join name (b.joinPath (next :: path))

/-- A path of instances that have identifiers for names. -/
def IsPath (path : List String) : Prop :=
  path ≠ [] ∧ ∀ name ∈ path, isIdentifier name = true

instance (path : List String) : Decidable (IsPath path) :=
  inferInstanceAs (Decidable (_ ∧ _))

@[simp] theorem joinPath_singleton (b : Boundary) (name : String) : b.joinPath [name] = name :=
  rfl

theorem joinPath_cons (h : path ≠ []) (name : String) :
    b.joinPath (name :: path) = b.join name (b.joinPath path) := by
  cases path with
  | nil => exact absurd rfl h
  | cons next path => rfl

/-- The name of a path of two or more instances is no identifier. -/
theorem not_isIdentifier_joinPath (hb : b.Separates) (h : 2 ≤ path.length) :
    ¬isIdentifier (b.joinPath path) = true := by
  match path, h with
  | _ :: _ :: _, _ => exact not_isIdentifier_join hb

/-- Different paths have different names. -/
theorem joinPath_inj (hb : b.Separates) (hp : IsPath path) (hp' : IsPath path') :
    b.joinPath path = b.joinPath path' ↔ path = path' := by
  refine ⟨fun h => ?_, congrArg _⟩
  induction path generalizing path' with
  | nil => exact absurd rfl hp.1
  | cons n path ih =>
    obtain ⟨hn, hid⟩ := List.forall_mem_cons.1 hp.2
    cases path' with
    | nil => exact absurd rfl hp'.1
    | cons n' path' =>
      obtain ⟨hn', hid'⟩ := List.forall_mem_cons.1 hp'.2
      -- the name of one instance is an identifier, and that of a longer path is not
      by_cases hnil : path = [] <;> by_cases hnil' : path' = []
      · subst hnil hnil'
        rw [joinPath_singleton, joinPath_singleton] at h
        rw [h]
      · subst hnil
        rw [joinPath_singleton, joinPath_cons hnil'] at h
        exact absurd (h ▸ hn) (not_isIdentifier_join hb)
      · subst hnil'
        rw [joinPath_singleton, joinPath_cons hnil] at h
        exact absurd (h ▸ hn') (not_isIdentifier_join hb)
      · rw [joinPath_cons hnil, joinPath_cons hnil'] at h
        obtain ⟨rfl, hrest⟩ := join_inj_of_isIdentifier hb hn hn' h
        rw [ih ⟨hnil, hid⟩ ⟨hnil', hid'⟩ hrest]

/-! ### Separators that do not separate -/

/-- Where the separator has only characters of identifiers, joined identifiers are identifiers. -/
theorem isIdentifier_join (hb : ¬b.Separates) (hn : isIdentifier n = true)
    (hx : isIdentifier x = true) : isIdentifier (b.join n x) = true := by
  have hsep : b.separator.toList.all Identifier.isPart = true := by
    simpa only [Separates, Bool.not_eq_false] using hb
  have hall := all_isPart_of_isIdentifier hx
  unfold isIdentifier at hn ⊢
  rw [toList_join]
  cases hl : n.toList with
  | nil =>
    rw [hl] at hn
    cases hn
  | cons y ys =>
    rw [hl, Identifier.spells, Bool.and_eq_true] at hn
    rw [List.cons_append, Identifier.spells, List.all_append, List.all_append, hn.1, hn.2, hsep,
      List.all_eq_true.2 hall]
    rfl

/-- Names of paths are unambiguous exactly if the separator has a character that no identifier
has. -/
theorem separates_iff_joinPath_inj : b.Separates ↔ ∀ path path' : List String, IsPath path →
    IsPath path' → b.joinPath path = b.joinPath path' → path = path' := by
  refine ⟨fun hb path path' hp hp' => (joinPath_inj hb hp hp').1, fun h => ?_⟩
  by_contra hb
  -- the name of two instances can be the name of one, on either side of a third one
  have hid : isIdentifier (b.join "x" "x") = true := isIdentifier_join hb (by decide) (by decide)
  have hlen : (b.join "x" "x").length ≠ "x".length := by
    rw [join, String.length_append, String.length_append]
    have hone : "x".length = 1 := rfl
    omega
  have heq : b.joinPath [b.join "x" "x", "x"] = b.joinPath ["x", b.join "x" "x"] := by
    simp only [joinPath, join, String.append_assoc]
  have hx : ∀ name ∈ [b.join "x" "x", "x"], isIdentifier name = true :=
    List.forall_mem_cons.2 ⟨hid, by decide⟩
  have hx' : ∀ name ∈ ["x", b.join "x" "x"], isIdentifier name = true :=
    List.forall_mem_cons.2 ⟨by decide, List.forall_mem_singleton.2 hid⟩
  have hpaths := h _ _ ⟨List.cons_ne_nil _ _, hx⟩ ⟨List.cons_ne_nil _ _, hx'⟩ heq
  exact hlen (congrArg String.length (List.cons.inj hpaths).1)

end Boundary

/-! ### Accepted settings -/

/-- Under all settings that are accepted, the names of paths are unambiguous: different paths of
identifiers have different names, and the name of two or more identifiers is none itself. -/
theorem Config.joinPath_unambiguous {text : String} {config : Config}
    (h : Config.ofText text = .ok config) :
    (∀ path path' : List String, Boundary.IsPath path → Boundary.IsPath path' →
      (config.boundary.joinPath path = config.boundary.joinPath path' ↔ path = path')) ∧
    ∀ path : List String, Boundary.IsPath path → 2 ≤ path.length →
      ¬isIdentifier (config.boundary.joinPath path) = true := by
  obtain ⟨-, -, -, hb⟩ := Boundary.check_eq_ok_iff.1 (Config.check_of_ofText h)
  exact ⟨fun _ _ => Boundary.joinPath_inj hb, fun _ _ => Boundary.not_isIdentifier_joinPath hb⟩

namespace Sample

/-- Settings with a separator that begins and ends with a character of identifiers. -/
def overlappingText : String :=
  "[project]\nname = \"demo\"\ntop = \"top\"\n[boundary]\nseparator = \"a.b.a\"\n"

/-- What these settings are. -/
def overlapping : Config where
  name := "demo"
  version := ""
  remark := ""
  top := "top"
  boundary := { Boundary.standard with separator := "a.b.a" }
  paths := .standard

end Sample

theorem Config.joinPath_unambiguous_overlapping :
    Config.ofText Sample.overlappingText = .ok Sample.overlapping ∧
      Boundary.IsPath ["xa", "b", "a"] ∧ Boundary.IsPath ["x", "ab", "a"] ∧
      Sample.overlapping.boundary.joinPath ["xa", "b", "a"] ≠
        Sample.overlapping.boundary.joinPath ["x", "ab", "a"] ∧
      ¬isIdentifier (Sample.overlapping.boundary.joinPath ["xa", "b", "a"]) = true := by
  have hread : Config.ofText Sample.overlappingText = .ok Sample.overlapping := by decide +kernel
  have hp : Boundary.IsPath ["xa", "b", "a"] := by decide
  have hp' : Boundary.IsPath ["x", "ab", "a"] := by decide
  obtain ⟨hinj, hjoined⟩ := Config.joinPath_unambiguous hread
  exact ⟨hread, hp, hp', (hinj _ _ hp hp').not.2 (by decide), hjoined _ hp (by decide)⟩

/-! ### Places in a hierarchy -/

namespace Hierarchy

variable {b : Boundary} {inside : String → Option Graph} {top g B : Graph} {path : List String}

/-- The name of a place is that of the path to it from the outside. -/
theorem flatName_eq_joinPath (b : Boundary) (path : List String) (x : String) :
    flatName b path x = b.joinPath (path.reverse ++ [x]) := by
  induction path using List.reverseRecOn with
  | nil => rfl
  | append_singleton path n ih =>
    rw [flatName_append, ih, List.reverse_append, List.reverse_singleton, List.singleton_append,
      List.cons_append, Boundary.joinPath_cons (List.append_ne_nil_of_right_ne_nil _ (by simp))]

/-- Places at the ends of different paths of identifiers have different names. -/
theorem flatName_inj (hb : b.Separates) {path path' : List String} {x x' : String}
    (hp : ∀ n ∈ path, isIdentifier n = true) (hx : isIdentifier x = true)
    (hp' : ∀ n ∈ path', isIdentifier n = true) (hx' : isIdentifier x' = true) :
    flatName b path x = flatName b path' x' ↔ path = path' ∧ x = x' := by
  have hpath {p : List String} {y : String} (hp : ∀ n ∈ p, isIdentifier n = true)
      (hy : isIdentifier y = true) : Boundary.IsPath (p.reverse ++ [y]) := by
    refine ⟨List.append_ne_nil_of_right_ne_nil _ (List.cons_ne_nil _ _), ?_⟩
    exact List.forall_mem_append.2
      ⟨fun n hn => hp n (List.mem_reverse.1 hn), List.forall_mem_singleton.2 hy⟩
  rw [flatName_eq_joinPath, flatName_eq_joinPath,
    Boundary.joinPath_inj hb (hpath hp hx) (hpath hp' hx'), ← List.concat_eq_append,
    ← List.concat_eq_append, List.concat_inj, List.reverse_inj]

/-- A cell without an inside, in the graph to which a path of cells leads. The path begins with the
innermost cell. -/
def LeafAt (inside : String → Option Graph) (top : Graph) (path : List String) (i : Instance) :
    Prop :=
  ∃ g, graphAt inside top path = some g ∧ g.instance? i.name = some i ∧ i.role = .cell ∧
    inside i.module = none

/-- The cell that a leaf becomes. -/
def flatCell (b : Boundary) (path : List String) (i : Instance) : Instance :=
  ⟨flatName b path i.name, i.module, .cell⟩

/-- A leaf inside a composite cell is a leaf of the whole hierarchy. -/
theorem LeafAt.append {n : String} (hB : insideOf inside top n = some B) {i : Instance}
    (h : LeafAt inside B path i) : LeafAt inside top (path ++ [n]) i := by
  unfold LeafAt
  rwa [graphAt_append hB]

/-- At the end of a path there is one leaf of a name. -/
theorem LeafAt.unique {i j : Instance} (hi : LeafAt inside top path i)
    (hj : LeafAt inside top path j) (h : i.name = j.name) : i = j := by
  obtain ⟨g, hg, hi, -⟩ := hi
  obtain ⟨g', hg', hj, -⟩ := hj
  cases hg.symm.trans hg'
  exact Option.some.inj (hi.symm.trans (h ▸ hj))

theorem LeafAt.exists_mem_names {i : Instance} (h : LeafAt inside top path i) :
    ∃ g, graphAt inside top path = some g ∧ i.name ∈ g.names := by
  obtain ⟨g, hg, hi, -⟩ := h
  exact ⟨g, hg, Graph.mem_names_of_instance? hi⟩

/-- At a pin there is an instance. -/
theorem IsPin.exists_mem_names {p : Place} (h : IsPin inside top p) :
    ∃ g, graphAt inside top p.path = some g ∧ p.port.owner ∈ g.names := by
  rcases h with ⟨g, i, hg, hi, -⟩ | ⟨hp, i, hi, -⟩
  · exact ⟨g, hg, Graph.mem_names_of_instance? hi⟩
  · exact ⟨top, hp ▸ rfl, Graph.mem_names_of_instance? hi⟩

/-! ### Hierarchies with identifiers for names -/

section Named

variable (hin : ∀ m B, inside m = some B → Flatten.Named B) (htop : Flatten.Named top)
include hin htop

/-- If all instances have identifiers for names, paths lead through identifiers. -/
theorem isIdentifier_of_graphAt (h : graphAt inside top path = some g) :
    (∀ n ∈ path, isIdentifier n = true) ∧ Flatten.Named g := by
  induction path generalizing g with
  | nil =>
    cases h
    exact ⟨List.forall_mem_nil _, htop⟩
  | cons n path ih =>
    obtain ⟨g', hg', hinside⟩ := graphAt_cons_eq_some_iff.1 h
    obtain ⟨hpath, hnamed⟩ := ih hg'
    obtain ⟨i, hi, -, hm⟩ := insideOf_eq_some_iff.1 hinside
    have hn : n ∈ g'.names := Graph.mem_names_of_instance? hi
    exact ⟨List.forall_mem_cons.2 ⟨hnamed n hn, hpath⟩, hin _ _ hm⟩

/-- No two instances in a hierarchy have the same name. -/
theorem flatName_inj_of_graphAt (hb : b.Separates) {path' : List String} {g' : Graph}
    {x x' : String} (hg : graphAt inside top path = some g) (hx : x ∈ g.names)
    (hg' : graphAt inside top path' = some g') (hx' : x' ∈ g'.names) :
    flatName b path x = flatName b path' x' ↔ path = path' ∧ x = x' := by
  obtain ⟨hp, hnamed⟩ := isIdentifier_of_graphAt hin htop hg
  obtain ⟨hp', hnamed'⟩ := isIdentifier_of_graphAt hin htop hg'
  exact flatName_inj hb hp (hnamed x hx) hp' (hnamed' x' hx')

/-- No two leaves become the same cell. -/
theorem flatCell_inj (hb : b.Separates) {path' : List String} {i j : Instance}
    (hi : LeafAt inside top path i) (hj : LeafAt inside top path' j) :
    flatCell b path i = flatCell b path' j ↔ path = path' ∧ i = j := by
  refine ⟨fun h => ?_, fun h => h.1 ▸ h.2 ▸ rfl⟩
  obtain ⟨g, hg, hmem⟩ := hi.exists_mem_names
  obtain ⟨g', hg', hmem'⟩ := hj.exists_mem_names
  obtain ⟨rfl, hname⟩ := (flatName_inj_of_graphAt hin htop hb hg hmem hg' hmem').1
    (congrArg Instance.name h)
  exact ⟨rfl, hi.unique hj hname⟩

/-- No two pins have the same name. -/
theorem IsPin.flat_inj (hb : b.Separates) {p q : Place} (hp : IsPin inside top p)
    (hq : IsPin inside top q) : p.flat b = q.flat b ↔ p = q := by
  obtain ⟨path, owner, port⟩ := p
  obtain ⟨path', owner', port'⟩ := q
  obtain ⟨g, hg, hmem⟩ := hp.exists_mem_names
  obtain ⟨g', hg', hmem'⟩ := hq.exists_mem_names
  rw [Place.flat, Place.flat, Endpoint.mk.injEq,
    flatName_inj_of_graphAt hin htop hb hg hmem hg' hmem', Place.mk.injEq, Endpoint.mk.injEq,
    and_assoc]

/-- A wire that a hierarchy amounts to tells which pin it ends at and where it comes from. -/
theorem Connects.existsUnique (hb : b.Separates) {w : Wire} (h : Connects inside top b w) :
    ∃! q : Place × Place, IsPin inside top q.2 ∧ Drives inside top q.1 q.2 ∧
      w = ⟨q.1.flat b, q.2.flat b⟩ := by
  obtain ⟨s, p, hp, hs, rfl⟩ := h
  refine ⟨(s, p), ⟨hp, hs, rfl⟩, ?_⟩
  rintro ⟨s', p'⟩ ⟨hp', hs', hw⟩
  obtain rfl := (hp.flat_inj hin htop hb hp').1 (congrArg Wire.dest hw)
  exact Prod.ext (hs'.unique hs) rfl

end Named

end Hierarchy

/-! ### Cells of flattened graphs -/

namespace Flatten

open Hierarchy

variable {c : Catalog} {b : Boundary} {g work flat : Graph} {module : String}
  {cells : List (String × String)} {R : String → Graph → Prop}

/-- Where the cells of flat insides are leaves of the hierarchies inside, the cells that come about
from a graph are leaves of its hierarchy. -/
private theorem exists_leafAt_of_inlined (hg : g.WellFormed)
    (hcells : compositeCells c g.instances = .ok cells) (h : Inlined c b R g cells work)
    (hleaf : LeafCells c work)
    (hR : ∀ m B s, R m s → c.body? m = some B → ∀ i ∈ s.instances, i.role = .cell →
      ∃ path j, LeafAt c.body? B path j ∧ flatCell b path j = i) {i : Instance}
    (hi : i ∈ work.instances) (hr : i.role = .cell) :
    ∃ path j, LeafAt c.body? g path j ∧ flatCell b path j = i := by
  rcases h.mem_instances_or hi with hold | ⟨n, m, s, hmem, hs, hin⟩
  · refine ⟨[], i, ⟨g, rfl, hg.instance?_of_mem hold, hr, (hleaf i hi hr).body?⟩, ?_⟩
    rw [flatCell, flatName, ← hr]
  · obtain ⟨j, hj, hjr, rfl⟩ := Inline.mem_innerCells.1 hin
    obtain ⟨hcell, B, hB⟩ := (mem_compositeCells hcells).1 hmem
    obtain ⟨path, k, hk, rfl⟩ := hR m B s hs hB j hj hjr
    have hinside : insideOf c.body? g n = some B :=
      insideOf_eq_some_iff.2 ⟨_, hg.instance?_of_mem hcell, rfl, hB⟩
    refine ⟨path ++ [n], k, hk.append hinside, ?_⟩
    rw [flatCell, flatName_append]
    rfl

/-- The cells in the flat inside of a composite are leaves of the hierarchy inside. -/
theorem Expands.exists_leafAt (hc : ∀ m B, c.body? m = some B → B.WellFormed)
    (h : Expands c b module flat) : ∀ B, c.body? module = some B → ∀ i ∈ flat.instances,
      i.role = .cell → ∃ path j, LeafAt c.body? B path j ∧ flatCell b path j = i := by
  refine Expands.induct (P := fun module flat => ∀ B, c.body? module = some B →
    ∀ i ∈ flat.instances, i.role = .cell →
      ∃ path j, LeafAt c.body? B path j ∧ flatCell b path j = i)
    (fun {module g work cells} hbody hcells hwork B hB i hi hr => ?_) h
  cases hbody.symm.trans hB
  have hleaf := leafCells_of_inlined hwork (fun _ _ hs => hs.1.leafCells) hcells
  exact exists_leafAt_of_inlined (hc _ _ hbody) hcells hwork hleaf (fun _ B _ hs => hs.2 B)
    (mem_instances_dropStray.1 hi).1 hr

/-- A cell of a flattened graph is a leaf of the hierarchy, and its name tells which one, if all
instances have identifiers for names. -/
theorem existsUnique_leafAt (hb : b.Separates)
    (hc : ∀ m B, c.body? m = some B → B.WellFormed ∧ Named B) (hg : g.WellFormed) (hn : Named g)
    (h : c.flattenGraph b g = .ok flat) {i : Instance} (hi : i ∈ flat.instances)
    (hr : i.role = .cell) : ∃! p : List String × Instance,
      LeafAt c.body? g p.1 p.2 ∧ flatCell b p.1 p.2 = i := by
  obtain ⟨cells, work, hcells, hwork, rfl⟩ := flattenGraph_eq_ok_iff.1 h
  have hleaf := leafCells_of_inlined hwork (fun _ _ hs => hs.leafCells) hcells
  obtain ⟨path, j, hj, hcell⟩ := exists_leafAt_of_inlined hg hcells hwork hleaf
    (fun m B s hs => hs.exists_leafAt (fun m B hB => (hc m B hB).1) B)
    (mem_instances_dropStray.1 hi).1 hr
  refine ⟨(path, j), ⟨hj, hcell⟩, ?_⟩
  rintro ⟨path', j'⟩ ⟨hj', hcell'⟩
  obtain ⟨rfl, rfl⟩ := (flatCell_inj (fun m B hB => (hc m B hB).2) hn hb hj' hj).1
    (hcell'.trans hcell.symm)
  rfl

end Flatten

end Netlist
