import Netlist.Proofs.Library.Lazy
import Netlist.Proofs.Library.Resolution

/-!
# Loading only appends

Assembling composites changes a catalog at its end only. Whether or not it succeeds, what has been
registered stays what and where it was, the modules that boundary instances were bound to for a
while are gone, and the new modules are described composites, each behind all that it instantiates.

## Main definitions

* `Netlist.Library.Appended`: a described composite, behind modules with given names.
* `Netlist.Library.Extends`: a catalog is extended by composites of a library.

## Main results

* `Netlist.Library.extends_of_buildOne`: assembling one composite appends it or nothing.
* `Netlist.Library.Extends.trans`: one extension after the other.
* `Netlist.Library.extends_of_forM`: assembling composites appends them, up to one that fails.
* `Netlist.Library.runs_extend`: building one composite and what it needs, loading all composites
  and loading on demand.
-/

namespace Netlist.Library

open Catalog (Edit)

variable {l : Library} {c d e : Catalog} {name : String} {x : Description}
  {es fs : List (String × Module)}

/-- A module that a library has assembled, behind modules with given names: it is as described, its
name is new and no name of a module for a boundary instance, and all that it instantiates is there
before. -/
structure Appended (l : Library) (before : List String) (name : String) (m : Module) : Prop where
  new : name ∉ before
  ne_scaffold : ∀ (a : Assembly) block, name ≠ a.scaffold block
  exists_description : ∃ x B, l.description? name = some x ∧ m = x.toModule B ∧
    B.instances = x.cells.map (fun i => ⟨i.name, i.module, .cell⟩) ++
      [⟨l.boundary.inputBlock, name, .inputBoundary⟩,
        ⟨l.boundary.outputBlock, name, .outputBoundary⟩] ∧
    ∀ i ∈ x.cells, i.module ∈ before

/-- Each of several modules has been assembled behind those in front of it and modules with given
names. -/
def AppendedAll (l : Library) : List String → List (String × Module) → Prop
  | _, [] => True
  | before, (name, m) :: es => l.Appended before name m ∧ l.AppendedAll (before ++ [name]) es

/-- A catalog has the types of another, its modules in their places, and behind them several
composites of a library. -/
structure Extends (l : Library) (c d : Catalog) (es : List (String × Module)) : Prop where
  types : d.types = c.types
  entries : d.modules.entries = c.modules.entries ++ es
  appended : l.AppendedAll c.names es

theorem appendedAll_append {before : List String} : l.AppendedAll before (es ++ fs) ↔
    l.AppendedAll before es ∧ l.AppendedAll (before ++ es.map Prod.fst) fs := by
  induction es generalizing before with
  | nil => simp [AppendedAll]
  | cons e es ih => simp [AppendedAll, ih, and_assoc]

namespace Extends

theorem names_eq (h : l.Extends c d es) : d.names = c.names ++ es.map Prod.fst := by
  rw [Catalog.names, OrderedMap.keys, h.entries, List.map_append]
  rfl

theorem refl (l : Library) (c : Catalog) : l.Extends c c [] :=
  ⟨rfl, (List.append_nil _).symm, trivial⟩

/-- What extends an extension appends more. -/
theorem trans (h : l.Extends c d es) (h' : l.Extends d e fs) : l.Extends c e (es ++ fs) where
  types := h'.types.trans h.types
  entries := by rw [h'.entries, h.entries, List.append_assoc]
  appended := appendedAll_append.2 ⟨h.appended, h.names_eq ▸ h'.appended⟩

end Extends

/-! ### Runs -/

/-- A described composite that is assembled is appended. -/
theorem Yields.extends {B : Graph} (hy : Yields c l.boundary x B) (hl : l.Parsed)
    (hx : l.description? name = some x) :
    l.Extends c (c.put x.name (x.toModule B)) [(name, x.toModule B)] := by
  obtain rfl := hl.filed name x hx
  have hnew : x.name ∉ c.modules.keys := fun h => hy.new (OrderedMap.contains_iff_mem_keys.2 h)
  refine ⟨rfl, OrderedMap.entries_insert_of_notMem _ hnew, ⟨hnew, fun a block h => ?_, x, B, hx,
    rfl, hy.instances_eq, fun i hi => ?_⟩, trivial⟩
  · exact hl.not_contains_scaffold a block (h ▸ contains_iff_description?.2 ⟨x, hx⟩)
  · exact OrderedMap.contains_iff_mem_keys.1
      (hy.dependencies _ (mem_dependencies.2 ⟨i, hi, rfl⟩))

/-- Assembling a described composite appends it, or nothing. -/
theorem extends_of_buildOne {r : Except Error Unit} (hl : l.Parsed)
    (hx : l.description? name = some x) (h : (buildOne l.boundary x).runOn c = (r, d)) :
    ∃ es, l.Extends c d es ∧ ∀ u, r = .ok u → es.map Prod.fst = [name] := by
  cases r with
  | error e =>
    obtain rfl := buildOne_eq_error h
    exact ⟨[], .refl l d, nofun⟩
  | ok u =>
    obtain ⟨B, hy, -, rfl⟩ := buildOne_eq_ok_iff.1 h
    exact ⟨_, hy.extends hl hx, fun _ _ => rfl⟩

/-- Assembling several described composites appends them, up to one that fails. -/
theorem extends_of_forM (hl : l.Parsed) {order : List String} {r : Except Error Unit}
    (hdescribed : ∀ m ∈ order, l.contains m = true)
    (h : (order.forM l.buildListed).runOn c = (r, d)) :
    ∃ es, l.Extends c d es ∧ ∀ u, r = .ok u → es.map Prod.fst = order := by
  induction order generalizing c with
  | nil =>
    cases h
    exact ⟨[], .refl l _, fun _ _ => rfl⟩
  | cons m order ih =>
    obtain ⟨hm, hdescribed⟩ := List.forall_mem_cons.1 hdescribed
    obtain ⟨x, hx⟩ := contains_iff_description?.1 hm
    rw [Edit.runOn_forM_cons, buildListed, hx, Edit.runOn_bind] at h
    split at h <;> rename_i hone <;> obtain ⟨es, hes, hone⟩ := extends_of_buildOne hl hx hone
    · obtain ⟨fs, hfs, hrest⟩ := ih hdescribed h
      refine ⟨es ++ fs, hes.trans hfs, fun u hr => ?_⟩
      rw [List.map_append, hone _ rfl, hrest u hr, List.singleton_append]
    · cases h
      exact ⟨es, hes, fun _ hr => by cases hr⟩

/-- Building a composite appends what its order lists, up to one that fails. -/
theorem extends_of_build (hl : l.Parsed) {r : Except Error (List String)}
    (h : (l.build name).runOn c = (r, d)) : ∃ es, l.Extends c d es ∧
      ∀ order, r = .ok order → l.buildOrder c name = .ok order ∧ order = es.map Prod.fst := by
  rw [build_eq, Edit.runOn_bind, Edit.runOn_query] at h
  cases horder : l.buildOrder c name with
  | error e =>
    rw [horder] at h
    cases h
    exact ⟨[], .refl l c, fun _ hr => by cases hr⟩
  | ok order =>
    rw [horder] at h
    dsimp only at h
    rw [Edit.runOn_bind] at h
    have hdescribed (m : String) (hm : m ∈ order) : l.contains m = true :=
      ((ready_of_buildOrder horder).2.1 m hm).pending.1
    split at h <;> rename_i hforM <;>
      obtain ⟨es, hes, hnames⟩ := extends_of_forM hl hdescribed hforM <;> cases h
    · exact ⟨es, hes, fun _ hr => Except.ok.inj hr ▸ ⟨rfl, (hnames _ rfl).symm⟩⟩
    · exact ⟨es, hes, fun _ hr => by cases hr⟩

/-- Building several composites appends what is built, and the answer is the number of modules that
have been appended. -/
theorem extends_of_buildAll (hl : l.Parsed) {names : List String} {r : Except Error Nat}
    (h : (l.buildAll names).runOn c = (r, d)) :
    ∃ es, l.Extends c d es ∧ ∀ n, r = .ok n → n = es.length := by
  induction names generalizing c d r with
  | nil =>
    cases h
    exact ⟨[], .refl l _, fun _ hr => (Except.ok.inj hr).symm⟩
  | cons name names ih =>
    rw [buildAll, Edit.runOn_get_bind] at h
    split_ifs at h
    · exact ih h
    · rw [Edit.runOn_bind] at h
      split at h <;> rename_i hbuild <;> obtain ⟨es, hes, hbuilt⟩ := extends_of_build hl hbuild
      · rw [Edit.runOn_bind] at h
        split at h <;> rename_i hrest <;> obtain ⟨fs, hfs, hcount⟩ := ih hrest <;> cases h
        · refine ⟨es ++ fs, hes.trans hfs, fun _ hr => ?_⟩
          obtain ⟨-, rfl⟩ := hbuilt _ rfl
          rw [← Except.ok.inj hr, hcount _ rfl, List.length_append, List.length_map]
        · exact ⟨es ++ fs, hes.trans hfs, fun _ hr => by cases hr⟩
      · cases h
        exact ⟨es, hes, fun _ hr => by cases hr⟩

/-- Loading on demand appends what is built. -/
theorem extends_of_load (hl : l.Parsed) {r : Except Error Bool}
    (h : (l.load name).runOn c = (r, d)) : ∃ es, l.Extends c d es := by
  unfold load at h
  split_ifs at h
  · rw [Edit.runOn_bind] at h
    split at h <;> rename_i hbuild <;> obtain ⟨es, hes, -⟩ := extends_of_build hl hbuild <;>
      cases h <;> exact ⟨es, hes⟩
  · cases h
    exact ⟨[], .refl l c⟩

/-- Where everything is registered, nothing is built. -/
theorem buildAll_of_contains {names : List String} (h : ∀ m ∈ names, c.contains m = true) :
    (l.buildAll names).runOn c = (.ok 0, c) := by
  induction names with
  | nil => rfl
  | cons name names ih =>
    obtain ⟨hname, h⟩ := List.forall_mem_cons.1 h
    rw [buildAll, Edit.runOn_get_bind, if_pos hname, ih h]

/-- Whatever a library of parsed descriptions is asked to assemble in a catalog, and whether or not
it can be assembled, the catalog is extended by described composites. If a composite is built, these
are the ones that its order lists; and where there is an order, nothing is missing. If all are
loaded, all that are described are registered, the answer is the number of those that are new, and
loading them again changes nothing. -/
theorem runs_extend (hl : l.Parsed) (c : Catalog) :
    (∀ name r d, (l.build name).runOn c = (r, d) → (∃ es, l.Extends c d es ∧
        ∀ order, r = .ok order →
          order = es.map Prod.fst ∧ l.buildOrder c name = .ok order) ∧
      ∀ order, l.buildOrder c name = .ok order → ∀ m, r ≠ .error (.moduleNotFound m)) ∧
    (∀ r d, l.loadAll.runOn c = (r, d) → ∃ es, l.Extends c d es ∧
      ∀ n, r = .ok n → (∀ m, l.contains m = true → d.contains m = true) ∧ n = es.length ∧
        l.loadAll.runOn d = (.ok 0, d)) ∧
    ∀ name r d, (l.load name).runOn c = (r, d) → ∃ es, l.Extends c d es := by
  refine ⟨fun name r d h => ⟨?_, fun order horder m hm => ?_⟩, fun r d h => ?_,
    fun name r d h => extends_of_load hl h⟩
  · obtain ⟨es, hes, hbuilt⟩ := extends_of_build hl h
    exact ⟨es, hes, fun order hr => (hbuilt order hr).symm⟩
  · exact build_resolves hl.filed horder m ((congrArg Prod.fst h).trans hm)
  · obtain ⟨es, hes, hcount⟩ := extends_of_buildAll hl h
    refine ⟨es, hes, fun n hr => ?_⟩
    obtain rfl := hr
    have hall (m : String) (hm : l.contains m = true) : d.contains m = true :=
      contains_of_loadAll hl.filed h hm
    exact ⟨hall, hcount n rfl, buildAll_of_contains fun m hm =>
      hall m (OrderedMap.contains_iff_mem_keys.2 hm)⟩

/-- The library of the sample is loaded on top of the leaf, once. -/
theorem runs_extend_library : Sample.library.Parsed ∧
    ∃ es, Sample.library.Extends Sample.leaves Sample.allLoaded es ∧ es.length = 3 ∧
      Sample.library.loadAll.runOn Sample.allLoaded = (.ok 0, Sample.allLoaded) := by
  have hparsed := Sample.parsed_library
  obtain ⟨-, hloadAll, -⟩ := runs_extend hparsed Sample.leaves
  obtain ⟨es, hes, hloaded⟩ := hloadAll _ _ Sample.loadAll_library
  obtain ⟨-, hcount, hagain⟩ := hloaded 3 rfl
  exact ⟨hparsed, es, hes, hcount.symm, hagain⟩

end Netlist.Library
