import Netlist.Proofs.Cycle
import Netlist.Proofs.Document.Catalog
import Netlist.Proofs.Library.Registration

/-!
# Containment never has a cycle

A composite may name modules that are not registered, or that are taken out and registered again
with another inside. So a cycle of composites can be prepared in any order. The module that would
close it is refused, because its check goes through all that is registered by then.

## Main definitions

* `Netlist.Catalog.Lasso`: a way from a module into its inside, and on until it meets itself.
* `Netlist.Catalog.Change`: what can be done to a catalog.
* `Netlist.Catalog.after`: the catalog after several changes.
* `Netlist.Catalog.Lasting`: a property that no change of a catalog ends.
* `Netlist.Catalog.Guarded`: containment has no cycle, and no new module can close one.

## Main results

* `Netlist.Catalog.checkContainment_eq_error`: the check fails with such a way.
* `Netlist.Catalog.wellFounded_within_of_ofText`: containment in a catalog that was read.
* `Netlist.Catalog.guarded_after`: containment has no cycle after any changes, and modules are
  refused exactly if they would close one.
-/

namespace Netlist

namespace Catalog

open Relation (TransGen ReflTransGen)

variable {c d : Catalog} {name : String} {m : Module}

/-! ### Reported ways -/

/-- A way of composites from a given one: each has a cell of the next, and the last has been met
before. -/
structure Lasso (c : Catalog) (name : String) (path : List String) : Prop where
  head : path.head? = some name
  chain : path.IsChain fun outer inner => c.Within inner outer
  closes : ∃ front last, path = front ++ [last] ∧ last ∈ front

/-- If the check fails, it has followed cells from the end of its path to a module that it has met
on the way. -/
theorem checkContainment_eq_error {path cleared : List String} {is : List Instance} {e : Error}
    {R : String → String → Prop} (hR : ∀ inner outer, c.Within inner outer → R outer inner)
    (hchain : path.IsChain R)
    (hcells : ∀ i ∈ is, i.isCell = true → ∀ last ∈ path.getLast?, R last i.module)
    (h : c.checkContainment path cleared is = .error e) :
    ∃ front last, e = .cyclicContainment (front ++ [last]) ∧ path <+: front ∧ last ∈ front ∧
      (front ++ [last]).IsChain R := by
  have hstep {path : List String} {i : Instance} (hchain : path.IsChain R)
      (hlast : ∀ last ∈ path.getLast?, R last i.module) : (path ++ [i.module]).IsChain R :=
    List.isChain_append.2 ⟨hchain, List.isChain_singleton _, fun x hx y hy => by
      cases hy
      exact hlast x hx⟩
  fun_induction checkContainment c path cleared is with
  | case1 => cases h
  | case2 _ _ _ _ _ ih => exact ih hchain (fun j hj => hcells j (List.mem_cons_of_mem _ hj)) h
  | case3 path cleared i is hcell hpath =>
    cases h
    exact ⟨path, i.module, rfl, List.prefix_rfl, hpath,
      hstep hchain (hcells i List.mem_cons_self (by simpa using hcell))⟩
  | case4 _ _ _ _ _ _ _ ih => exact ih hchain (fun j hj => hcells j (List.mem_cons_of_mem _ hj)) h
  | case5 _ _ _ _ _ _ _ _ ih =>
    exact ih hchain (fun j hj => hcells j (List.mem_cons_of_mem _ hj)) h
  | case6 path cleared i is hcell _ _ g hbody e' hinside ih =>
    cases h
    obtain ⟨front, last, he, hpre, hmem, hfront⟩ :=
      ih (hstep hchain (hcells i List.mem_cons_self (by simpa using hcell)))
        (fun j hj hjc last hlast => by
          rw [List.getLast?_concat, Option.mem_some_iff] at hlast
          exact hlast ▸ hR _ _ ⟨g, hbody, j, hj, hjc, rfl⟩) hinside
    exact ⟨front, last, he, (List.prefix_append _ _).trans hpre, hmem, hfront⟩
  | case7 _ _ _ _ _ _ _ _ _ _ _ _ ih =>
    exact ih hchain (fun j hj => hcells j (List.mem_cons_of_mem _ hj)) h

/-- A module is refused for its containment only if it is new and its inside does not pass the
check. -/
theorem checkBody_of_add_eq_error {path : List String}
    (h : c.add name m = .error (.cyclicContainment path)) : ¬c.contains name = true ∧
      ∃ g, m.body = some g ∧ c.checkBody name g = .error (.cyclicContainment path) := by
  rcases add_eq_error_iff.1 h with ⟨-, he⟩ | ⟨hname, h | ⟨-, h⟩⟩
  · cases he
  · rcases eq_of_checkPorts_eq_error h with ⟨_, he⟩ | ⟨_, _, he⟩ <;> cases he
  · exact ⟨hname, h⟩

/-- What is inside of a module stays there when a catalog grows. -/
theorem Grows.within (h : c.Grows d) {inner outer : String} (hin : c.Within inner outer) :
    d.Within inner outer := by
  obtain ⟨g, hg, hcell⟩ := hin
  obtain ⟨m, hm, hbody⟩ := body?_eq_some_iff.1 hg
  exact ⟨g, body?_eq_some_iff.2 ⟨m, h.module? outer m hm, hbody⟩, hcell⟩

/-- If the inside of a new module does not pass the check, the way that is reported leads from the
module to a composite that it has met before. -/
theorem lasso_of_checkBody {g : Graph} {e : Error} (hnew : ¬c.contains name = true)
    (hbody : m.body = some g) (h : c.checkBody name g = .error e) :
    ∃ path, e = .cyclicContainment path ∧ (c.put name m).Lasso name path := by
  have hcheck : c.checkContainment [name] [] g.instances = .error e := by
    rcases bind_eq_error_iff.1 h with h | ⟨_, -, h⟩
    · exact h
    · cases h
  have hold (inner outer : String) (hin : c.Within inner outer) :
      (c.put name m).Within inner outer :=
    (Grows.put hnew m).within hin
  have hcells (i : Instance) (hi : i ∈ g.instances) (hcell : i.isCell = true) :
      (c.put name m).Within i.module name :=
    ⟨g, by rw [body?_put, if_pos rfl, hbody], i, hi, hcell, rfl⟩
  obtain ⟨front, last, rfl, ⟨rest, rfl⟩, hmem, hchain⟩ :=
    checkContainment_eq_error hold (List.isChain_singleton name)
      (fun i hi hcell last hlast => Option.some.inj hlast ▸ hcells i hi hcell) hcheck
  exact ⟨_, rfl, ⟨rfl, hchain, _, last, rfl, hmem⟩⟩

/-- A module is refused because of its name, its ports or its containment. -/
theorem cases_of_add_eq_error {e : Error} (h : c.add name m = .error e) :
    e = .duplicateModule name ∨ (∃ fault, e = .invalidPorts name fault) ∨
      (∃ port type, e = .unknownType name port type) ∨ ∃ path, e = .cyclicContainment path := by
  rcases add_eq_error_iff.1 h with ⟨-, rfl⟩ | ⟨hname, h | ⟨-, g, hbody, h⟩⟩
  · exact .inl rfl
  · rcases eq_of_checkPorts_eq_error h with h | h
    · exact .inr (.inl h)
    · exact .inr (.inr (.inl h))
  · obtain ⟨path, he, -⟩ := lasso_of_checkBody hname hbody h
    exact .inr (.inr (.inr ⟨path, he⟩))

/-- A new composite does not pass the check if it is inside its own cells. -/
theorem exists_checkBody_eq_error {g : Graph} {i : Instance} (hi : i ∈ g.instances)
    (hcell : i.isCell = true) (hreach : ReflTransGen c.Within name i.module) :
    ∃ e, c.checkBody name g = .error e := by
  cases h : c.checkBody name g with
  | error e => exact ⟨e, rfl⟩
  | ok u => exact absurd hreach (not_reaches_of_checkBody h hi hcell)

/-- A way that meets itself is an endless way into the module that it leads from. -/
theorem Lasso.not_acc {path : List String} (h : c.Lasso name path) : ¬Acc c.Within name := by
  intro hacc
  obtain ⟨front, last, rfl, hlast⟩ := h.closes
  have hall : ∀ n ∈ front ++ [last], Acc c.Within n := by
    refine h.chain.induction _ _ (fun outer inner hin hacc => hacc.inv hin) fun hne => ?_
    rw [List.head_eq_iff_head?_eq_some hne |>.2 h.head]
    exact hacc
  have hcycle := isCycle_dropWhile h.chain hlast
  have hback := hcycle.transGen (hcycle.closed.trans List.getLast?_concat)
  exact not_transGen_of_acc (hall last (List.mem_append_right _ (List.mem_singleton_self last)))
    (Relation.transGen_swap.1 hback)

/-- A new composite passes the check if there is no endless way into it once it is registered. -/
theorem checkBody_of_acc {g : Graph} (hnew : ¬c.contains name = true) (hbody : m.body = some g)
    (hacc : Acc (c.put name m).Within name) : c.checkBody name g = .ok () := by
  cases h : c.checkBody name g with
  | error e =>
    obtain ⟨path, -, hlasso⟩ := lasso_of_checkBody hnew hbody h
    exact absurd hacc hlasso.not_acc
  | ok u => rfl

/-! ### Changes of a catalog -/

/-- Something that is done to a catalog. -/
inductive Change where
  | register (r : Registration)
  | update (name : String) (inputs outputs : Ports)
  | delete (name : String)
  /-- Replace the catalog by the one that a text stands for. -/
  | read (text : String)

/-- Change a catalog. Only the catalog that is left behind is of interest here. -/
def Change.edit : Change → Edit Unit
  | register r => r.edit
  | update name inputs outputs => Edit.replace fun c => c.update name inputs outputs
  | delete name => do let _ ← Edit.delete name
  | read text => Edit.replace fun _ => ofText text

/-- The catalog after several changes, each of which may fail. -/
def after (c : Catalog) (changes : List Change) : Catalog :=
  changes.foldl (fun c x => (x.edit.runOn c).2) c

/-- The insides of modules do not change with their ports. -/
theorem within_of_update {inputs outputs : Ports} (h : c.update name inputs outputs = .ok d) :
    d.Within = c.Within := by
  unfold update at h
  split at h
  · cases h
  · rename_i m' hm
    obtain ⟨-, -, h⟩ := bind_eq_ok_iff.1 h
    cases h
    have hbody (n : String) : (c.put name { m' with inputs, outputs }).body? n = c.body? n := by
      rw [body?_put]
      split_ifs with hn
      · rw [hn, body?, hm, Option.bind_some]
      · rfl
    funext inner outer
    simp only [Within, hbody]

/-- What is inside the modules that are left was inside them before. -/
theorem within_of_delete (h : c.delete name = .ok (m, d)) {inner outer : String}
    (hin : d.Within inner outer) : c.Within inner outer := by
  unfold delete at h
  split at h
  · cases h
  · cases h
    obtain ⟨g, hg, hcell⟩ := hin
    obtain ⟨m', hm', hbody⟩ := body?_eq_some_iff.1 hg
    rw [module?, OrderedMap.get?_erase] at hm'
    split_ifs at hm'
    exact ⟨g, body?_eq_some_iff.2 ⟨m', hm', hbody⟩, hcell⟩

/-- Containment in a catalog that was read is well founded, since each of its composites has passed
the check. -/
theorem wellFounded_within_of_ofText {s : String} (h : ofText s = .ok c) : WellFounded c.Within :=
  wellFounded_of_acyclic (acyclic_of_checkBody (reloadable_of_ofText h).1.checkBody)

/-- A property of catalogs that holds on whatever is done to them. -/
structure Lasting (I : Catalog → Prop) : Prop extends Enduring I where
  update : ∀ {c d : Catalog} {name : String} {inputs outputs : Ports}, I c →
    c.update name inputs outputs = .ok d → I d
  delete : ∀ {c d : Catalog} {name : String} {m : Module}, I c → c.delete name = .ok (m, d) → I d
  read : ∀ {d : Catalog} {s : String}, ofText s = .ok d → I d

namespace Lasting

variable {I : Catalog → Prop}

/-- Whatever is done to a catalog, and whether or not it can be done, keeps a lasting property. -/
theorem edit_keeps (hI : Lasting I) (x : Change) : Keeps I x.edit := by
  cases x with
  | register r => exact r.edit_keeps hI.toEnduring
  | update name inputs outputs => exact Edit.replace_keeps fun _ _ hc hd => hI.update hc hd
  | delete name =>
    refine Keeps.bind (fun c hc => ?_) fun _ => .pure _
    change I ((Edit.delete name).runOn c).2
    rw [Edit.delete, Edit.runOn_bind, Edit.runOn_query]
    cases hd : c.delete name with
    | error e => exact hc
    | ok r => exact hI.delete hc hd
  | read text => exact Edit.replace_keeps fun _ _ _ hd => hI.read hd

theorem after (hI : Lasting I) (hc : I c) (changes : List Change) : I (c.after changes) := by
  induction changes generalizing c with
  | nil => exact hc
  | cons x changes ih => exact ih (hI.edit_keeps x c hc)

end Lasting

/-- Containment stays well founded. -/
theorem lasting_wellFounded : Lasting fun c => WellFounded c.Within where
  toEnduring := enduring_wellFounded
  update hc h := within_of_update h ▸ hc
  delete hc h := Subrelation.wf (fun hin => within_of_delete h hin) hc
  read h := wellFounded_within_of_ofText h

theorem wellFounded_within_ofTypes (types : TypeTable) : WellFounded (ofTypes types).Within :=
  ⟨fun _ => Acc.intro _ fun _ ⟨_, hg, _⟩ => nomatch hg⟩

/-! ### Guarded catalogs -/

/-- Containment has no cycle. A new module with legal ports is refused for its containment exactly
if it is reached from its own cells by way of registered composites. The way that is reported leads
from the module, each composite containing the next, to one that it has met before. -/
structure Guarded (c : Catalog) : Prop where
  acyclic : ∀ n, ¬TransGen c.Within n n
  refused_iff : ∀ name m g, ¬c.contains name = true →
    checkPorts c.types name m.inputs m.outputs = .ok () → m.body = some g →
    ((∃ path, c.add name m = .error (.cyclicContainment path)) ↔
      ∃ i ∈ g.instances, i.isCell = true ∧ ReflTransGen c.Within name i.module)
  lasso : ∀ name m path, c.add name m = .error (.cyclicContainment path) →
    (c.put name m).Lasso name path

theorem guarded_of_wellFounded (hwf : WellFounded c.Within) : c.Guarded where
  acyclic n hn := hwf.transGen.asymmetric n n hn hn
  refused_iff name m g hnew hports hbody := by
    constructor
    · rintro ⟨path, hadd⟩
      by_contra hreach
      have hcheck : c.checkBody name g = .ok () :=
        checkBody_of_not_reaches hwf fun i hi hcell hr => hreach ⟨i, hi, hcell, hr⟩
      obtain ⟨-, g', hg', herr⟩ := checkBody_of_add_eq_error hadd
      cases hbody.symm.trans hg'
      cases hcheck.symm.trans herr
    · rintro ⟨i, hi, hcell, hreach⟩
      obtain ⟨e, he⟩ := exists_checkBody_eq_error hi hcell hreach
      obtain ⟨path, rfl, -⟩ := lasso_of_checkBody hnew hbody he
      exact ⟨path, add_eq_error_iff.2 (.inr ⟨hnew, .inr ⟨hports, g, hbody, he⟩⟩)⟩
  lasso name m path hadd := by
    obtain ⟨hnew, g, hbody, herr⟩ := checkBody_of_add_eq_error hadd
    obtain ⟨path', heq, hlasso⟩ := lasso_of_checkBody hnew hbody herr
    cases heq
    exact hlasso

/-- Containment is guarded after any changes of a catalog, whether or not they could be made. -/
theorem guarded_after (types : TypeTable) (changes : List Change) :
    ((ofTypes types).after changes).Guarded :=
  guarded_of_wellFounded (lasting_wellFounded.after (wellFounded_within_ofTypes types) changes)

end Catalog

/-- A composite without ports, with one cell of a given module. -/
def Sample.holding (module : String) : Module :=
  ⟨.empty, .empty, some (Graph.empty.push ⟨"x", module, .cell⟩)⟩

/-- Three composites are registered, each with a cell of the next; the last one is taken out and
comes back with a cell of the first. -/
example : ((Catalog.ofTypes .empty).after [.register (.module "a" (Sample.holding "b")),
      .register (.module "b" (Sample.holding "c")), .register (.module "c" (Sample.holding "d")),
      .delete "c"]).add "c" (Sample.holding "a") =
    .error (.cyclicContainment ["c", "a", "b", "c"]) := by
  decide_cbv

end Netlist
