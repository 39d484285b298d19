import Netlist.Library.Basic
import Netlist.Proofs.Assembly
import Netlist.Proofs.Catalog.Containment

/-!
# Registering types, leaves and composites

Whatever registers something, be it a library that assembles all its composites, changes a catalog
by single new types and modules, and takes back what it did for a while. So a property of catalogs
that one new type and one new module leave alone outlasts all of it, also where it fails on its way.

## Main definitions

* `Netlist.Catalog.Enduring`: a property that new types and modules leave alone.
* `Netlist.Library.Keeping`: assembling any composite of a library keeps a property.
* `Netlist.Registration`: the ways to register something.

## Main results

* `Netlist.Catalog.enduring_grows`, `Netlist.Catalog.enduring_wellFounded`: catalogs grow, and
  containment stays well founded.
* `Netlist.Assembly.register_keeps`, `Netlist.Library.Keeping.build`,
  `Netlist.Registration.edit_keeps`: what keeps an enduring property.
-/

namespace Netlist

open Catalog (Edit)

/-! ### What new types and modules leave alone -/

namespace Catalog

/-- A property of catalogs that holds on when a type or a module is registered. -/
structure Enduring (I : Catalog → Prop) : Prop where
  add : ∀ {c d : Catalog} {name : String} {m : Module}, I c → c.add name m = .ok d → I d
  addType : ∀ {c d : Catalog} {name : String} {fields : Ports}, I c →
    c.addType name fields = .ok d → I d

variable {I : Catalog → Prop}

/-- What a catalog knows is known ever after. -/
theorem enduring_grows (c : Catalog) : Enduring c.Grows where
  add h hadd := by
    obtain ⟨hnew, -, -, rfl⟩ := add_eq_ok_iff.1 hadd
    exact h.trans (.put hnew _)
  addType h hadd := h.trans (.addType hadd)

/-- Containment stays well founded. -/
theorem enduring_wellFounded : Enduring fun c => WellFounded c.Within where
  add h hadd := wellFounded_within_add h hadd
  addType h hadd := by
    obtain ⟨-, -, rfl⟩ := addType_eq_ok_iff.1 hadd
    exact h

theorem Enduring.add_keeps (hI : Enduring I) (name : String) (m : Module) :
    Keeps I (Edit.add name m) :=
  Edit.replace_keeps fun _ _ hc hd => hI.add hc hd

end Catalog

open Catalog (Enduring)

variable {I : Catalog → Prop}

/-- Registering a composite changes a catalog by one new module, or not at all. -/
theorem Assembly.register_keeps (hI : Enduring I) (b : Boundary) (a : Assembly) :
    Keeps I (a.register b) := by
  refine Edit.keeps_of_runOn fun c r d hc hrun => ?_
  cases r with
  | error e => exact register_eq_error hrun ▸ hc
  | ok u =>
    obtain ⟨B, -, hadd⟩ := register_eq_ok_iff.1 hrun
    exact hI.add hc hadd

/-! ### Libraries -/

namespace Library

/-- Assemble a composite if it is described. -/
def buildListed (l : Library) (m : String) : Edit Unit :=
  match l.description? m with
  | some d => buildOne l.boundary d
  | none => pure ()

theorem build_eq (l : Library) (name : String) : l.build name = (do
    let order ← Edit.query fun c => l.buildOrder c name
    order.forM l.buildListed
    return order) :=
  rfl

/-- Assembling any single composite of a library keeps a property of catalogs. -/
def Keeping (I : Catalog → Prop) (l : Library) : Prop :=
  ∀ name d, l.description? name = some d → Keeps I (buildOne l.boundary d)

namespace Keeping

variable {l : Library}

theorem of_enduring (hI : Enduring I) (l : Library) : l.Keeping I :=
  fun _ _ _ => (Edit.query_keeps _ _).bind fun _ => Assembly.register_keeps hI _ _

theorem forM (h : l.Keeping I) (names : List String) : Keeps I (names.forM l.buildListed) := by
  refine Keeps.forM fun m _ => ?_
  unfold buildListed
  cases hd : l.description? m with
  | none => exact .pure _
  | some d => exact h m d hd

/-- Assembling a composite after those that it needs keeps what assembling each of them keeps. -/
theorem build (h : l.Keeping I) (name : String) : Keeps I (l.build name) :=
  (Edit.query_keeps _ _).bind fun order => (h.forM order).bind fun _ => .pure _

theorem buildAll (h : l.Keeping I) (names : List String) : Keeps I (l.buildAll names) := by
  induction names with
  | nil => exact .pure _
  | cons name names ih =>
    refine Keeps.get_bind fun c _ => ?_
    split_ifs
    · exact ih
    · exact (h.build name).bind fun _ => ih.bind fun _ => .pure _

theorem load (h : l.Keeping I) (name : String) : Keeps I (l.load name) := by
  unfold Library.load
  split_ifs
  · exact (h.build name).bind fun _ => .pure _
  · exact .pure _

theorem instantiate (h : l.Keeping I) (g : Graph) (name module : String) :
    Keeps I (l.instantiate g name module) := by
  unfold Library.instantiate
  split_ifs
  · exact .throw_bind _ _
  · refine Keeps.get_bind fun c _ => ?_
    split_ifs
    · exact (h.load module).bind fun _ => Edit.query_keeps _ _
    · exact Edit.query_keeps _ _

end Keeping

end Library

/-! ### Everything that registers -/

/-- Something that registers types or modules. -/
inductive Registration where
  | type (name : String) (fields : Ports)
  | module (name : String) (m : Module)
  | leaves (is : List Interface)
  | composite (b : Boundary) (a : Assembly)
  /-- Assemble a described composite after those that it needs. -/
  | build (l : Library) (name : String)
  /-- Assemble every described composite. -/
  | loadAll (l : Library)
  /-- Assemble a composite if it is described. -/
  | load (l : Library) (name : String)

namespace Registration

/-- Register something. Only the catalog that is left behind is of interest here. -/
def edit : Registration → Edit Unit
  | type name fields => Edit.replace fun c => c.addType name fields
  | module name m => Edit.add name m
  | leaves is => do let _ ← Catalog.registerLeaves is
  | composite b a => a.register b
  | build l name => do let _ ← l.build name
  | loadAll l => do let _ ← l.loadAll
  | load l name => do let _ ← l.load name

/-- Whatever is registered, and whether or not it can be, keeps an enduring property. -/
theorem edit_keeps (hI : Enduring I) (r : Registration) : Keeps I r.edit := by
  cases r with
  | type name fields => exact Edit.replace_keeps fun _ _ hc hd => hI.addType hc hd
  | module name m => exact hI.add_keeps name m
  | leaves is =>
    exact (Edit.registerLeaves_keeps_of fun i _ => hI.add_keeps _ _).bind fun _ => .pure _
  | composite b a => exact Assembly.register_keeps hI b a
  | build l name => exact ((Library.Keeping.of_enduring hI l).build name).bind fun _ => .pure _
  | loadAll l => exact ((Library.Keeping.of_enduring hI l).buildAll _).bind fun _ => .pure _
  | load l name => exact ((Library.Keeping.of_enduring hI l).load name).bind fun _ => .pure _

end Registration

end Netlist
