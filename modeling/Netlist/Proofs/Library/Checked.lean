import Netlist.Graph.Call
import Netlist.Library.Basic
import Netlist.Proofs.Catalog.History
import Netlist.Proofs.Catalog.Regular
import Netlist.Proofs.Description.Check
import Netlist.Proofs.Library.Registration

/-!
# Libraries of checked descriptions

The graph inside a described composite is put together by checked changes, and none of its links is
without bindings if the description has passed its check. So what a library of checked descriptions
assembles keeps catalogs regular. Descriptions that were read from texts have passed their checks.

## Main definitions

* `Netlist.Library.Checked`: the descriptions in a library have passed their check.

## Main results

* `Netlist.Library.built_of_inside`, `Netlist.Library.filled_of_inside`: what is inside a described
  composite.
* `Netlist.Library.buildOne_keeps`: assembling a composite keeps catalogs regular.
* `Netlist.Library.check_of_ofText`, `Netlist.Library.scan_checked`: texts and files give checked
  descriptions.
-/

namespace Netlist.Library

open Catalog (Edit Regular)

variable {c : Catalog} {l : Library} {d : Description} {g : Graph}

/-- A checked description binds some ports in each of its connections. -/
theorem pairs_ne_nil_of_check (h : d.check = .ok ()) :
    ∀ l ∈ d.connections, l.ports.pairs ≠ [] :=
  (Description.check_eq_ok_iff.1 h).filled

/-- The graph inside a described composite is put together by checked changes. -/
theorem built_of_inside (h : inside c d = .ok g) : g.Built c := by
  obtain ⟨g₁, hcells, hconnections⟩ := bind_eq_ok_iff.1 h
  exact (Graph.Built.empty.instantiateAll hcells).connectAll hconnections

/-- Each link in a composite whose description has passed its check binds some ports. -/
theorem filled_of_inside (hd : d.check = .ok ()) (h : inside c d = .ok g) : g.Filled := by
  obtain ⟨g₁, hcells, hconnections⟩ := bind_eq_ok_iff.1 h
  have h₁ : g₁.Filled := by
    refine foldlM_keeps (I := Graph.Filled) (fun i _ x y hf hxy => ?_) .empty hcells
    obtain ⟨-, -, rfl⟩ := Graph.instantiate_eq_ok_iff.1 hxy
    exact hf.push _
  refine foldlM_keeps (I := Graph.Filled) (fun l hl x y hf hxy => ?_) h₁ hconnections
  have hbs : (l.ports.pairs.map fun p => (⟨p.1, p.2⟩ : Binding)) ≠ [] :=
    mt List.map_eq_nil_iff.1 (pairs_ne_nil_of_check hd l hl)
  exact Graph.connect_filled hf hbs hxy

/-- The descriptions in a library have passed their check. -/
def Checked (l : Library) : Prop :=
  ∀ name d, l.description? name = some d → d.check = .ok ()

/-- Assembling a described composite keeps catalogs regular, whether it succeeds or fails. -/
theorem buildOne_keeps (b : Boundary) (hd : d.check = .ok ()) : Keeps Regular (buildOne b d) := by
  intro c hc
  change ((buildOne b d).runOn c).2.Regular
  rw [buildOne, Edit.runOn_bind, Edit.runOn_query]
  cases hg : inside c d with
  | error e => exact hc
  | ok g =>
    have hb := built_of_inside hg
    exact Assembly.register_regular hc hb.wellFormed (filled_of_inside hd hg) hb.sound

theorem Checked.keeping (hl : l.Checked) : l.Keeping Regular :=
  fun name _ hd => buildOne_keeps l.boundary (hl name _ hd)

/-- Adding an instance from a library is a call with the library as its loader. -/
theorem runOn_instantiate (l : Library) (g : Graph) (name module : String) (c : Catalog) :
    ((l.instantiate g name module).runOn c).1 = g.instantiateWith l.load c name module := by
  unfold instantiate Graph.instantiateWith Catalog.loaded
  by_cases hname : g.contains name = true
  · rw [if_pos hname, if_pos hname]
    rfl
  · rw [if_neg hname, if_neg hname]
    dsimp only
    rw [Edit.runOn_get_bind]
    by_cases hmodule : c.contains module = true
    · rw [if_pos hmodule, if_neg (by simp [hmodule]), Edit.runOn_query]
      rfl
    · rw [if_neg hmodule, if_pos (by simp [hmodule]), Edit.runOn_bind]
      rcases (l.load module).runOn c with ⟨_ | _, d⟩
      · rfl
      · exact congrArg Prod.fst (Edit.runOn_query _ d)

/-! ### Collecting descriptions -/

theorem check_of_ofText {s : String} (h : Description.ofText s = .ok d) : d.check = .ok () := by
  unfold Description.ofText at h
  split at h
  · cases h
  · rename_i d' _
    cases hcheck : d'.check with
    | error e =>
      rw [hcheck] at h
      cases h
    | ok u =>
      rw [hcheck] at h
      cases h
      exact hcheck

theorem insertFile_of_ofText {files : FileTree} {path text : String}
    (hread : files.read path = .ok text) (hd : Description.ofText text = .ok d) :
    insertFile files l path = l.insert d (some path) := by
  rw [insertFile, hread]
  change (Except.mapError _ (Description.ofText text) >>= _) = _
  rw [hd]
  rfl

theorem Checked.insert {l' : Library} {path : Option String} (hl : l.Checked)
    (hd : d.check = .ok ()) (h : l.insert d path = .ok l') : l'.Checked := by
  unfold Library.insert at h
  split at h
  · cases h
    intro name d' hd'
    unfold description? at hd'
    rw [OrderedMap.get?_insert] at hd'
    split_ifs at hd'
    · cases hd'
      exact hd
    · exact hl name d' hd'
  · split at h <;> cases h

/-- A library that was collected from files is checked. -/
theorem scan_checked {files : FileTree} {dir : String} {b : Boundary}
    (h : scan files dir b = .ok l) : l.Checked := by
  refine foldlM_keeps (fun path _ l₁ l₂ hl h₁ => ?_) (fun _ _ hd => by cases hd) h
  obtain ⟨text, -, h₁⟩ := bind_eq_ok_iff.1 h₁
  obtain ⟨d, hd, h₁⟩ := bind_eq_ok_iff.1 h₁
  exact hl.insert (check_of_ofText (mapError_eq_ok_iff.1 hd)) h₁

end Netlist.Library
