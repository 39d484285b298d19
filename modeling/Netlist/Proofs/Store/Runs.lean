import Netlist.Proofs.Store.Wiring

/-!
# Runs of stores

Whatever is called on a store that represents a graph, it goes on to represent the graph that the
same calls lead to. The store of a document represents the graph of the document.

## Main results

* `Netlist.Store.Represents.call`, `Netlist.Store.Represents.after`: calls.
* `Netlist.Store.follows_ofDocument`, `Netlist.Store.represents_of_ofDocument`: documents.
-/

namespace Netlist.Store

open StableDigraph

variable {Γ : Type} [StableDigraph Γ Instance (List Binding)] [Lawful Γ] {s : Store Γ} {g : Graph}

/-! ### Calls -/

namespace Represents

theorem insert (h : s.Represents g) (i : Instance) :
    Follows Represents (s.insert i) (g.insert i) := by
  unfold Store.insert Graph.insert
  rw [h.contains_eq]
  split_ifs with hname
  · exact .error _
  · exact .ok (h.put (mt Graph.contains_iff.2 hname))

theorem instantiate (h : s.Represents g) (c : Catalog) (name module : String) :
    Follows Represents (s.instantiate c name module) (g.instantiate c name module) := by
  unfold Store.instantiate Graph.instantiate
  rw [h.contains_eq]
  split_ifs with hname
  · exact .error _
  · exact .ok (h.put (mt Graph.contains_iff.2 hname))
  · exact .error _

theorem instantiateWith (h : s.Represents g) (load : Loader) (c : Catalog)
    (name module : String) :
    Follows Represents (s.instantiateWith load c name module)
      (g.instantiateWith load c name module) := by
  unfold Store.instantiateWith Graph.instantiateWith
  rw [h.contains_eq]
  split_ifs
  · exact .error _
  · refine (Follows.mapError _).bind fun c' _ hc _ => ?_
    exact hc ▸ h.instantiate c' name module

/-- A call leaves the store as it is and fails as it does for the graph, or it succeeds and the
store represents the graph after it. -/
theorem call (h : s.Represents g) (x : Call) :
    ∃ outcome, s.call x = s.settle outcome ∧ Follows Represents outcome (g.call x) := by
  cases x with
  | instantiate c name module => exact ⟨_, rfl, h.instantiate c name module⟩
  | instantiateWith load c name module => exact ⟨_, rfl, h.instantiateWith load c name module⟩
  | relabel name module role => exact ⟨_, rfl, h.relabel name module role⟩
  | connect c source dest bs => exact ⟨_, rfl, h.connect c source dest bs⟩
  | remove name => exact h.remove name
  | removeOrphans eligible => exact ⟨_, rfl, h.removeOrphans eligible⟩

/-- The same calls lead to a store and to the graph that it represents. -/
theorem after (h : s.Represents g) (calls : List Call) :
    (s.after calls).Represents (g.after calls) := by
  induction calls generalizing s g with
  | nil => exact h
  | cons x xs ih =>
    obtain ⟨outcome, hs, houtcome⟩ := h.call x
    rw [Store.after, Graph.after, List.foldl_cons, List.foldl_cons, hs]
    generalize g.call x = y at houtcome ⊢
    cases houtcome with
    | ok h => exact ih h
    | error e => exact ih h

end Represents

/-! ### Documents -/

theorem follows_addLinks (h : s.Represents g) (ls : List Bundle) :
    Follows Represents (s.addLinks ls) (g.addLinks ls) := by
  induction ls generalizing s g with
  | nil => exact .ok h
  | cons l ls ih =>
    rw [addLinks, Graph.addLinks]
    split_ifs
    · exact .error _
    · have houtcome := h.connectUntyped l.source l.dest l.bindings
      generalize s.connectUntyped l.source l.dest l.bindings = x at houtcome ⊢
      generalize g.connectUntyped l.source l.dest l.bindings = y at houtcome ⊢
      cases houtcome with
      | ok h => exact ih h
      | error e => cases e <;> exact .error _

theorem follows_ofDocument (d : GraphDocument) :
    Follows Represents (ofDocument d : Except Failure (Store Γ)) (Graph.ofDocument d) := by
  unfold ofDocument Graph.ofDocument
  split_ifs
  · exact .error _
  · refine Follows.bind (Follows.foldlM (fun _ _ i h => h.insert i) d.nodes .empty)
      fun _ _ h _ => follows_addLinks h d.links

theorem represents_of_ofDocument {d : GraphDocument} (h : ofDocument d = .ok s) :
    ∃ g, s.Represents g := by
  have hfollows : Follows Represents (ofDocument d : Except Failure (Store Γ)) _ :=
    follows_ofDocument d
  rw [h] at hfollows
  generalize Graph.ofDocument d = y at hfollows
  cases hfollows with
  | ok h => exact ⟨_, h⟩

end Netlist.Store
