/-!
# Directed graphs with stable numbers

A store of netlists rests on a directed graph that finds its nodes and edges under numbers. What is
removed leaves its number to something added later, and all other numbers stay valid. This module
says what the operations of such a graph are and what a store relies on, and nothing about how it is
made.

## Main definitions

* `Netlist.StableDigraph`: the operations of a graph with numbered nodes and edges.
* `Netlist.StableDigraph.Lawful`: what they do.
-/

namespace Netlist

/-- An edge between nodes that are given by their numbers. -/
structure Edge (ε : Type) where
  source : Nat
  dest : Nat
  weight : ε
deriving DecidableEq, Repr

/-- The operations of a directed graph with numbered nodes of type `ν` and numbered edges with
weights of type `ε`. There may be several edges from one node to another. -/
class StableDigraph (Γ : Type) (ν ε : outParam Type) where
  /-- The graph without nodes. -/
  empty : Γ
  /-- The node under a number. -/
  node? : Γ → Nat → Option ν
  /-- The edge under a number. -/
  edge? : Γ → Nat → Option (Edge ε)
  /-- Add a node; the answer begins with its number. -/
  addNode : Γ → ν → Nat × Γ
  /-- Change a node. -/
  modifyNode : Γ → Nat → (ν → ν) → Γ
  /-- Remove a node with the edges at it; the answer begins with what was there. -/
  removeNode : Γ → Nat → Option ν × Γ
  /-- Add an edge between two nodes. -/
  addEdge : Γ → Nat → Nat → ε → Γ
  /-- Change the weight of an edge. -/
  modifyEdge : Γ → Nat → (ε → ε) → Γ
  /-- The number of an edge from one node to another. -/
  findEdge? : Γ → Nat → Nat → Option Nat
  /-- The numbers of the edges that begin at a node. -/
  edgesFrom : Γ → Nat → List Nat
  /-- The numbers of the edges that end at a node. -/
  edgesTo : Γ → Nat → List Nat
  /-- Whether a node has no neighbours. -/
  isolated : Γ → Nat → Bool
  /-- The numbers of all edges. -/
  edges : Γ → List Nat

namespace StableDigraph

variable {ν ε : Type}

/-- What the operations of a graph with stable numbers do. A number that is in use keeps its node
or edge until that is removed; a new node or edge gets a number that is not in use. -/
class Lawful (Γ : Type) [StableDigraph Γ ν ε] : Prop where
  node?_empty (n : Nat) : node? (empty : Γ) n = none
  /-- Edges lead from nodes to nodes. -/
  ends (g : Γ) (e : Nat) (x : Edge ε) : edge? g e = some x →
    (node? g x.source).isSome ∧ (node? g x.dest).isSome
  node?_addNode_fst (g : Γ) (a : ν) : node? g (addNode g a).1 = none
  node?_addNode (g : Γ) (a : ν) (n : Nat) :
    node? (addNode g a).2 n = if n = (addNode g a).1 then some a else node? g n
  edge?_addNode (g : Γ) (a : ν) (e : Nat) : edge? (addNode g a).2 e = edge? g e
  node?_modifyNode (g : Γ) (n : Nat) (f : ν → ν) (m : Nat) :
    node? (modifyNode g n f) m = if m = n then (node? g m).map f else node? g m
  edge?_modifyNode (g : Γ) (n : Nat) (f : ν → ν) (e : Nat) :
    edge? (modifyNode g n f) e = edge? g e
  removeNode_fst (g : Γ) (n : Nat) : (removeNode g n).1 = node? g n
  node?_removeNode (g : Γ) (n m : Nat) :
    node? (removeNode g n).2 m = if m = n then none else node? g m
  edge?_removeNode (g : Γ) (n e : Nat) :
    edge? (removeNode g n).2 e = (edge? g e).filter fun x => x.source ≠ n ∧ x.dest ≠ n
  node?_addEdge (g : Γ) (a b : Nat) (w : ε) (n : Nat) : node? (addEdge g a b w) n = node? g n
  /-- An edge can be added between nodes. -/
  edge?_addEdge (g : Γ) (a b : Nat) (w : ε) : (node? g a).isSome → (node? g b).isSome →
    ∃ e, edge? g e = none ∧
      ∀ f, edge? (addEdge g a b w) f = if f = e then some ⟨a, b, w⟩ else edge? g f
  node?_modifyEdge (g : Γ) (e : Nat) (f : ε → ε) (n : Nat) :
    node? (modifyEdge g e f) n = node? g n
  edge?_modifyEdge (g : Γ) (e : Nat) (f : ε → ε) (d : Nat) :
    edge? (modifyEdge g e f) d =
      if d = e then (edge? g d).map fun x => { x with weight := f x.weight } else edge? g d
  edge?_of_findEdge? (g : Γ) (a b e : Nat) : findEdge? g a b = some e →
    ∃ w, edge? g e = some ⟨a, b, w⟩
  /-- An edge is found if there is one. -/
  findEdge?_isSome (g : Γ) (e : Nat) (x : Edge ε) : edge? g e = some x →
    (findEdge? g x.source x.dest).isSome
  nodup_edgesFrom (g : Γ) (n : Nat) : (edgesFrom g n).Nodup
  mem_edgesFrom (g : Γ) (n e : Nat) :
    e ∈ edgesFrom g n ↔ ∃ x, edge? g e = some x ∧ x.source = n
  nodup_edgesTo (g : Γ) (n : Nat) : (edgesTo g n).Nodup
  mem_edgesTo (g : Γ) (n e : Nat) : e ∈ edgesTo g n ↔ ∃ x, edge? g e = some x ∧ x.dest = n
  isolated_iff (g : Γ) (n : Nat) :
    isolated g n = true ↔ ∀ e x, edge? g e = some x → x.source ≠ n ∧ x.dest ≠ n
  /-- Edges are listed by increasing number. -/
  pairwise_edges (g : Γ) : (edges g).Pairwise (· < ·)
  mem_edges (g : Γ) (e : Nat) : e ∈ edges g ↔ (edge? g e).isSome

end StableDigraph

end Netlist
