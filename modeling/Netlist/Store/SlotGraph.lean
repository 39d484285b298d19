import Netlist.Store.Digraph
import Netlist.Store.Slots

/-!
# Graphs in slots

A directed graph whose nodes and edges lie in numbered slots. The edges at a node are listed from
the last one added to the first, and removing a node vacates the slots of its outgoing edges before
those of its incoming ones.

## Main definitions

* `Netlist.SlotGraph`: the graph, with the operations of a `Netlist.StableDigraph`.
-/

namespace Netlist

/-- Nodes and edges in slots. -/
structure SlotGraph (ν ε : Type) where
  nodes : Slots ν
  edges : Slots (Edge ε)
  /-- Edges lead from nodes to nodes. -/
  ends : ∀ x ∈ edges.live, (nodes.get? x.2.source).isSome ∧ (nodes.get? x.2.dest).isSome

namespace SlotGraph

variable {ν ε : Type}

/-- The graph without nodes. -/
def empty : SlotGraph ν ε :=
  ⟨.empty, .empty, fun _ h => nomatch h⟩

/-- Add a node; the answer begins with its number. -/
def addNode (g : SlotGraph ν ε) (a : ν) : Nat × SlotGraph ν ε where
  fst := g.nodes.next
  snd.nodes := g.nodes.put a
  snd.edges := g.edges
  snd.ends x hx := by
    have hsome (n : Nat) (h : (g.nodes.get? n).isSome) : ((g.nodes.put a).get? n).isSome := by
      rw [Slots.get?_put]
      split_ifs
      · rfl
      · exact h
    exact ⟨hsome _ (g.ends x hx).1, hsome _ (g.ends x hx).2⟩

/-- Change a node. -/
def modifyNode (g : SlotGraph ν ε) (n : Nat) (f : ν → ν) : SlotGraph ν ε where
  nodes := g.nodes.modify n f
  edges := g.edges
  ends x hx := by
    have hsome (m : Nat) (h : (g.nodes.get? m).isSome) : ((g.nodes.modify n f).get? m).isSome := by
      rw [Slots.get?_modify]
      split_ifs
      · rwa [Option.isSome_map]
      · exact h
    exact ⟨hsome _ (g.ends x hx).1, hsome _ (g.ends x hx).2⟩

/-- The numbers of the edges that begin at a node, the last added first. -/
def edgesFrom (g : SlotGraph ν ε) (n : Nat) : List Nat :=
  (g.edges.live.filter fun x => x.2.source = n).map Prod.fst

/-- The numbers of the edges that end at a node, the last added first. -/
def edgesTo (g : SlotGraph ν ε) (n : Nat) : List Nat :=
  (g.edges.live.filter fun x => x.2.dest = n).map Prod.fst

/-- The graph without the edges at a node. -/
def isolate (g : SlotGraph ν ε) (n : Nat) : Slots (Edge ε) :=
  (g.edgesFrom n ++ g.edgesTo n).foldl Slots.vacate g.edges

theorem get?_isolate (g : SlotGraph ν ε) (n e : Nat) :
    (g.isolate n).get? e = (g.edges.get? e).filter fun x => x.source ≠ n ∧ x.dest ≠ n := by
  refine Option.ext fun x => ?_
  have hat : e ∈ g.edgesFrom n ++ g.edgesTo n ↔
      ∃ x, g.edges.get? e = some x ∧ (x.source = n ∨ x.dest = n) := by
    simp [edgesFrom, edgesTo, Slots.get?_eq_some_iff, and_or_left, exists_or]
  rw [isolate, Slots.get?_foldl_vacate, Option.filter_eq_some_iff, decide_eq_true_eq]
  split_ifs with h
  · obtain ⟨y, hy, hn⟩ := hat.1 h
    refine ⟨fun h => (nomatch h), fun ⟨hx, hs, hd⟩ => ?_⟩
    rw [hy, Option.some.injEq] at hx
    subst hx
    exact (hn.elim hs hd).elim
  · exact ⟨fun hx => ⟨hx, fun hs => h (hat.2 ⟨x, hx, Or.inl hs⟩),
      fun hd => h (hat.2 ⟨x, hx, Or.inr hd⟩)⟩, And.left⟩

/-- Remove a node with the edges at it; the answer begins with what was there. -/
def removeNode (g : SlotGraph ν ε) (n : Nat) : Option ν × SlotGraph ν ε where
  fst := g.nodes.get? n
  snd.nodes := g.nodes.vacate n
  snd.edges := g.isolate n
  snd.ends x hx := by
    have hx := Slots.get?_eq_some_iff.2 hx
    rw [get?_isolate, Option.filter_eq_some_iff, decide_eq_true_eq] at hx
    obtain ⟨hx, hs, hd⟩ := hx
    rw [Slots.get?_vacate, Slots.get?_vacate, if_neg hs, if_neg hd]
    exact g.ends _ (Slots.get?_eq_some_iff.1 hx)

/-- Add an edge between two nodes. -/
def addEdge (g : SlotGraph ν ε) (a b : Nat) (w : ε) : SlotGraph ν ε :=
  if h : (g.nodes.get? a).isSome ∧ (g.nodes.get? b).isSome then
    { nodes := g.nodes
      edges := g.edges.put ⟨a, b, w⟩
      ends := List.forall_mem_cons.2 ⟨h, g.ends⟩ }
  else g

/-- Change the weight of an edge. -/
def modifyEdge (g : SlotGraph ν ε) (e : Nat) (f : ε → ε) : SlotGraph ν ε where
  nodes := g.nodes
  edges := g.edges.modify e fun x => { x with weight := f x.weight }
  ends := by
    refine List.forall_mem_map.2 fun x hx => ?_
    split_ifs
    · exact g.ends x hx
    · exact g.ends x hx

instance : StableDigraph (SlotGraph ν ε) ν ε where
  empty := empty
  node? g := g.nodes.get?
  edge? g := g.edges.get?
  addNode := addNode
  modifyNode := modifyNode
  removeNode := removeNode
  addEdge := addEdge
  modifyEdge := modifyEdge
  findEdge? g a b := (g.edges.live.find? fun x => x.2.source = a ∧ x.2.dest = b).map Prod.fst
  edgesFrom := edgesFrom
  edgesTo := edgesTo
  isolated g n := g.edges.live.all fun x => x.2.source ≠ n ∧ x.2.dest ≠ n
  edges g := (List.range (g.edges.live.length + g.edges.vacant.length)).filter fun e =>
    (g.edges.get? e).isSome

end SlotGraph

end Netlist
