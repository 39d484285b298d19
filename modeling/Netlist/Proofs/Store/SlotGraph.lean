import Netlist.Store.SlotGraph

/-!
# Graphs in slots have stable numbers

## Main results

* The graphs in slots are a `Netlist.StableDigraph.Lawful` digraph.
-/

namespace Netlist.SlotGraph

open StableDigraph

variable {ν ε : Type}

theorem nodup_edgesFrom (g : SlotGraph ν ε) (n : Nat) : (g.edgesFrom n).Nodup :=
  g.edges.nodup_live.sublist (List.filter_sublist.map _)

theorem mem_edgesFrom {g : SlotGraph ν ε} {n e : Nat} :
    e ∈ g.edgesFrom n ↔ ∃ x, g.edges.get? e = some x ∧ x.source = n := by
  simp [edgesFrom, Slots.get?_eq_some_iff]

theorem nodup_edgesTo (g : SlotGraph ν ε) (n : Nat) : (g.edgesTo n).Nodup :=
  g.edges.nodup_live.sublist (List.filter_sublist.map _)

theorem mem_edgesTo {g : SlotGraph ν ε} {n e : Nat} :
    e ∈ g.edgesTo n ↔ ∃ x, g.edges.get? e = some x ∧ x.dest = n := by
  simp [edgesTo, Slots.get?_eq_some_iff]

theorem mem_edges {g : SlotGraph ν ε} {e : Nat} :
    e ∈ StableDigraph.edges g ↔ (g.edges.get? e).isSome := by
  refine ⟨fun h => (List.mem_filter.1 h).2, fun h => List.mem_filter.2 ⟨?_, h⟩⟩
  exact g.edges.perm_range.mem_iff.1 (List.mem_append_left _ (Slots.isSome_get?_iff.1 h))

theorem edge?_addEdge {g : SlotGraph ν ε} {a b : Nat} (w : ε) (ha : (g.nodes.get? a).isSome)
    (hb : (g.nodes.get? b).isSome) (e : Nat) : edge? (g.addEdge a b w) e =
      if e = g.edges.next then some ⟨a, b, w⟩ else g.edges.get? e := by
  change (g.addEdge a b w).edges.get? e = _
  rw [addEdge, dif_pos ⟨ha, hb⟩]
  exact g.edges.get?_put _ e

theorem findEdge?_eq_some {g : SlotGraph ν ε} {a b e : Nat} (h : findEdge? g a b = some e) :
    ∃ w, g.edges.get? e = some ⟨a, b, w⟩ := by
  obtain ⟨⟨d, x⟩, hx, rfl⟩ := Option.map_eq_some_iff.1 h
  obtain ⟨rfl, rfl⟩ : x.source = a ∧ x.dest = b := by simpa using List.find?_some hx
  exact ⟨x.weight, Slots.get?_eq_some_iff.2 (List.mem_of_find?_eq_some hx)⟩

theorem isSome_findEdge? {g : SlotGraph ν ε} {e : Nat} {x : Edge ε}
    (h : g.edges.get? e = some x) : (findEdge? g x.source x.dest).isSome := by
  refine Option.isSome_map.trans (List.find?_isSome.2 ⟨(e, x), Slots.get?_eq_some_iff.1 h, ?_⟩)
  simp

theorem isolated_iff {g : SlotGraph ν ε} {n : Nat} : isolated g n = true ↔
    ∀ e x, g.edges.get? e = some x → x.source ≠ n ∧ x.dest ≠ n := by
  refine List.all_eq_true.trans ?_
  simp [Slots.get?_eq_some_iff]

instance : Lawful (SlotGraph ν ε) where
  node?_empty _ := rfl
  ends g _ x h := g.ends _ (Slots.get?_eq_some_iff.1 h)
  node?_addNode_fst g _ := g.nodes.get?_next
  node?_addNode g a n := g.nodes.get?_put a n
  edge?_addNode _ _ _ := rfl
  node?_modifyNode g n f m := g.nodes.get?_modify n f m
  edge?_modifyNode _ _ _ _ := rfl
  removeNode_fst _ _ := rfl
  node?_removeNode g n m := g.nodes.get?_vacate n m
  edge?_removeNode g n e := g.get?_isolate n e
  node?_addEdge g a b w n := by
    change (g.addEdge a b w).nodes.get? n = g.nodes.get? n
    unfold addEdge
    split_ifs <;> rfl
  edge?_addEdge g _ _ w ha hb := ⟨g.edges.next, g.edges.get?_next, edge?_addEdge w ha hb⟩
  node?_modifyEdge _ _ _ _ := rfl
  edge?_modifyEdge g e f d := g.edges.get?_modify e _ d
  edge?_of_findEdge? _ _ _ _ h := findEdge?_eq_some h
  findEdge?_isSome _ _ _ h := isSome_findEdge? h
  nodup_edgesFrom := nodup_edgesFrom
  mem_edgesFrom _ _ _ := mem_edgesFrom
  nodup_edgesTo := nodup_edgesTo
  mem_edgesTo _ _ _ := mem_edgesTo
  isolated_iff _ _ := isolated_iff
  pairwise_edges _ := List.pairwise_lt_range.filter _
  mem_edges _ _ := mem_edges

end Netlist.SlotGraph
