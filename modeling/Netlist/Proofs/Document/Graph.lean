import Netlist.Proofs.Document.Values
import Netlist.Proofs.Graph.Agree
import Netlist.Proofs.Wiring

/-!
# Saved graphs

A document lists the links of a graph by slot and forgets the slots. Reading it back numbers the
links anew, without gaps, and refuses a link without bindings. Nothing else is lost.

## Main definitions

* `Netlist.Graph.ofBundles`: instances and bundles as a graph with slots numbered without gaps.
* `Netlist.Graph.packed`: a graph with its links numbered anew.
* `Netlist.Graph.firstEmpty?`: the first link without bindings, which reading refuses.

## Main results

* `Netlist.Graph.ofDocument_toDocument`, `Netlist.Graph.ofText_toText`: what is read back from a
  saved graph.
* `Netlist.Graph.WellFormed.agree_packed`: numbering links anew gives a graph that agrees.
-/

namespace Netlist

/-! ### Links that are in order already -/

namespace Link

private theorem insertBySlot_of_forall_not_lt {l : Link} {ks : List Link}
    (h : ∀ k ∈ ks, ¬l.slot < k.slot) : insertBySlot l ks = ks ++ [l] := by
  induction ks with
  | nil => rfl
  | cons k ks ih =>
    obtain ⟨hk, hks⟩ := List.forall_mem_cons.1 h
    rw [insertBySlot, if_neg hk, ih hks, List.cons_append]

/-- Links whose slots decrease are sorted by reversal. -/
theorem sortBySlot_of_pairwise {ls : List Link} (h : ls.Pairwise fun k l => l.slot < k.slot) :
    sortBySlot ls = ls.reverse := by
  induction ls with
  | nil => rfl
  | cons l ls ih =>
    obtain ⟨hl, hls⟩ := List.pairwise_cons.1 h
    change insertBySlot l (sortBySlot ls) = _
    rw [ih hls, List.reverse_cons]
    exact insertBySlot_of_forall_not_lt fun k hk =>
      Nat.not_lt.2 (hl k (List.mem_reverse.1 hk)).le

end Link

namespace Graph

/-! ### Slots without gaps -/

/-- Instances and bundles as a graph. The bundles have the slots from zero on. -/
def ofBundles (is : List Instance) (ls : List Bundle) : Graph :=
  ⟨is, (ls.mapIdx fun k l => ⟨l, k⟩).reverse, []⟩

variable {g g' : Graph} {is js : List Instance} {ks ls : List Bundle}

theorem ofBundles_concat (is : List Instance) (ls : List Bundle) (l : Bundle) :
    ofBundles is (ls ++ [l]) =
      ⟨is, ⟨l, ls.length⟩ :: (ofBundles is ls).links, []⟩ := by
  simp [ofBundles, List.mapIdx_concat]

/-- A new link takes the next slot. -/
theorem addLink_ofBundles (is : List Instance) (ls : List Bundle) (s d : String)
    (bs : List Binding) : (ofBundles is ls).addLink s d bs = ofBundles is (ls ++ [⟨s, d, bs⟩]) := by
  have hlength : (ofBundles is ls).links.length = ls.length := by simp [ofBundles]
  rw [ofBundles_concat, ← hlength]
  rfl

@[simp] theorem connections_ofBundles (is : List Instance) (ls : List Bundle) :
    (ofBundles is ls).connections = ls.mapIdx fun k l => ⟨l, k⟩ := by
  have hlt : (ofBundles is ls).links.Pairwise fun k l => l.slot < k.slot := by
    rw [ofBundles, List.pairwise_reverse, List.pairwise_iff_getElem]
    intro i j hi hj hij
    simpa using hij
  rw [connections, Link.sortBySlot_of_pairwise hlt, ofBundles, List.reverse_reverse]

theorem map_toBundle_connections_ofBundles (is : List Instance) (ls : List Bundle) :
    (ofBundles is ls).connections.map Link.toBundle = ls := by
  rw [connections_ofBundles]
  refine List.ext_getElem (by simp) fun i _ _ => ?_
  simp

theorem mem_links_ofBundles {l : Bundle} :
    l ∈ ls ↔ ∃ k ∈ (ofBundles is ls).links, k.toBundle = l := by
  conv_lhs => rw [← map_toBundle_connections_ofBundles is ls, List.mem_map]
  simp only [mem_connections]

theorem flatMap_wires_connections (g : Graph) :
    (g.connections.map Link.toBundle).flatMap Bundle.wires = g.wires := by
  rw [List.flatMap_map, wires]

@[simp] theorem wires_ofBundles (is : List Instance) (ls : List Bundle) :
    (ofBundles is ls).wires = ls.flatMap Bundle.wires := by
  rw [← flatMap_wires_connections, map_toBundle_connections_ofBundles]

theorem linked_ofBundles {s d : String} :
    (ofBundles is ls).Linked s d ↔ ∃ l ∈ ls, l.source = s ∧ l.dest = d := by
  constructor
  · rintro ⟨l, hl, rfl, rfl⟩
    exact ⟨l.toBundle, mem_links_ofBundles.2 ⟨l, hl, rfl⟩, rfl, rfl⟩
  · rintro ⟨l, hl, rfl, rfl⟩
    obtain ⟨k, hk, rfl⟩ := mem_links_ofBundles.1 hl
    exact ⟨k, hk, rfl, rfl⟩

theorem oneLink_ofBundles : OneLink (ofBundles is ls).links ↔
    ls.Pairwise fun k l => ¬(k.source = l.source ∧ k.dest = l.dest) := by
  rw [OneLink, ofBundles, List.pairwise_reverse, List.pairwise_iff_getElem,
    List.pairwise_iff_getElem]
  simp [eq_comm]

/-- Bindings between instances without a link between them come in a new link. -/
theorem bind_ofBundles {l : Bundle} (h : ∀ k ∈ ks, ¬(k.source = l.source ∧ k.dest = l.dest)) :
    (ofBundles is ks).bind l.source l.dest l.bindings = ofBundles is (ks ++ [l]) := by
  have hlink : (ofBundles is ks).link? l.source l.dest = none := by
    rw [link?_eq_none_iff, linked_ofBundles]
    rintro ⟨k, hk, he⟩
    exact h k hk he
  rw [bind, hlink]
  exact addLink_ofBundles is ks _ _ _

theorem wellFormed_ofBundles_nil (hnames : (is.map Instance.name).Nodup) :
    (ofBundles is []).WellFormed where
  nodup_names := hnames
  ends_mem := by
    rintro s d ⟨l, hl, -⟩
    cases hl
  oneLink := .nil
  nodup_dests := List.nodup_nil

/-- The graph with its links numbered anew, in the order of their slots. -/
def packed (g : Graph) : Graph :=
  ofBundles g.instances (g.connections.map Link.toBundle)

@[simp] theorem instances_packed (g : Graph) : g.packed.instances = g.instances :=
  rfl

theorem map_toBundle_connections_packed (g : Graph) :
    g.packed.connections.map Link.toBundle = g.connections.map Link.toBundle :=
  map_toBundle_connections_ofBundles _ _

@[simp] theorem wires_packed (g : Graph) : g.packed.wires = g.wires := by
  rw [packed, wires_ofBundles, flatMap_wires_connections]

@[simp] theorem linked_packed {s d : String} : g.packed.Linked s d ↔ g.Linked s d := by
  rw [packed, linked_ofBundles]
  simp only [List.mem_map, mem_connections, exists_exists_and_eq_and]
  rfl

/-- Slots without gaps are numbered as they are. -/
@[simp] theorem packed_ofBundles (is : List Instance) (ls : List Bundle) :
    (ofBundles is ls).packed = ofBundles is ls := by
  rw [packed, map_toBundle_connections_ofBundles]
  rfl

namespace WellFormed

theorem packed (hg : g.WellFormed) : g.packed.WellFormed where
  nodup_names := hg.nodup_names
  ends_mem s d h := hg.ends_mem s d (linked_packed.1 h)
  oneLink := oneLink_ofBundles.2 (List.pairwise_map.2 hg.oneLink.connections)
  nodup_dests := by
    rw [wires_packed]
    exact hg.nodup_dests

/-- The first links of a well-formed graph make a well-formed graph. -/
theorem of_ofBundles_append (h : (ofBundles is (ks ++ ls)).WellFormed) :
    (ofBundles is ks).WellFormed where
  nodup_names := h.nodup_names
  ends_mem s d hl := by
    obtain ⟨l, hl, he⟩ := linked_ofBundles.1 hl
    exact h.ends_mem s d (linked_ofBundles.2 ⟨l, List.mem_append_left _ hl, he⟩)
  oneLink := oneLink_ofBundles.2 (List.pairwise_append.1 (oneLink_ofBundles.1 h.oneLink)).1
  nodup_dests := by
    have hdests := h.nodup_dests
    rw [wires_ofBundles, List.flatMap_append, List.map_append] at hdests
    rw [wires_ofBundles]
    exact hdests.of_append_left

/-- Numbering the links anew gives a graph that agrees. -/
theorem agree_packed (hg : g.WellFormed) : g.Agree g.packed :=
  (agree_iff hg hg.packed).2
    ⟨fun _ => Iff.rfl, fun _ _ => linked_packed.symm, fun _ => by rw [wires_packed]⟩

end WellFormed

/-! ### Reading what was written -/

/-- The first link without bindings, in the order of slots. -/
def firstEmpty? (g : Graph) : Option Bundle :=
  (g.connections.map Link.toBundle).find? fun l => l.bindings.isEmpty

theorem firstEmpty?_eq_none_iff : g.firstEmpty? = none ↔ g.Filled := by
  simp only [firstEmpty?, List.find?_eq_none, List.forall_mem_map, List.isEmpty_iff,
    mem_connections, Filled, ne_eq]

/-- Nodes are added if their names are new and distinct. -/
theorem foldlM_insert_eq_ok_iff (hg : g.names.Nodup) : is.foldlM insert g = .ok g' ↔
    (g.names ++ is.map Instance.name).Nodup ∧
      g' = { g with instances := g.instances ++ is } := by
  induction is generalizing g with
  | nil =>
    rw [List.map_nil, List.append_nil, List.append_nil]
    exact ⟨fun h => ⟨hg, (Except.ok.inj h).symm⟩, fun h => h.2 ▸ rfl⟩
  | cons i is ih =>
    rw [List.foldlM_cons, bind_eq_ok_iff, List.map_cons, List.append_cons g.names]
    simp only [insert_eq_ok_iff]
    have hpush (hi : i.name ∉ g.names) : (g.push i).names.Nodup := by
      rw [names_push]
      exact hg.append (List.nodup_singleton _) (List.disjoint_singleton.2 hi)
    constructor
    · rintro ⟨_, ⟨hi, rfl⟩, h⟩
      obtain ⟨hnodup, rfl⟩ := (ih (hpush hi)).1 h
      exact ⟨names_push g i ▸ hnodup, by simp [push]⟩
    · rintro ⟨hnodup, rfl⟩
      have hi : i.name ∉ g.names := fun hm =>
        List.disjoint_of_nodup_append hnodup.of_append_left hm (List.mem_singleton_self _)
      exact ⟨_, ⟨hi, rfl⟩, (ih (hpush hi)).2 ⟨names_push g i ▸ hnodup, by simp [push]⟩⟩

/-- The next link of a well-formed graph can be added to those before it. -/
private theorem connectUntyped_ofBundles {l : Bundle}
    (h : (ofBundles is (ks ++ l :: ls)).WellFormed) :
    (ofBundles is ks).connectUntyped l.source l.dest l.bindings =
      .ok (ofBundles is (ks ++ [l])) := by
  have hlinked : (ofBundles is (ks ++ l :: ls)).Linked l.source l.dest :=
    linked_ofBundles.2 ⟨l, by simp, rfl, rfl⟩
  obtain ⟨hs, hd⟩ := h.ends_mem _ _ hlinked
  -- the destinations of the new wires are distinct and differ from those before
  have hdests := h.nodup_dests
  rw [wires_ofBundles, List.flatMap_append, List.flatMap_cons, ← List.append_assoc,
    List.map_append] at hdests
  rw [← wires_ofBundles is ks] at hdests
  obtain ⟨hnew, hfree⟩ := h.of_ofBundles_append.nodup_dests_append_iff.1 hdests.of_append_left
  have hbind : (ofBundles is ks).bind l.source l.dest l.bindings = ofBundles is (ks ++ [l]) :=
    bind_ofBundles fun k hk =>
      (List.pairwise_append.1 (oneLink_ofBundles.1 h.oneLink)).2.2 k hk l List.mem_cons_self
  exact connectUntyped_eq_ok_iff.2 ⟨hs, hd, hnew, hfree, hbind.symm⟩

/-- All links of a well-formed graph are added, unless one of them is without bindings. -/
private theorem addLinks_ofBundles (is : List Instance) (ks ls : List Bundle)
    (h : (ofBundles is (ks ++ ls)).WellFormed) :
    (ofBundles is ks).addLinks ls = match ls.find? fun l => l.bindings.isEmpty with
      | some l => .error (.malformedDocument (.emptyLink l.source l.dest))
      | none => .ok (ofBundles is (ks ++ ls)) := by
  induction ls generalizing ks with
  | nil => rw [List.append_nil]; rfl
  | cons l ls ih =>
    rw [addLinks]
    by_cases hl : l.bindings = []
    · rw [if_pos hl, List.find?_cons_of_pos (by simpa using hl)]
    · have hstep := connectUntyped_ofBundles h
      rw [List.append_cons ks l ls] at h ⊢
      rw [if_neg hl, List.find?_cons_of_neg (by simpa using hl), hstep]
      exact ih _ h

/-- Reading back the document of a graph numbers its links anew, or fails with the first link
without bindings. -/
theorem ofDocument_toDocument (hg : g.WellFormed) :
    ofDocument g.toDocument = match g.firstEmpty? with
      | some l => .error (.malformedDocument (.emptyLink l.source l.dest))
      | none => .ok g.packed := by
  have hnodes : g.instances.foldlM insert Graph.empty = .ok (ofBundles g.instances []) :=
    (foldlM_insert_eq_ok_iff WellFormed.empty.nodup_names).2 ⟨hg.nodup_names, rfl⟩
  have hread : ofDocument g.toDocument =
      (g.instances.foldlM insert Graph.empty >>= fun h =>
        h.addLinks (g.connections.map Link.toBundle)) := rfl
  rw [hread, hnodes]
  exact addLinks_ofBundles _ [] _ hg.packed

theorem ofDocument_toDocument_of_filled (hg : g.WellFormed) (hf : g.Filled) :
    ofDocument g.toDocument = .ok g.packed := by
  rw [ofDocument_toDocument hg, firstEmpty?_eq_none_iff.2 hf]

/-- The text of a graph is read as its document. -/
theorem ofText_toText (g : Graph) : ofText g.toText = ofDocument g.toDocument := by
  rw [ofText, toText, Json.parse?_pretty, Option.bind_some, GraphDocument.ofJson?_toJson]

end Graph

end Netlist
