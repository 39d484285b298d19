import Mathlib.Data.List.Induction
import Netlist.Proofs.Document.Graph

/-!
# What a document of a graph stands for

A document may list several links between the same two instances. They become one link of the
graph, where the first of them stands, with all their bindings in order. Apart from this, a graph
has what its document lists, and a document is refused only for what no graph can have.

## Main definitions

* `Netlist.Bundle.merged`: the links of a list that have the same ends, as one link each.
* `Netlist.GraphDocument.Admissible`: what a document must be like to stand for a graph.

## Main results

* `Netlist.Graph.addLinks_eq_ok_iff`: which links can be added to a graph, and what this gives.
* `Netlist.Graph.ofDocument_eq_ok_iff`: exactly the admissible documents are read.
* `Netlist.Graph.ofDocument_eq_ok`: what every graph that was read from a document satisfies.
* `Netlist.Graph.ofDocument_merges`: reading loses nothing, and what was read is read back.
-/

namespace Netlist

/-! ### Links with the same ends -/

namespace Bundle

/-- The instances that a bundle is between. -/
def ends (l : Bundle) : String × String :=
  (l.source, l.dest)

/-- The bundles of a list that have the same ends become one, where the first of them stands, with
all their bindings in order. -/
def merged (ls : List Bundle) : List Bundle :=
  (ls.map ends).eraseDups.map fun e => ⟨e.1, e.2, (ls.filter (·.ends = e)).flatMap bindings⟩

theorem ends_eq_iff {k l : Bundle} : k.ends = l.ends ↔ k.source = l.source ∧ k.dest = l.dest :=
  Prod.ext_iff

theorem exists_mem_merged_iff {ls : List Bundle} {s d : String} :
    (∃ l ∈ merged ls, l.source = s ∧ l.dest = d) ↔ ∃ l ∈ ls, l.source = s ∧ l.dest = d := by
  simp [merged, ends, List.mem_eraseDups]

private theorem eraseDups_concat {α : Type} [BEq α] [LawfulBEq α] [DecidableEq α] (xs : List α)
    (x : α) :
    (xs ++ [x]).eraseDups = if x ∈ xs then xs.eraseDups else xs.eraseDups ++ [x] := by
  rw [List.eraseDups_append]
  by_cases h : x ∈ xs <;> simp [List.removeAll, h, List.eraseDups_cons]

/-- One more bundle extends the one with its ends if there is one, and else comes last. -/
theorem merged_concat (ls : List Bundle) (l : Bundle) : merged (ls ++ [l]) =
    if l.ends ∈ ls.map ends then (merged ls).map (extend l.source l.dest l.bindings)
    else merged ls ++ [l] := by
  have hbindings (e : String × String) : ((ls ++ [l]).filter (·.ends = e)).flatMap bindings =
      (ls.filter (·.ends = e)).flatMap bindings ++ if l.ends = e then l.bindings else [] := by
    rw [List.filter_append, List.flatMap_append]
    by_cases h : l.ends = e <;> simp [h]
  rw [merged, List.map_append, List.map_singleton, eraseDups_concat]
  simp only [hbindings]
  split_ifs with h
  · rw [merged, List.map_map]
    refine List.map_congr_left fun e _ => ?_
    by_cases he : l.ends = e
    · subst he
      simp [extend, ends]
    · have hne : ¬(e.1 = l.source ∧ e.2 = l.dest) := fun hs => he (Prod.ext hs.1.symm hs.2.symm)
      simp [extend, he, hne]
  · rw [List.map_append, List.map_singleton, if_pos rfl]
    refine congrArg₂ (· ++ ·) (List.map_congr_left fun e he => ?_) ?_
    · have hne : l.ends ≠ e := fun hl => h (hl ▸ List.mem_eraseDups.1 he)
      rw [if_neg hne, List.append_nil]
    · have hnone : ls.filter (·.ends = l.ends) = [] :=
        List.filter_eq_nil_iff.2 fun k hk he => h (List.mem_map.2 ⟨k, hk, by simpa using he⟩)
      rw [hnone]
      rfl

end Bundle

namespace Graph

variable {g g' : Graph} {is : List Instance} {l : Bundle} {ks ls : List Bundle}

/-! ### Bindings in slots without gaps -/

/-- Bindings between linked instances come in the link that is there. -/
theorem bind_ofBundles_of_linked {s d : String} (h : (ofBundles is ls).Linked s d)
    (bs : List Binding) :
    (ofBundles is ls).bind s d bs = ofBundles is (ls.map (Bundle.extend s d bs)) := by
  obtain ⟨k, hk⟩ := Option.ne_none_iff_exists'.1 (mt link?_eq_none_iff.1 (not_not_intro h))
  rw [bind, hk]
  simp only [ofBundles, List.map_reverse, Graph.mk.injEq, true_and, and_true]
  refine congrArg List.reverse (List.ext_getElem (by simp) fun n _ _ => ?_)
  simp only [List.getElem_map, List.getElem_mapIdx, Bundle.extend]
  split_ifs <;> rfl

/-- Bindings are merged with those of the bundle that has their ends. -/
theorem bind_ofBundles_merged (is : List Instance) (ls : List Bundle) (l : Bundle) :
    (ofBundles is (Bundle.merged ls)).bind l.source l.dest l.bindings =
      ofBundles is (Bundle.merged (ls ++ [l])) := by
  have hlinked : l.ends ∈ ls.map Bundle.ends ↔
      (ofBundles is (Bundle.merged ls)).Linked l.source l.dest := by
    rw [linked_ofBundles, Bundle.exists_mem_merged_iff, List.mem_map]
    simp only [Bundle.ends_eq_iff]
  rw [Bundle.merged_concat]
  split_ifs with h
  · exact bind_ofBundles_of_linked (hlinked.1 h) _
  · refine bind_ofBundles fun k hk he => h (hlinked.2 ?_)
    exact linked_ofBundles.2 ⟨k, hk, he⟩

/-- The bindings of several bundles, one bundle after the other. -/
def bindAll (g : Graph) (ls : List Bundle) : Graph :=
  ls.foldl (fun g l => g.bind l.source l.dest l.bindings) g

theorem bindAll_ofBundles_nil (is : List Instance) (ls : List Bundle) :
    (ofBundles is []).bindAll ls = ofBundles is (Bundle.merged ls) := by
  induction ls using List.reverseRecOn with
  | nil => rfl
  | append_singleton ls l ih =>
    rw [← bind_ofBundles_merged, ← ih, bindAll, List.foldl_append]
    rfl

/-- Binding adds the new wires and no others. -/
theorem wires_bindAll_perm (hone : OneLink g.links) (ls : List Bundle) :
    (g.bindAll ls).wires.Perm (g.wires ++ ls.flatMap Bundle.wires) := by
  induction ls generalizing g with
  | nil => rw [List.flatMap_nil, List.append_nil]; rfl
  | cons l ls ih =>
    have hstep := (wires_bind_perm hone l.source l.dest l.bindings).append_right
      (ls.flatMap Bundle.wires)
    rw [List.append_assoc] at hstep
    exact (ih (hone.bind _ _ _)).trans hstep

/-! ### Adding links -/

theorem addLinks_cons_eq_ok_iff : g.addLinks (l :: ls) = .ok g' ↔ l.bindings ≠ [] ∧
    ∃ g₁, g.connectUntyped l.source l.dest l.bindings = .ok g₁ ∧ g₁.addLinks ls = .ok g' := by
  rw [addLinks, ite_error_eq_ok_iff]
  refine and_congr_right fun _ => ?_
  cases g.connectUntyped l.source l.dest l.bindings with
  | ok g₁ => simp
  | error e => cases e <;> simp

theorem addLinks_wellFormed (hg : g.WellFormed) (h : g.addLinks ls = .ok g') : g'.WellFormed := by
  induction ls generalizing g with
  | nil => exact Except.ok.inj h ▸ hg
  | cons l ls ih =>
    obtain ⟨-, g₁, h₁, h⟩ := addLinks_cons_eq_ok_iff.1 h
    exact ih (connectUntyped_wellFormed hg h₁) h

theorem addLinks_filled (hg : g.Filled) (h : g.addLinks ls = .ok g') : g'.Filled := by
  induction ls generalizing g with
  | nil => exact Except.ok.inj h ▸ hg
  | cons l ls ih =>
    obtain ⟨hl, g₁, h₁, h⟩ := addLinks_cons_eq_ok_iff.1 h
    obtain ⟨-, -, -, -, rfl⟩ := connectUntyped_eq_ok_iff.1 h₁
    exact ih (hg.bind hl _ _) h

/-- Links can be added if each of them has bindings and is between instances of the graph, and no
two wires, those of the graph included, end at the same port. -/
theorem addLinks_eq_ok_iff (hg : g.WellFormed) : g.addLinks ls = .ok g' ↔
    (∀ l ∈ ls, l.bindings ≠ [] ∧ l.source ∈ g.names ∧ l.dest ∈ g.names) ∧
      ((g.wires ++ ls.flatMap Bundle.wires).map Wire.dest).Nodup ∧ g' = g.bindAll ls := by
  induction ls generalizing g with
  | nil =>
    rw [List.flatMap_nil, List.append_nil]
    exact ⟨fun h => ⟨fun _ h => (nomatch h), hg.nodup_dests, (Except.ok.inj h).symm⟩,
      fun h => h.2.2 ▸ rfl⟩
  | cons l ls ih =>
    rw [addLinks_cons_eq_ok_iff, List.forall_mem_cons, List.flatMap_cons, ← List.append_assoc]
    simp only [connectUntyped_eq_ok_iff]
    -- the wires of the next link are wires of the graph when the others are added
    have hwires := ((wires_bind_perm hg.oneLink l.source l.dest l.bindings).append_right
      (ls.flatMap Bundle.wires)).map Wire.dest
    constructor
    · rintro ⟨hl, _, ⟨hs, hd, hnew, hfree, rfl⟩, h⟩
      obtain ⟨hls, hnodup, rfl⟩ := (ih (hg.bind hs hd hnew hfree)).1 h
      rw [names_bind] at hls
      exact ⟨⟨⟨hl, hs, hd⟩, hls⟩, hwires.nodup_iff.1 hnodup, rfl⟩
    · rintro ⟨⟨⟨hl, hs, hd⟩, hls⟩, hnodup, rfl⟩
      obtain ⟨hnew, hfree⟩ := hg.nodup_dests_append_iff.1
        (hnodup.sublist ((List.sublist_append_left _ _).map _))
      refine ⟨hl, _, ⟨hs, hd, hnew, hfree, rfl⟩, (ih (hg.bind hs hd hnew hfree)).2 ⟨?_, ?_, rfl⟩⟩
      · rwa [names_bind]
      · exact hwires.nodup_iff.2 hnodup

end Graph

/-! ### What is read -/

/-- What a document must be like to stand for a graph: its links have a direction, lead from node
to node and have bindings, no two nodes have the same name, and no two wires, of all the links
together, end at the same port. -/
structure GraphDocument.Admissible (d : GraphDocument) : Prop where
  directed : d.directed = true
  nodup_names : (d.nodes.map Instance.name).Nodup
  ends_mem : ∀ l ∈ d.links,
    l.source ∈ d.nodes.map Instance.name ∧ l.dest ∈ d.nodes.map Instance.name
  bound : ∀ l ∈ d.links, l.bindings ≠ []
  nodup_dests : ((d.links.flatMap Bundle.wires).map Wire.dest).Nodup

namespace Graph

variable {g : Graph} {d : GraphDocument}

theorem ofDocument_eq_addLinks {g' : Graph} : ofDocument d = .ok g' ↔ d.directed = true ∧
    (d.nodes.map Instance.name).Nodup ∧ (ofBundles d.nodes []).addLinks d.links = .ok g' := by
  have hinsert {g₁ : Graph} : d.nodes.foldlM insert empty = .ok g₁ ↔
      (d.nodes.map Instance.name).Nodup ∧ g₁ = ofBundles d.nodes [] :=
    foldlM_insert_eq_ok_iff WellFormed.empty.nodup_names
  unfold ofDocument
  cases d.directed with
  | false => exact ⟨fun h => (nomatch h), fun h => (nomatch h.1)⟩
  | true =>
    refine bind_eq_ok_iff.trans ?_
    simp only [hinsert, true_and, and_assoc, exists_and_left, exists_eq_left]

/-- Exactly the admissible documents are read. The graph has the nodes of the document, and its
links with those of the same ends merged. -/
theorem ofDocument_eq_ok_iff : ofDocument d = .ok g ↔
    d.Admissible ∧ g = ofBundles d.nodes (Bundle.merged d.links) := by
  rw [ofDocument_eq_addLinks]
  constructor
  · rintro ⟨hdirected, hnames, h⟩
    obtain ⟨hls, hnodup, rfl⟩ := (addLinks_eq_ok_iff (wellFormed_ofBundles_nil hnames)).1 h
    exact ⟨⟨hdirected, hnames, fun l hl => (hls l hl).2, fun l hl => (hls l hl).1, hnodup⟩,
      bindAll_ofBundles_nil _ _⟩
  · rintro ⟨hd, rfl⟩
    refine ⟨hd.directed, hd.nodup_names,
      (addLinks_eq_ok_iff (wellFormed_ofBundles_nil hd.nodup_names)).2 ⟨?_, ?_, ?_⟩⟩
    · exact fun l hl => ⟨hd.bound l hl, hd.ends_mem l hl⟩
    · exact hd.nodup_dests
    · exact (bindAll_ofBundles_nil _ _).symm

/-- A graph that was read is well formed, has no link without bindings and no gap between its
slots. -/
theorem ofDocument_eq_ok (h : ofDocument d = .ok g) : g.WellFormed ∧ g.Filled ∧ g.packed = g := by
  obtain ⟨-, hnames, hlinks⟩ := ofDocument_eq_addLinks.1 h
  have hempty : (ofBundles d.nodes []).Filled := fun _ h => (nomatch h)
  obtain ⟨-, rfl⟩ := ofDocument_eq_ok_iff.1 h
  exact ⟨addLinks_wellFormed (wellFormed_ofBundles_nil hnames) hlinks,
    addLinks_filled hempty hlinks, packed_ofBundles _ _⟩

/-- Exactly the admissible documents are read, and nothing of them is lost: the graph has their
nodes in order, their links with those of the same ends merged, and so their wires. Its own document
is read as the same graph. -/
theorem ofDocument_merges (d : GraphDocument) : ((∃ g, ofDocument d = .ok g) ↔ d.Admissible) ∧
    ∀ g, ofDocument d = .ok g → g.instances = d.nodes ∧
      g.connections.map Link.toBundle = Bundle.merged d.links ∧
      g.wires.Perm (d.links.flatMap Bundle.wires) ∧ ofDocument g.toDocument = .ok g ∧
      (ofDocument g.toDocument).map toDocument = .ok g.toDocument := by
  refine ⟨by simp only [ofDocument_eq_ok_iff, exists_and_left, exists_eq, and_true], ?_⟩
  intro g h
  obtain ⟨hw, hf, hpacked⟩ := ofDocument_eq_ok h
  have hread : ofDocument g.toDocument = .ok g := by
    rw [ofDocument_toDocument_of_filled hw hf, hpacked]
  obtain ⟨-, rfl⟩ := ofDocument_eq_ok_iff.1 h
  refine ⟨rfl, map_toBundle_connections_ofBundles _ _, ?_, hread, by rw [hread]; rfl⟩
  have hone : OneLink (ofBundles d.nodes []).links := .nil
  rw [← bindAll_ofBundles_nil]
  exact wires_bindAll_perm hone d.links

end Graph

namespace Sample

/-- The document of two instances that drive each other. Its first link and its last have the same
ends. -/
def circle : GraphDocument where
  directed := true
  nodes := [⟨"x", "leaf", .cell⟩, ⟨"y", "leaf", .cell⟩]
  links := [⟨"x", "y", [⟨"o", "i"⟩]⟩, ⟨"y", "x", [⟨"o", "i"⟩]⟩,
    ⟨"x", "y", [⟨"p", "j"⟩, ⟨"o", "k"⟩]⟩]

end Sample

namespace Graph

theorem ofDocument_merges_circle : ∃ g, ofDocument Sample.circle = .ok g ∧
    g.connections.map Link.toBundle =
      [⟨"x", "y", [⟨"o", "i"⟩, ⟨"p", "j"⟩, ⟨"o", "k"⟩]⟩, ⟨"y", "x", [⟨"o", "i"⟩]⟩] ∧
    g.wires.Perm (Sample.circle.links.flatMap Bundle.wires) ∧ ofDocument g.toDocument = .ok g := by
  have hadmissible : Sample.circle.Admissible :=
    ⟨rfl, by decide, by decide, by decide, by decide⟩
  obtain ⟨hiff, hread⟩ := ofDocument_merges Sample.circle
  obtain ⟨g, hg⟩ := hiff.2 hadmissible
  obtain ⟨-, hlinks, hwires, hagain, -⟩ := hread g hg
  exact ⟨g, hg, hlinks.trans (by decide), hwires, hagain⟩

end Graph

end Netlist
