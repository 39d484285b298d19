import Netlist.Proofs.Document.Merging
import Netlist.Proofs.Wiring.Regrouping

/-!
# Graphs put together anew

A graph that was read from a document has been checked against no catalog. It can be validated as a
whole, or it can be put together again by calls that each check what they add. Both accept the same
graphs, and what the calls put together is the graph that was read.

## Main definitions

* `Netlist.Graph.calls`: the calls that put a graph together.
* `Netlist.Graph.replay`: what they make of the empty graph.

## Main results

* `Netlist.Graph.replay_eq_ok_iff`: exactly the sound graphs are put together.
* `Netlist.Graph.validate_iff_replay`: validation accepts exactly these.
-/

namespace Netlist

namespace Graph

open Inline

variable {c : Catalog} {g g' : Graph} {is : List Instance} {ks ls : List Bundle}

/-- The calls that put a graph together from nothing. Each instance is added as a cell and then gets
its role; then come the links, in the order of their slots. -/
def calls (c : Catalog) (g : Graph) : List Call :=
  (g.instances.flatMap fun i =>
      [.instantiate c i.name i.module, .relabel i.name i.module i.role]) ++
    g.connections.map fun l => .connect c l.source l.dest l.bindings

/-- What the calls that put a graph together make of the empty graph, if each of them succeeds. -/
def replay (c : Catalog) (g : Graph) : Except Error Graph :=
  (g.calls c).foldlM call empty

/-! ### Instances -/

/-- An instance that was added under a new name gets another module and role. -/
theorem relabel_push {i : Instance} (hi : i.name ∉ g.names) (module : String) (role : Role) :
    (g.push i).relabel i.name module role = .ok (g.push ⟨i.name, module, role⟩) := by
  have hmem : i.name ∈ (g.push i).names := by simp
  have hold : (g.instances.map fun j => if j.name = i.name then ⟨i.name, module, role⟩ else j) =
      g.instances := by
    refine (List.map_congr_left fun j hj => if_neg fun he => ?_).trans (List.map_id' _)
    exact hi (mem_names.2 ⟨j, hj, he⟩)
  rw [relabel, if_pos (contains_iff.2 hmem)]
  simp only [push, List.map_append, List.map_singleton, if_true, hold]

/-- The two calls for an instance add it if its module is registered. -/
theorem foldlM_call_instance {i : Instance} (hi : i.name ∉ g.names) :
    [Call.instantiate c i.name i.module, .relabel i.name i.module i.role].foldlM call g = .ok g' ↔
      c.contains i.module = true ∧ g' = g.push i := by
  have hrelabel := relabel_push (i := ⟨i.name, i.module, .cell⟩) hi i.module i.role
  simp only [List.foldlM_cons, List.foldlM_nil, bind_eq_ok_iff, call, instantiate_eq_ok_iff]
  constructor
  · rintro ⟨_, ⟨-, hm, rfl⟩, _, hr, h⟩
    cases h
    exact ⟨hm, Except.ok.inj (hr.symm.trans hrelabel)⟩
  · rintro ⟨hm, rfl⟩
    exact ⟨_, ⟨hi, hm, rfl⟩, _, hrelabel, rfl⟩

/-- The calls for several instances add them if their modules are registered. -/
theorem foldlM_call_instances (hnames : (g.names ++ is.map Instance.name).Nodup) :
    (is.flatMap fun i => [Call.instantiate c i.name i.module,
      .relabel i.name i.module i.role]).foldlM call g = .ok g' ↔
    (∀ i ∈ is, c.contains i.module = true) ∧ g' = { g with instances := g.instances ++ is } := by
  induction is generalizing g with
  | nil =>
    rw [List.append_nil]
    exact ⟨fun h => ⟨fun _ hi => (nomatch hi), (Except.ok.inj h).symm⟩, fun h => h.2 ▸ rfl⟩
  | cons i is ih =>
    rw [List.map_cons, List.append_cons] at hnames
    have hi : i.name ∉ g.names := fun hm =>
      List.disjoint_of_nodup_append hnames.of_append_left hm (List.mem_singleton_self _)
    rw [← names_push] at hnames
    rw [List.flatMap_cons, List.foldlM_append, bind_eq_ok_iff, List.forall_mem_cons]
    simp only [foldlM_call_instance hi]
    constructor
    · rintro ⟨_, ⟨hm, rfl⟩, h⟩
      obtain ⟨hms, rfl⟩ := (ih hnames).1 h
      exact ⟨⟨hm, hms⟩, by simp [push]⟩
    · rintro ⟨⟨hm, hms⟩, rfl⟩
      exact ⟨_, ⟨hm, rfl⟩, (ih hnames).2 ⟨hms, by simp [push]⟩⟩

/-! ### Links -/

/-- Links that are added between instances without links come in slots without gaps. -/
theorem eq_ofBundles_of_connectAll
    (hone : (ks ++ ls).Pairwise fun k l => ¬(k.source = l.source ∧ k.dest = l.dest))
    (h : connectAll c (ofBundles is ks) ls = .ok g') : g' = ofBundles is (ks ++ ls) := by
  induction ls generalizing ks with
  | nil => rw [connectAll_nil_eq_ok_iff.1 h, List.append_nil]
  | cons l ls ih =>
    obtain ⟨g₁, h₁, h⟩ := connectAll_cons_eq_ok_iff.1 h
    obtain ⟨_, _, _, _, _, _, _, rfl⟩ := connect_eq_ok_iff.1 h₁
    -- no link before this one has its ends, so that it is not merged with any of them
    have hnew := fun k hk => (List.pairwise_append.1 hone).2.2 k hk l List.mem_cons_self
    rw [bind_ofBundles hnew] at h
    rw [List.append_cons] at hone ⊢
    exact ih hone h

/-- The links of a well-formed graph can be made anew if its wires fit. -/
theorem compatible_connections_iff (hg : g.WellFormed) :
    Compatible c (ofBundles g.instances []) (g.connections.map Link.toBundle) ↔
      ∀ w ∈ g.wires, ∃ i j, g.instance? w.source.owner = some i ∧
        g.instance? w.dest.owner = some j ∧ Fits c i j ⟨w.source.port, w.dest.port⟩ := by
  have hwires := flatMap_wires_connections g
  constructor
  · exact fun h w hw => h.fits w (hwires.symm ▸ hw)
  · refine fun h => ⟨?_, fun w hw => h w (hwires ▸ hw), ?_⟩
    · rintro s d ⟨l, hl, he⟩
      exact hg.ends_mem s d (linked_packed.1 (linked_ofBundles.2 ⟨l, hl, he⟩))
    · rw [wires_ofBundles, List.flatMap_nil, List.nil_append, hwires]
      exact hg.nodup_dests

theorem foldlM_call_connections (g₀ : Graph) (ls : List Link) :
    (ls.map fun l => Call.connect c l.source l.dest l.bindings).foldlM call g₀ =
      connectAll c g₀ (ls.map Link.toBundle) := by
  rw [connectAll, List.foldlM_map, List.foldlM_map]
  rfl

/-! ### Whole graphs -/

/-- Exactly the sound graphs are put together, with their links in slots without gaps. -/
theorem replay_eq_ok_iff (hg : g.WellFormed) :
    replay c g = .ok g' ↔ g.Sound c ∧ g' = g.packed := by
  have hone := oneLink_ofBundles.1 hg.packed.oneLink
  have hempty := wellFormed_ofBundles_nil hg.nodup_names
  have hinstances (g₁ : Graph) : (g.instances.flatMap fun i =>
      [Call.instantiate c i.name i.module, .relabel i.name i.module i.role]).foldlM call empty =
        .ok g₁ ↔ (∀ i ∈ g.instances, c.contains i.module = true) ∧ g₁ = ofBundles g.instances [] :=
    foldlM_call_instances hg.nodup_names
  rw [replay, calls, List.foldlM_append, bind_eq_ok_iff]
  simp only [hinstances, foldlM_call_connections]
  constructor
  · rintro ⟨_, ⟨hm, rfl⟩, h⟩
    have hcompatible := (exists_connectAll_iff hempty).1 ⟨g', h⟩
    exact ⟨⟨hm, (compatible_connections_iff hg).1 hcompatible⟩, eq_ofBundles_of_connectAll hone h⟩
  · rintro ⟨hs, rfl⟩
    obtain ⟨g₁, h⟩ := (exists_connectAll_iff hempty).2 ((compatible_connections_iff hg).2 hs.fits)
    obtain rfl := eq_ofBundles_of_connectAll hone h
    exact ⟨_, ⟨hs.registered, rfl⟩, h⟩

/-- Validation accepts a graph that was read exactly if the graph can be put together anew, each
call with success. What comes out is the same graph. -/
theorem validate_iff_replay {doc : GraphDocument} (h : ofDocument doc = .ok g) (c : Catalog) :
    (g.validate c = .ok () ↔ ∃ g', replay c g = .ok g') ∧
      ∀ g', replay c g = .ok g' → g'.Agree g ∧ g' = g := by
  obtain ⟨hg, -, hpacked⟩ := ofDocument_eq_ok h
  rw [validate_eq_ok_iff hg]
  simp only [replay_eq_ok_iff hg, hpacked]
  refine ⟨⟨fun hs => ⟨g, hs, rfl⟩, fun ⟨_, hs, _⟩ => hs⟩, ?_⟩
  rintro _ ⟨-, rfl⟩
  exact ⟨.refl _, rfl⟩

end Graph

namespace Sample

/-- The document of a graph in which a boundary drives a leaf through two ports. -/
def document : GraphDocument where
  directed := true
  nodes := mixed.instances
  links := [⟨"in", "q", [⟨"b", "b"⟩, ⟨"a", "a"⟩]⟩, ⟨"q", "p", [⟨"y", "c"⟩]⟩]

end Sample

namespace Graph

theorem validate_iff_replay_document : ∃ g, ofDocument Sample.document = .ok g ∧
    g.validate Sample.mixers = .ok () ∧ (∃ g', replay Sample.mixers g = .ok g' ∧ g'.Agree g) ∧
    ¬∃ g', replay Sample.leaves g = .ok g' := by
  have h : ofDocument Sample.document =
      .ok (ofBundles Sample.document.nodes Sample.document.links) := by decide
  have hvalid : (ofBundles Sample.document.nodes Sample.document.links).validate Sample.mixers =
      .ok () := by decide
  have hrefused : (ofBundles Sample.document.nodes Sample.document.links).validate Sample.leaves ≠
      .ok () := by decide
  obtain ⟨hiff, hsame⟩ := validate_iff_replay h Sample.mixers
  obtain ⟨g', hg'⟩ := hiff.1 hvalid
  exact ⟨_, h, hvalid, ⟨g', hg', (hsame g' hg').1⟩,
    fun hr => hrefused ((validate_iff_replay h Sample.leaves).1.2 hr)⟩

end Graph

end Netlist
