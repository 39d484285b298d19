import Netlist.Emission.Drawing
import Netlist.Proofs.Catalog.Modules
import Netlist.Proofs.Wiring.Connect

/-!
# What drawings show

A drawing looks up ports by itself, once to list the ports of an instance and once to label a wire,
and each time turns them around by the role of the instance. A graph that passes validation has all
the ports that its wires use, so it can be drawn, and what is found at the ends of a wire is listed
at the instances there.

## Main definitions

* `Netlist.Drawing.Node.Depicts`: a node shows an instance with all ports that it offers.
* `Netlist.Drawing.Edge.Depicts`: an edge shows a link with its bindings.
* `Netlist.Drawing.Edge.Meets`: the wires of an edge lead from one node to another.

## Main results

* `Netlist.Graph.mem_drawPorts`: the ports that are listed for a use.
* `Netlist.Graph.exists_drawNode`: each instance of a registered module is depicted.
* `Netlist.Graph.exists_drawEdge`: each link of a sound graph is depicted.
* `Netlist.Graph.draw_depicts`: the drawing of a graph that passes validation.
-/

namespace Netlist

namespace Drawing

/-- A node depicts an instance if it has the name, the module and the role of it, and lists every
port that the instance offers, with the use and the type, no port twice for one use, and inputs in
front of outputs. -/
structure Node.Depicts (c : Catalog) (n : Node) (i : Instance) : Prop where
  name : n.name = i.name
  module : n.module = i.module
  role : n.role = i.role
  mem_ports : ∀ p, p ∈ n.ports ↔ ∃ type, i.Offers c p.name p.direction type ∧ p.label = type.text
  nodup : (n.ports.map fun p => (p.name, p.direction)).Nodup
  inputsFirst : ∃ inputs outputs, n.ports = inputs ++ outputs ∧
    (∀ p ∈ inputs, p.direction = .input) ∧ ∀ p ∈ outputs, p.direction = .output

/-- An edge depicts a link if it has the ends of it and, in order, a wire for each binding. -/
structure Edge.Depicts (e : Edge) (l : Link) : Prop where
  source : e.source = l.source
  dest : e.dest = l.dest
  wires : List.Forall₂ (fun (b : Binding) (w : Wire) => w.source = b.source ∧ w.dest = b.dest)
    l.bindings e.wires

/-- An edge meets the nodes at its ends if each of its wires begins at a listed output of the one,
which has the label of the wire, and ends at a listed input of the other. -/
structure Edge.Meets (e : Edge) (n k : Node) : Prop where
  source : n.name = e.source
  dest : k.name = e.dest
  output : ∀ w ∈ e.wires, ⟨w.source, .output, w.label⟩ ∈ n.ports
  input : ∀ w ∈ e.wires, ∃ label, ⟨w.dest, .input, label⟩ ∈ k.ports

end Drawing

namespace Graph

variable {c : Catalog} {g : Graph} {m : Module} {i : Instance} {role : Role} {used : Direction}

/-! ### Ports -/

/-- The ports that are listed for a use are those that the role turns into it. -/
theorem mem_drawPorts {p : Drawing.Port} : p ∈ drawPorts m role used ↔ p.direction = used ∧
    ∃ d type, role.declared? used = some d ∧ m.port? p.name d = some type ∧
      p.label = type.text := by
  obtain ⟨port, direction, label⟩ := p
  unfold drawPorts
  cases role.declared? used with
  | none => simp
  | some d =>
    simp only [List.mem_map, Drawing.Port.mk.injEq, Module.port?, OrderedMap.get?_eq_some_iff]
    constructor
    · rintro ⟨⟨_, type⟩, he, rfl, rfl, rfl⟩
      exact ⟨rfl, d, type, rfl, he, rfl⟩
    · rintro ⟨rfl, _, type, hd, he, rfl⟩
      cases hd
      exact ⟨_, he, rfl, rfl, rfl⟩

theorem direction_of_mem_drawPorts {p : Drawing.Port} (h : p ∈ drawPorts m role used) :
    p.direction = used :=
  (mem_drawPorts.1 h).1

/-- No port is listed twice for a use. -/
theorem nodup_drawPorts (m : Module) (role : Role) (used : Direction) :
    ((drawPorts m role used).map Drawing.Port.name).Nodup := by
  unfold drawPorts
  cases role.declared? used with
  | none => exact List.nodup_nil
  | some d =>
    rw [List.map_map]
    exact (m.ports d).nodup_keys

/-- The ports that are listed for an instance are those that it offers. -/
theorem mem_drawPorts_iff_offers (hm : c.module? i.module = some m) {p : Drawing.Port} :
    p ∈ drawPorts m i.role .input ++ drawPorts m i.role .output ↔
      ∃ type, i.Offers c p.name p.direction type ∧ p.label = type.text := by
  have hoffers (used : Direction) : p ∈ drawPorts m i.role used ↔ p.direction = used ∧
      ∃ type, i.Offers c p.name p.direction type ∧ p.label = type.text := by
    rw [mem_drawPorts]
    refine and_congr_right ?_
    rintro rfl
    constructor
    · rintro ⟨d, type, hd, hport, hlabel⟩
      exact ⟨type, ⟨m, d, hm, hd, hport⟩, hlabel⟩
    · rintro ⟨type, ⟨m', d, hm', hd, hport⟩, hlabel⟩
      cases hm.symm.trans hm'
      exact ⟨d, type, hd, hport, hlabel⟩
  rw [List.mem_append, hoffers, hoffers, ← or_and_right]
  refine and_iff_right ?_
  cases p.direction
  · exact .inl rfl
  · exact .inr rfl

/-! ### Nodes and edges -/

/-- An instance of a registered module is depicted. -/
theorem exists_drawNode (h : c.contains i.module = true) :
    ∃ n, drawNode c i = .ok n ∧ n.Depicts c i := by
  obtain ⟨m, hm⟩ := Catalog.contains_iff_module?.1 h
  refine ⟨_, by rw [drawNode, hm], rfl, rfl, rfl, fun p => mem_drawPorts_iff_offers hm, ?_,
    _, _, rfl, fun p => direction_of_mem_drawPorts, fun p => direction_of_mem_drawPorts⟩
  have hnodup (used : Direction) :
      ((drawPorts m i.role used).map fun p => (p.name, p.direction)).Nodup := by
    refine List.Nodup.of_map Prod.fst ?_
    rw [List.map_map]
    exact nodup_drawPorts m i.role used
  rw [List.map_append, List.nodup_append']
  refine ⟨hnodup .input, hnodup .output, fun x hin hout => ?_⟩
  obtain ⟨p, hp, rfl⟩ := List.mem_map.1 hin
  obtain ⟨q, hq, heq⟩ := List.mem_map.1 hout
  have hdirection := congrArg Prod.snd heq
  rw [direction_of_mem_drawPorts hq, direction_of_mem_drawPorts hp] at hdirection
  cases hdirection

/-- A link of a sound graph is depicted, and the edge meets the nodes that depict the ends of the
link. -/
theorem exists_drawEdge (hg : g.WellFormed) (hs : g.Sound c) {l : Link} (hl : l ∈ g.links) :
    ∃ e, drawEdge c g l = .ok e ∧ e.Depicts l ∧ ∃ i ∈ g.instances, ∃ j ∈ g.instances,
      ∀ n k, n.Depicts c i → k.Depicts c j → e.Meets n k := by
  obtain ⟨hsource, hdest⟩ := hg.ends_mem _ _ ⟨l, hl, rfl, rfl⟩
  obtain ⟨i, j, hi, hj, hfits⟩ := exists_fits_iff.2
    ⟨hsource, hdest, fun w hw => hs.fits w (mem_wires.2 ⟨l, hl, hw⟩)⟩
  obtain ⟨hmem, hname⟩ := instance?_eq_some hi
  obtain ⟨hmem', hname'⟩ := instance?_eq_some hj
  obtain ⟨ws, hws, hall⟩ := exists_mapM_eq_ok (f := fun b : Binding => do
      let type ← portType c i b.source .output
      return (⟨b.source, b.dest, type.text⟩ : Drawing.Wire))
    (P := fun b w => (w.source = b.source ∧ w.dest = b.dest) ∧
      (∃ type, i.Offers c w.source .output type ∧ w.label = type.text) ∧
      ∃ type, j.Offers c w.dest .input type) fun b hb => by
    obtain ⟨s, t, hs, ht, -⟩ := hfits b hb
    exact ⟨_, by rw [hs]; rfl, ⟨rfl, rfl⟩, ⟨s, portType_eq_ok_iff_offers.1 hs, rfl⟩,
      t, portType_eq_ok_iff_offers.1 ht⟩
  refine ⟨⟨l.source, l.dest, ws⟩, ?_, ⟨rfl, rfl, hall.imp fun _ _ h => h.1⟩, i, hmem, j, hmem',
    fun n k hn hk => ⟨hn.name.trans hname, hk.name.trans hname', fun w hw => ?_, fun w hw => ?_⟩⟩
  · rw [drawEdge, find_eq_ok_iff.2 hi, ok_bind, hws]
    rfl
  · obtain ⟨_, -, -, hsource, -⟩ := exists_mem_of_forall₂ hall hw
    exact (hn.mem_ports _).2 hsource
  · obtain ⟨_, -, -, -, type, hdest⟩ := exists_mem_of_forall₂ hall hw
    exact ⟨type.text, (hk.mem_ports _).2 ⟨type, hdest, rfl⟩⟩

/-- A graph that passes validation can be drawn. The nodes depict the instances in order, so they
have different names, and the edges depict the links in order. Each edge meets a node at either
end. -/
theorem draw_depicts (hg : g.WellFormed) (h : g.validate c = .ok ()) :
    ∃ d, g.draw c = .ok d ∧ List.Forall₂ (fun i n => n.Depicts c i) g.instances d.nodes ∧
      List.Forall₂ (fun l e => e.Depicts l) g.connections d.edges ∧
      (d.nodes.map Drawing.Node.name).Nodup ∧
      ∀ e ∈ d.edges, ∃ n ∈ d.nodes, ∃ k ∈ d.nodes, e.Meets n k := by
  have hs := (validate_eq_ok_iff hg).1 h
  obtain ⟨nodes, hnodes, hdepicted⟩ :=
    exists_mapM_eq_ok fun i hi => exists_drawNode (hs.registered i hi)
  obtain ⟨edges, hedges, hall⟩ :=
    exists_mapM_eq_ok fun l hl => exists_drawEdge hg hs (mem_connections.1 hl)
  have hnames : nodes.map Drawing.Node.name = g.names := by
    rw [names, ← List.forall₂_eq_eq_eq, List.forall₂_map_left_iff, List.forall₂_map_right_iff]
    exact hdepicted.flip.imp fun n i hn => hn.name
  have hnode (i : Instance) (hi : i ∈ g.instances) : ∃ n ∈ nodes, n.Depicts c i :=
    exists_mem_of_forall₂ hdepicted.flip hi
  refine ⟨⟨nodes, edges⟩, ?_, hdepicted, hall.imp fun _ _ he => he.1, ?_, fun e he => ?_⟩
  · rw [draw, hnodes, ok_bind, hedges]
    rfl
  · rw [hnames]
    exact hg.nodup_names
  · obtain ⟨l, -, -, i, hi, j, hj, hmeets⟩ := exists_mem_of_forall₂ hall he
    obtain ⟨n, hn, hi⟩ := hnode i hi
    obtain ⟨k, hk, hj⟩ := hnode j hj
    exact ⟨n, hn, k, hk, hmeets n k hi hj⟩

end Graph

namespace Sample

theorem inside_wellFormed : inside.WellFormed where
  nodup_names := by decide
  ends_mem := by
    rintro s d ⟨l, hl, rfl, rfl⟩
    revert l
    decide
  oneLink := by
    refine List.pairwise_pair.2 ?_
    decide
  nodup_dests := by decide

end Sample

namespace Graph

/-- The inside of a composite around one leaf is drawn with its two boundaries, and each edge meets
nodes. -/
theorem draw_depicts_inside : Sample.inside.WellFormed ∧
    Sample.inside.validate Sample.stages = .ok () ∧
    ∃ d, Sample.inside.draw Sample.stages = .ok d ∧ d.nodes.length = 3 ∧ d.edges.length = 2 ∧
      ∀ e ∈ d.edges, ∃ n ∈ d.nodes, ∃ k ∈ d.nodes, e.Meets n k := by
  have hg := Sample.inside_wellFormed
  have hvalid : Sample.inside.validate Sample.stages = .ok () := by decide
  obtain ⟨d, hd, hnodes, hedges, -, hmeets⟩ := draw_depicts hg hvalid
  exact ⟨hg, hvalid, d, hd, hnodes.length_eq.symm, hedges.length_eq.symm, hmeets⟩

end Graph

end Netlist
