import Mathlib.Data.List.Perm.Basic
import Netlist.Emission.Records
import Netlist.Proofs.Library.Acyclic
import Netlist.Proofs.Wiring.Connect

/-!
# What records keep of the wiring

A record tells what each port of a cell is wired to, but not in which direction, nor which boundary
a port of the enclosing module is reached through. Both can be told from the ports that the modules
declare: no input of a module is an output of it as well, and each boundary has ports for one use
only. So the records of a graph determine all its wires except those that touch no cell.

## Main definitions

* `Netlist.Catalog.Apart`: no module has a port for both directions.
* `Netlist.Graph.peerAt`: what a port is to the other end of a wire.
* `Netlist.Graph.IsRecord`: a record tells of all wires that touch a cell, once for each end.
* `Netlist.Graph.TouchesCell`, `Netlist.Graph.Crosses`: wires with a cell at one end at least, and
  wires from the one boundary to the other.
* `Netlist.CellRecord.joins`: the pairs of ports that a record tells of.

## Main results

* `Netlist.Catalog.apart_after`: catalogs keep inputs and outputs apart.
* `Netlist.Graph.forall₂_records`: the records of a graph are records of its cells.
* `Netlist.Graph.mem_joins_iff`: the wires that touch a cell, as they are found in the records.
* `Netlist.Graph.records_determine_wires`: what is kept of the wiring.
-/

namespace Netlist

/-! ### Inputs and outputs -/

namespace Catalog

variable {c d : Catalog} {name : String} {m : Module}

/-- No input of a module is an output of it as well. -/
def Apart (c : Catalog) : Prop :=
  ∀ name m, c.module? name = some m → ∀ port ∈ m.inputs.keys, port ∉ m.outputs.keys

theorem apart_of_checkPorts {types : TypeTable}
    (h : checkPorts types name m.inputs m.outputs = .ok ()) :
    ∀ port ∈ m.inputs.keys, port ∉ m.outputs.keys := by
  intro port hin hout
  exact (checkPorts_eq_ok_iff.1 h).2 port hin (OrderedMap.contains_iff_mem_keys.2 hout)

theorem Apart.put (hc : c.Apart) (hm : ∀ port ∈ m.inputs.keys, port ∉ m.outputs.keys) :
    (c.put name m).Apart := by
  intro n m' hm'
  rw [module?_put] at hm'
  split_ifs at hm'
  · cases hm'
    exact hm
  · exact hc n m' hm'

theorem lasting_apart : Lasting Apart where
  add hc hadd := by
    obtain ⟨-, hports, -, rfl⟩ := add_eq_ok_iff.1 hadd
    exact hc.put (apart_of_checkPorts hports)
  addType hc hadd := by
    obtain ⟨-, -, rfl⟩ := addType_eq_ok_iff.1 hadd
    exact hc
  update hc h := by
    unfold update at h
    split at h
    · cases h
    · obtain ⟨⟨⟩, hports, h⟩ := bind_eq_ok_iff.1 h
      cases h
      exact hc.put (apart_of_checkPorts hports)
  delete hc h := by
    obtain ⟨-, rfl⟩ := delete_eq_ok_iff.1 h
    intro n m' hm'
    rw [module?, OrderedMap.get?_erase] at hm'
    split_ifs at hm'
    exact hc n m' hm'
  read h := fun name m hm => apart_of_checkPorts
    ((reloadable_of_ofText h).1.ports (name, m) (OrderedMap.get?_eq_some_iff.1 hm))

/-- Catalogs keep inputs and outputs apart, whatever is done to them. -/
theorem apart_after (types : TypeTable) (changes : List Change) :
    ((ofTypes types).after changes).Apart := by
  refine lasting_apart.after (fun name m hm => ?_) changes
  cases hm

end Catalog

theorem Instance.isBoundary_role (i : Instance) : i.role.isBoundary = !i.isCell := by
  cases hrole : i.role <;> simp [Role.isBoundary, isCell, hrole]

/-- The pairs of ports that a record tells of. A port of the cell comes second in its pair if the
module of the cell declares it as an input, and first if not. -/
def CellRecord.joins (c : Catalog) (r : CellRecord) : List (Peer × Peer) :=
  r.peers.map fun p =>
    if (c.module? r.module).any fun m => m.inputs.contains p.1 then (p.2, .cell ⟨r.name, p.1⟩)
    else (.cell ⟨r.name, p.1⟩, p.2)

namespace Graph

variable {c : Catalog} {g h : Graph} {i : Instance} {w : Wire}

/-! ### Peers -/

/-- What a port is to the other end of a wire: a port of the enclosing module if it belongs to a
boundary, and else a port of a cell. -/
def peerAt (g : Graph) (e : Endpoint) : Peer :=
  if (g.instance? e.owner).any fun i => i.role.isBoundary then .modulePort e.port else .cell e

theorem peerAt_eq_ofPort {name port : String} (h : g.instance? name = some i) :
    g.peerAt ⟨name, port⟩ = .ofPort i port := by
  rw [peerAt, h, Option.any_some, Peer.ofPort, (instance?_eq_some h).2]

/-- The peers of the ports of an instance where wires end, by the wires. -/
def driversAt (g : Graph) (name : String) : List (String × Peer) :=
  (g.wires.filter fun w => w.dest.owner = name).map fun w => (w.dest.port, g.peerAt w.source)

/-- The peers of the ports of an instance where wires begin, by the wires. -/
def sinksAt (g : Graph) (name : String) : List (String × Peer) :=
  (g.wires.filter fun w => w.source.owner = name).map fun w => (w.source.port, g.peerAt w.dest)

/-- A record tells of an instance: each wire that ends there is told with what it begins at, and
each wire that begins there with what it ends at. -/
structure IsRecord (g : Graph) (i : Instance) (r : CellRecord) : Prop where
  name : r.name = i.name
  module : r.module = i.module
  peers : r.peers.Perm (g.driversAt i.name ++ g.sinksAt i.name)

/-- What a link tells of an instance is what its wires tell. -/
theorem peersIn_eq (hg : g.WellFormed) {l : Link} (hl : l ∈ g.links) (name : String) :
    g.peersIn name l =
      ((l.wires.filter fun w => w.dest.owner = name).map fun w =>
        (w.dest.port, g.peerAt w.source)) ++
      (l.wires.filter fun w => w.source.owner = name).map fun w =>
        (w.source.port, g.peerAt w.dest) := by
  obtain ⟨hsource, hdest⟩ := hg.ends_mem _ _ ⟨l, hl, rfl, rfl⟩
  obtain ⟨i, hi⟩ := exists_instance? hsource
  obtain ⟨j, hj⟩ := exists_instance? hdest
  unfold peersIn Bundle.wires
  congr 1
  · by_cases h : l.dest = name
    · rw [if_pos h, hi, List.filter_eq_self.2 (by simp [h]), List.map_map]
      exact List.map_congr_left fun b _ => congrArg (Prod.mk b.dest) (peerAt_eq_ofPort hi).symm
    · rw [if_neg h, List.filter_eq_nil_iff.2 (by simp [h])]
      rfl
  · by_cases h : l.source = name
    · rw [if_pos h, hj, List.filter_eq_self.2 (by simp [h]), List.map_map]
      exact List.map_congr_left fun b _ => congrArg (Prod.mk b.source) (peerAt_eq_ofPort hj).symm
    · rw [if_neg h, List.filter_eq_nil_iff.2 (by simp [h])]
      rfl

/-- The links together tell of an instance what all wires tell. -/
theorem flatMap_peersIn_perm (hg : g.WellFormed) (name : String) :
    (g.connections.flatMap (g.peersIn name)).Perm (g.driversAt name ++ g.sinksAt name) := by
  rw [List.flatMap_congr fun l hl => peersIn_eq hg (mem_connections.1 hl) name, driversAt, sinksAt,
    wires, List.filter_flatMap, List.filter_flatMap, List.map_flatMap, List.map_flatMap]
  exact (List.flatMap_append_perm _ _ _).symm

/-- The records are those of the cells, in order. -/
theorem forall₂_records (hg : g.WellFormed) :
    List.Forall₂ g.IsRecord (g.instances.filter Instance.isCell) g.records := by
  have hcell : (g.instances.filter fun i => !i.role.isBoundary) =
      g.instances.filter Instance.isCell :=
    List.filter_congr fun i _ => by rw [i.isBoundary_role, Bool.not_not]
  rw [records, hcell, List.forall₂_map_right_iff, List.forall₂_same]
  exact fun i _ => ⟨rfl, rfl, flatMap_peersIn_perm hg i.name⟩

/-! ### Directions -/

/-- A cell is at one end of a wire at least. -/
def TouchesCell (g : Graph) (w : Wire) : Prop :=
  ∃ i ∈ g.instances, i.isCell = true ∧ (w.source.owner = i.name ∨ w.dest.owner = i.name)

/-- A wire leads from an input boundary to an output boundary. -/
def Crosses (g : Graph) (w : Wire) : Prop :=
  ∃ i j, g.instance? w.source.owner = some i ∧ i.role = .inputBoundary ∧
    g.instance? w.dest.owner = some j ∧ j.role = .outputBoundary

/-- A cell has the ports that its module declares, for the use that they are declared for. -/
theorem portType_of_isCell (hi : i.isCell = true) {port : String} {used : Direction}
    {type : PortType} (h : portType c i port used = .ok type) :
    ∃ m, c.module? i.module = some m ∧ port ∈ (m.ports used).keys := by
  obtain ⟨m, d, hm, hd, hport⟩ := portType_eq_ok_iff.1 h
  have hrole : i.role = .cell := of_decide_eq_true hi
  rw [hrole] at hd
  cases hd
  exact ⟨m, hm, OrderedMap.mem_keys_of_get? hport⟩

theorem peerAt_of_isCell (hg : g.WellFormed) (hi : i ∈ g.instances) (hcell : i.isCell = true)
    {e : Endpoint} (he : e.owner = i.name) : g.peerAt e = .cell e := by
  have hrole : i.role = .cell := of_decide_eq_true hcell
  rw [peerAt, he, hg.instance?_of_mem hi, Option.any_some, hrole]
  rfl

/-- A wire that ends at a cell ends at an input of its module. -/
theorem Sound.input_of_dest (hg : g.WellFormed) (hs : g.Sound c) (hi : i ∈ g.instances)
    (hcell : i.isCell = true) (hw : w ∈ g.wires) (hd : w.dest.owner = i.name) :
    ∃ m, c.module? i.module = some m ∧ w.dest.port ∈ m.inputs.keys := by
  obtain ⟨_, j, -, hj, _, t, -, ht, -⟩ := hs.fits w hw
  rw [hd, hg.instance?_of_mem hi] at hj
  cases hj
  exact portType_of_isCell hcell ht

/-- A wire that begins at a cell begins at an output of its module. -/
theorem Sound.output_of_source (hg : g.WellFormed) (hs : g.Sound c) (hi : i ∈ g.instances)
    (hcell : i.isCell = true) (hw : w ∈ g.wires) (hd : w.source.owner = i.name) :
    ∃ m, c.module? i.module = some m ∧ w.source.port ∈ m.outputs.keys := by
  obtain ⟨_, _, hj, -, s, _, hport, -, -⟩ := hs.fits w hw
  rw [hd, hg.instance?_of_mem hi] at hj
  cases hj
  exact portType_of_isCell hcell hport

/-- What a binding that fits begins at is an input boundary if it is no cell. -/
theorem Fits.source_boundary {i j : Instance} {b : Binding} (h : Fits c i j b)
    (hcell : i.isCell = false) : i.role = .inputBoundary := by
  have hrole := h.source_role
  cases hi : i.role <;> simp_all [Instance.isCell]

/-- What a binding that fits ends at is an output boundary if it is no cell. -/
theorem Fits.dest_boundary {i j : Instance} {b : Binding} (h : Fits c i j b)
    (hcell : j.isCell = false) : j.role = .outputBoundary := by
  have hrole := h.dest_role
  cases hj : j.role <;> simp_all [Instance.isCell]

/-- A wire that touches no cell leads from an input boundary to an output boundary. -/
theorem Sound.crosses (hs : g.Sound c) (hw : w ∈ g.wires) (h : ¬g.TouchesCell w) :
    g.Crosses w := by
  obtain ⟨i, j, hi, hj, hfit⟩ := hs.fits w hw
  obtain ⟨hmem, hname⟩ := instance?_eq_some hi
  obtain ⟨hmem', hname'⟩ := instance?_eq_some hj
  have hsource : i.isCell = false :=
    Bool.eq_false_iff.2 fun hcell => h ⟨i, hmem, hcell, .inl hname.symm⟩
  have hdest : j.isCell = false :=
    Bool.eq_false_iff.2 fun hcell => h ⟨j, hmem', hcell, .inr hname'.symm⟩
  exact ⟨i, j, hi, hfit.source_boundary hsource, hj, hfit.dest_boundary hdest⟩

/-! ### Records of sound graphs -/

/-- No input of a cell is told of twice. -/
theorem IsRecord.count_le_one (hc : c.Apart) (hg : g.WellFormed) (hs : g.Sound c)
    (hi : i ∈ g.instances) (hcell : i.isCell = true) {r : CellRecord} (hr : g.IsRecord i r)
    {m : Module} (hm : c.module? r.module = some m) {port : String} (hport : port ∈ m.inputs.keys) :
    (r.peers.map Prod.fst).count port ≤ 1 := by
  rw [hr.module] at hm
  have hdrivers : ((g.driversAt i.name).map Prod.fst).Nodup := by
    have hdests : ((g.wires.filter fun w => w.dest.owner = i.name).map Wire.dest).Nodup :=
      hg.nodup_dests.sublist (List.filter_sublist.map _)
    rw [driversAt, List.map_map]
    refine List.Nodup.map_on (fun w hw v hv hvw => ?_) hdests.of_map
    obtain ⟨hw, hwd⟩ := List.mem_filter.1 hw
    obtain ⟨hv, hvd⟩ := List.mem_filter.1 hv
    refine hg.eq_of_dest_eq hw hv (Endpoint.eq_mk_iff.2 ⟨?_, hvw⟩)
    rw [of_decide_eq_true hwd, of_decide_eq_true hvd]
  have hsinks : port ∉ (g.sinksAt i.name).map Prod.fst := by
    rw [sinksAt, List.map_map]
    intro hmem
    obtain ⟨w, hw, rfl⟩ := List.mem_map.1 hmem
    obtain ⟨hw, hws⟩ := List.mem_filter.1 hw
    obtain ⟨m', hm', hout⟩ := hs.output_of_source hg hi hcell hw (of_decide_eq_true hws)
    cases hm.symm.trans hm'
    exact hc _ m hm _ hport hout
  rw [(hr.peers.map Prod.fst).count_eq, List.map_append, List.count_append,
    List.count_eq_zero.2 hsinks]
  exact List.nodup_iff_count_le_one.1 hdrivers port

/-- The ports at the ends of a wire, as they are told in records. -/
def join (g : Graph) (w : Wire) : Peer × Peer :=
  (g.peerAt w.source, g.peerAt w.dest)

/-- A record tells of the wires that touch its cell. -/
theorem IsRecord.mem_joins_iff (hc : c.Apart) (hg : g.WellFormed) (hs : g.Sound c)
    (hi : i ∈ g.instances) (hcell : i.isCell = true) {r : CellRecord} (hr : g.IsRecord i r)
    {x : Peer × Peer} : x ∈ r.joins c ↔
      ∃ w ∈ g.wires, (w.source.owner = i.name ∨ w.dest.owner = i.name) ∧ g.join w = x := by
  -- each wire is told in the direction that it has
  have hin (w : Wire) (hw : w ∈ g.wires) (hd : w.dest.owner = i.name) :
      (if (c.module? i.module).any fun m => m.inputs.contains w.dest.port
        then (g.peerAt w.source, .cell ⟨i.name, w.dest.port⟩)
        else (.cell ⟨i.name, w.dest.port⟩, g.peerAt w.source)) = g.join w := by
    obtain ⟨m, hm, hport⟩ := hs.input_of_dest hg hi hcell hw hd
    rw [hm, Option.any_some, if_pos (OrderedMap.contains_iff_mem_keys.2 hport), join,
      peerAt_of_isCell hg hi hcell hd, ← hd]
  have hout (w : Wire) (hw : w ∈ g.wires) (hd : w.source.owner = i.name) :
      (if (c.module? i.module).any fun m => m.inputs.contains w.source.port
        then (g.peerAt w.dest, .cell ⟨i.name, w.source.port⟩)
        else (.cell ⟨i.name, w.source.port⟩, g.peerAt w.dest)) = g.join w := by
    obtain ⟨m, hm, hport⟩ := hs.output_of_source hg hi hcell hw hd
    have hnot : ¬m.inputs.contains w.source.port = true := fun hin =>
      hc _ m hm _ (OrderedMap.contains_iff_mem_keys.1 hin) hport
    rw [hm, Option.any_some, if_neg hnot, join, peerAt_of_isCell hg hi hcell hd, ← hd]
  rw [CellRecord.joins, hr.name, hr.module, (hr.peers.map _).mem_iff, List.map_append,
    List.mem_append, driversAt, sinksAt, List.map_map, List.map_map]
  constructor
  · rintro (hx | hx)
    · obtain ⟨w, hw, rfl⟩ := List.mem_map.1 hx
      obtain ⟨hw, hd⟩ := List.mem_filter.1 hw
      exact ⟨w, hw, .inr (of_decide_eq_true hd), (hin w hw (of_decide_eq_true hd)).symm⟩
    · obtain ⟨w, hw, rfl⟩ := List.mem_map.1 hx
      obtain ⟨hw, hd⟩ := List.mem_filter.1 hw
      exact ⟨w, hw, .inl (of_decide_eq_true hd), (hout w hw (of_decide_eq_true hd)).symm⟩
  · rintro ⟨w, hw, hd | hd, rfl⟩
    · exact .inr (List.mem_map.2 ⟨w, List.mem_filter.2 ⟨hw, decide_eq_true hd⟩, hout w hw hd⟩)
    · exact .inl (List.mem_map.2 ⟨w, List.mem_filter.2 ⟨hw, decide_eq_true hd⟩, hin w hw hd⟩)

/-- The records tell of the wires that touch cells. -/
theorem mem_joins_iff (hc : c.Apart) (hg : g.WellFormed) (hs : g.Sound c) {x : Peer × Peer} :
    x ∈ g.records.flatMap (CellRecord.joins c) ↔
      ∃ w ∈ g.wires, g.TouchesCell w ∧ g.join w = x := by
  have hrecords := forall₂_records hg
  rw [List.mem_flatMap]
  constructor
  · rintro ⟨r, hr, hx⟩
    obtain ⟨i, hi, hr⟩ := exists_mem_of_forall₂ hrecords hr
    obtain ⟨hi, hcell⟩ := List.mem_filter.1 hi
    obtain ⟨w, hw, htouch, rfl⟩ := (hr.mem_joins_iff hc hg hs hi hcell).1 hx
    exact ⟨w, hw, ⟨i, hi, hcell, htouch⟩, rfl⟩
  · rintro ⟨w, hw, ⟨i, hi, hcell, htouch⟩, rfl⟩
    obtain ⟨r, hmem, hr⟩ :=
      exists_mem_of_forall₂ hrecords.flip (List.mem_filter.2 ⟨hi, hcell⟩)
    exact ⟨r, hmem, (hr.mem_joins_iff hc hg hs hi hcell).2 ⟨w, hw, htouch, rfl⟩⟩

/-! ### Graphs with the same records -/

/-- There is one boundary at most for each direction. -/
def OneEach (g : Graph) : Prop :=
  ∀ i ∈ g.instances, ∀ j ∈ g.instances, i.isCell = false → i.role = j.role → i = j

theorem instance?_eq_of_mem_iff (hg : g.WellFormed) (hh : h.WellFormed)
    (hsame : ∀ i, i ∈ h.instances ↔ i ∈ g.instances) : h.instance? = g.instance? := by
  funext name
  refine Option.ext fun i => ?_
  rw [hh.instance?_eq_some_iff, hg.instance?_eq_some_iff, hsame]

/-- Ports that are told in the same way are the same, if the boundaries that they belong to have the
same role. -/
theorem eq_of_peerAt_eq (hone : g.OneEach) {e e' : Endpoint} {i j : Instance}
    (hi : g.instance? e.owner = some i) (hj : g.instance? e'.owner = some j)
    (hrole : i.isCell = false → j.isCell = false → i.role = j.role)
    (heq : g.peerAt e = g.peerAt e') : e = e' := by
  obtain ⟨hmem, hname⟩ := instance?_eq_some hi
  obtain ⟨hmem', hname'⟩ := instance?_eq_some hj
  simp only [peerAt, hi, hj, Option.any_some, Instance.isBoundary_role] at heq
  cases hci : i.isCell <;> cases hcj : j.isCell <;> rw [hci, hcj] at heq
  · have hij := hone i hmem j hmem' hci (hrole hci hcj)
    refine Endpoint.eq_mk_iff.2 ⟨?_, Peer.modulePort.inj heq⟩
    rw [← hname, ← hname', hij]
  · cases heq
  · cases heq
  · exact Peer.cell.inj heq

/-- Wires that are told in the same way are the same, in one graph or in two graphs with the same
instances. -/
theorem eq_of_join_eq (hone : g.OneEach) (hg : g.Sound c) (hh : h.Sound c)
    (hsame : h.instance? = g.instance?) {v : Wire} (hw : w ∈ g.wires) (hv : v ∈ h.wires)
    (heq : g.join w = h.join v) : w = v := by
  have hpeer : h.peerAt = g.peerAt := by
    funext e
    rw [peerAt, peerAt, hsame]
  obtain ⟨i, j, hi, hj, hfit⟩ := hg.fits w hw
  obtain ⟨i', j', hi', hj', hfit'⟩ := hh.fits v hv
  rw [hsame] at hi' hj'
  rw [join, join, hpeer] at heq
  obtain ⟨hs, hd⟩ := Prod.mk.inj heq
  have hsource : w.source = v.source := eq_of_peerAt_eq hone hi hi'
    (fun hcell hcell' => (hfit.source_boundary hcell).trans (hfit'.source_boundary hcell').symm) hs
  have hdest : w.dest = v.dest := eq_of_peerAt_eq hone hj hj'
    (fun hcell hcell' => (hfit.dest_boundary hcell).trans (hfit'.dest_boundary hcell').symm) hd
  cases w
  cases v
  exact congrArg₂ Wire.mk hsource hdest

/-- Of the wires that touch cells, those of one graph are in any other one with the same instances
and the same records. -/
theorem mem_wires_of_records_eq (hc : c.Apart) (hg : g.WellFormed) (hs : g.Sound c)
    (hh : h.WellFormed) (hs' : h.Sound c) (hone : g.OneEach) (hsame : h.instance? = g.instance?)
    (hrecords : h.records = g.records) (hw : w ∈ g.wires) (htouch : g.TouchesCell w) :
    w ∈ h.wires := by
  have hx := (mem_joins_iff hc hg hs).2 ⟨w, hw, htouch, rfl⟩
  rw [← hrecords] at hx
  obtain ⟨v, hv, -, heq⟩ := (mem_joins_iff hc hh hs').1 hx
  rwa [eq_of_join_eq hone hs hs' hsame hw hv heq.symm]

/-- Take a graph that passes validation, with one boundary at most for each direction. Its records
are those of its cells in order: each wire is told once at each of its ends that is a cell, with
what is at the other end. No input of a cell is told of twice. The wires that touch cells can be
found in the records with the ports that the modules declare, and no two wires are told in the same
way. So they are the same in all graphs with the same instances and records that pass validation;
these differ only in wires from the input boundary to the output boundary. -/
theorem records_determine_wires (hc : c.Apart) (hg : g.WellFormed) (hv : g.validate c = .ok ())
    (hone : g.OneEach) :
    List.Forall₂ g.IsRecord (g.instances.filter Instance.isCell) g.records ∧
    (∀ r ∈ g.records, ∀ m, c.module? r.module = some m → ∀ port ∈ m.inputs.keys,
      (r.peers.map Prod.fst).count port ≤ 1) ∧
    (∀ x, x ∈ g.records.flatMap (CellRecord.joins c) ↔
      ∃ w ∈ g.wires, g.TouchesCell w ∧ g.join w = x) ∧
    (∀ w ∈ g.wires, ∀ v ∈ g.wires, g.join w = g.join v → w = v) ∧
    ∀ h : Graph, h.WellFormed → h.validate c = .ok () → (∀ i, i ∈ h.instances ↔ i ∈ g.instances) →
      h.records = g.records → ∀ w, ¬g.Crosses w → (w ∈ h.wires ↔ w ∈ g.wires) := by
  have hs := (validate_eq_ok_iff hg).1 hv
  have hrecords := forall₂_records hg
  refine ⟨hrecords, fun r hr m hm port hport => ?_, fun x => mem_joins_iff hc hg hs,
    fun w hw v hv => eq_of_join_eq hone hs hs rfl hw hv, fun h hh hv' hsame heq w hw => ?_⟩
  · obtain ⟨i, hi, hr⟩ := exists_mem_of_forall₂ hrecords hr
    obtain ⟨hi, hcell⟩ := List.mem_filter.1 hi
    exact hr.count_le_one hc hg hs hi hcell hm hport
  · have hs' := (validate_eq_ok_iff hh).1 hv'
    have hinstance := instance?_eq_of_mem_iff hg hh hsame
    have hone' : h.OneEach := fun i hi j hj =>
      hone i ((hsame i).1 hi) j ((hsame j).1 hj)
    constructor
    · intro hmem
      refine mem_wires_of_records_eq hc hh hs' hg hs hone' hinstance.symm heq.symm hmem ?_
      by_contra htouch
      refine hw ?_
      have hcross := hs'.crosses hmem htouch
      rwa [Crosses, hinstance] at hcross
    · intro hmem
      refine mem_wires_of_records_eq hc hg hs hh hs' hone hinstance heq hmem ?_
      exact not_imp_comm.1 (hs.crosses hmem) hw

end Graph

namespace Sample

/-- A leaf that drives itself and another one, between two boundaries. -/
def looped : Graph where
  instances := [⟨"p", "mixer", .cell⟩, ⟨"q", "mixer", .cell⟩, ⟨"in", "mixer", .inputBoundary⟩,
    ⟨"out", "mixer", .outputBoundary⟩]
  links := [⟨⟨"q", "out", [⟨"y", "x"⟩]⟩, 3⟩, ⟨⟨"p", "q", [⟨"x", "a"⟩]⟩, 2⟩,
    ⟨⟨"p", "p", [⟨"x", "b"⟩]⟩, 1⟩, ⟨⟨"in", "p", [⟨"a", "a"⟩]⟩, 0⟩]
  freed := []

/-- The same with a wire from the one boundary to the other. -/
def crossed : Graph :=
  looped.bind "in" "out" [⟨"b", "y"⟩]

theorem looped_wellFormed : looped.WellFormed where
  nodup_names := by decide
  ends_mem := by
    rintro s d ⟨l, hl, rfl, rfl⟩
    revert l
    decide
  oneLink := by
    unfold Graph.OneLink
    decide
  nodup_dests := by decide

theorem crossed_wellFormed : crossed.WellFormed :=
  looped_wellFormed.bind (by decide) (by decide) (by decide) (by decide)

theorem mixers_apart : mixers.Apart := by
  intro name m hm
  have hentries : mixers.modules.entries = [("mixer", mixer)] :=
    OrderedMap.entries_ofList (by decide)
  rw [Catalog.module?, OrderedMap.get?_eq_some_iff, hentries, List.mem_singleton] at hm
  cases hm
  decide

end Sample

namespace Graph

/-- The two graphs have the same records, and the same wires except for those that cross. -/
theorem records_determine_wires_looped : Sample.mixers.Apart ∧ Sample.looped.WellFormed ∧
    Sample.looped.validate Sample.mixers = .ok () ∧ Sample.looped.OneEach ∧
    Sample.crossed.records = Sample.looped.records ∧
    ∀ w, ¬Sample.looped.Crosses w → (w ∈ Sample.crossed.wires ↔ w ∈ Sample.looped.wires) := by
  have hc := Sample.mixers_apart
  have hg := Sample.looped_wellFormed
  have hvalid : Sample.looped.validate Sample.mixers = .ok () := by decide
  have hone : Sample.looped.OneEach := by
    unfold OneEach
    decide
  have hrecords : Sample.crossed.records = Sample.looped.records := by decide
  obtain ⟨-, -, -, -, hsame⟩ := records_determine_wires hc hg hvalid hone
  exact ⟨hc, hg, hvalid, hone, hrecords,
    hsame Sample.crossed Sample.crossed_wellFormed (by decide) (fun _ => Iff.rfl) hrecords⟩

end Graph

end Netlist
