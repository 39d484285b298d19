import Netlist.Proofs.Catalog.History
import Netlist.Proofs.Flatten.Simulation

/-!
# Flattening preserves connectivity

A flattened graph has exactly the wires that its hierarchy amounts to. This is shown for the flat
insides of composites, one level at a time, and then for a graph with composite cells.

## Main results

* `Netlist.Flatten.mem_wires_iff_of_inlined`: from one inlining to a sequence of them.
* `Netlist.Flatten.Expands.isFlat`: flat insides have the wires that the insides amount to.
* `Netlist.Catalog.Assembled.flattenGraph_connects`: flattening succeeds and gives the wires that
  the hierarchy amounts to.
-/

namespace Netlist

open Flatten Hierarchy

namespace Flatten

variable {c : Catalog} {b : Boundary} {g work f B : Graph} {module : String}
  {cells : List (String × String)} {R : String → Graph → Prop}

/-- Inlining the flat insides of all composite cells of a graph gives the wires that its hierarchy
amounts to. -/
theorem mem_wires_iff_of_inlined {inside : String → Option Graph}
    (hin : ∀ m, c.HasLeaf m → inside m = none) (hg : g.WellFormed) (hs : g.Sound c)
    (hcells : compositeCells c g.instances = .ok cells) (h : Inlined c b R g cells work)
    (hR : ∀ m s, R m s → LeafCells c s ∧ ∃ input output B, inside m = some B ∧
      IsFlat c b inside m input output B s) (w : Wire) :
    w ∈ work.wires ↔ Connects inside g b w := by
  have hp := pending_of_compositeCells hg.nodup_names hcells
  have hleafR : ∀ m s, R m s → LeafCells c s := fun m s hm => (hR m s hm).1
  have hsame : Connects inside work b w ↔ Connects inside g b w := by
    refine (h.preserves (I := fun work => Connects inside work b w ↔ Connects inside g b w)
      hleafR hg hp Iff.rfl ?_).2
    intro work work' sub name module hw hi _ hmem hsub hinline
    obtain ⟨-, input, output, B, hB, hflat⟩ := hR _ _ hsub
    have hn := hw.instance?_of_mem hmem
    exact ⟨fun hc => hi.1 (connects_of_inline hw hn hB hflat hinline hc),
      fun hc => inline_of_connects hw hn hB hflat hinline (hi.2 hc)⟩
  have hleaf := leafCells_of_inlined h hleafR hcells
  rw [← hsame, connects_iff_of_leaves (fun i hi hr => hin _ (hleaf i hi hr)) (h.wellFormed hg)
    (h.sound hg hs)]

/-- Where instances have identifiers for names, the flat inside of a composite has the wires that
the inside amounts to. -/
theorem Expands.isFlat (hb : b.Separates)
    (hc : ∀ m B, c.body? m = some B → Whole c m B ∧ Named B) (h : Expands c b module f) :
    ∃ input output B, c.body? module = some B ∧ IsFlat c b c.body? module input output B f := by
  refine Expands.induct (P := fun module f => ∃ input output B, c.body? module = some B ∧
    IsFlat c b c.body? module input output B f) (fun {module B work cells} hB hcells hwork => ?_) h
  obtain ⟨hw, hn⟩ := hc _ _ hB
  obtain ⟨input, output, hf⟩ := hw.framed
  have hexp : Expands c b module (dropStray B work) :=
    .mk hB hcells (hwork.mono fun _ _ _ => And.left)
  obtain ⟨hflat, hframe⟩ := hexp.whole hB hw
  have hid {n : String} (hmem : n ∈ B.names) {p : List String} (hp : p ≠ []) (x : String) :
      flatName b p x ≠ n := fun he =>
    not_isIdentifier_flatName hb hp x (he ▸ hn n hmem)
  refine ⟨input, output, B, hB, hw.wellFormed, hf, hflat.wellFormed, hframe.trans hf, hflat.sound,
    fun i hi hr => (hexp.leafCells i hi hr).body?, fun p x hp _ => ⟨?_, ?_⟩, fun w => ?_⟩
  · exact hid (Graph.mem_names.2 ⟨_, hf.input_mem, rfl⟩) hp x
  · exact hid (Graph.mem_names.2 ⟨_, hf.output_mem, rfl⟩) hp x
  · rw [wires_dropStray]
    exact mem_wires_iff_of_inlined (fun _ => Catalog.HasLeaf.body?) hw.wellFormed hw.sound hcells
      hwork (fun m s hs => ⟨hs.1.leafCells, hs.2⟩) w

end Flatten

namespace Catalog

variable {c : Catalog} {b : Boundary} {g : Graph}

/-- Flattening preserves connectivity. In a catalog of assembled composites whose insides pass
validation, a graph that passes validation and has identifiers for names can be flattened, and the
flattened graph has exactly the wires that the hierarchy amounts to, each of them once. -/
theorem Assembled.flattenGraph_connects (hc : c.Assembled)
    (hv : ∀ m B, c.body? m = some B → B.validate c = .ok ()) (hb : b.Separates)
    (hg : g.WellFormed) (hn : ∀ n ∈ g.names, isIdentifier n = true)
    (hgv : g.validate c = .ok ()) :
    ∃ flat, c.flattenGraph b g = .ok flat ∧ flat.wires.Nodup ∧
      ∀ w, w ∈ flat.wires ↔ Connects c.body? g b w := by
  have htidy := hc.tidy
  have hwhole : ∀ m B, c.body? m = some B → Whole c m B ∧ Named B := by
    intro m B hB
    obtain ⟨hw, hf, hnamed⟩ := htidy.inside m B hB
    exact ⟨⟨hw, (Graph.validate_eq_ok_iff hw).1 (hv m B hB), hf⟩, hnamed⟩
  have hs := (Graph.validate_eq_ok_iff hg).1 hgv
  obtain ⟨flat, hflat, hwf, -⟩ := exists_flattenGraph hb htidy.wellFounded hwhole hg hs hn
  refine ⟨flat, hflat, List.Nodup.of_map _ hwf.nodup_dests, fun w => ?_⟩
  obtain ⟨cells, work, hcells, hrun, rfl⟩ := flattenGraph_eq_ok_iff.1 hflat
  rw [wires_dropStray]
  exact mem_wires_iff_of_inlined (fun _ => HasLeaf.body?) hg hs hcells hrun
    (fun m s hm => ⟨hm.leafCells, hm.isFlat hb hwhole⟩) w

theorem flattenGraph_connects_row : ∃ flat,
    Sample.stages.flattenGraph .standard Sample.row = .ok flat ∧ flat.wires.Nodup ∧
      ∀ w, w ∈ flat.wires ↔ Connects Sample.stages.body? Sample.row .standard w :=
  Sample.assembled_stages.flattenGraph_connects Sample.built_stages.validate_body (by decide)
    Sample.row_wellFormed (by decide) (by decide)

end Catalog

namespace Sample

/-- What a composite is made of whose cell is bound to a module that there is only while the
composite is wired. -/
def probeAssembly : Assembly where
  name := "probe"
  inputs := .ofList [("i", .bits 8)]
  outputs := .ofList [("o", .bits 8)]
  inside := ⟨[⟨"x", "probe::output_block", .cell⟩], [], []⟩
  inputSinks := .ofList [("i", [⟨"x", "o"⟩])]
  outputSources := .empty
  feedThrough := .empty

/-- The inside of that composite. -/
def probeInside : Graph where
  instances := [⟨"x", "probe::output_block", .cell⟩, ⟨"input_block", "probe", .inputBoundary⟩,
    ⟨"output_block", "probe", .outputBoundary⟩]
  links := [⟨⟨"input_block", "x", [⟨"i", "o"⟩]⟩, 0⟩]
  freed := []

/-- The catalog with that composite. -/
def probes : Catalog :=
  leaves.put "probe" ⟨probeAssembly.inputs, probeAssembly.outputs, some probeInside⟩

/-- The catalog in which there is a module of that name again, with other ports. -/
def probed : Catalog :=
  probes.put "probe::output_block" leaf

/-- A leaf that drives that composite. -/
def probeRow : Graph where
  instances := [⟨"t", "leaf", .cell⟩, ⟨"u", "probe", .cell⟩]
  links := [⟨⟨"t", "u", [⟨"o", "i"⟩]⟩, 0⟩]
  freed := []

theorem register_probe :
    (probeAssembly.register .standard).runOn leaves = (.ok (), probes) :=
  Assembly.register_of_checks (by decide) (by decide) (by decide)
    (Catalog.checkBody_of_leaves (by decide))

end Sample

namespace Catalog

open Sample hiding leaf leaves

/-- Two ways for flattening to fail although all graphs that composites are made from pass
validation: a boundary instance has the name that a leaf gets, and a cell was wired while it was
bound to another module of the same name. -/
theorem flattenGraph_fails_for_joined_blocks_and_rebound_cells :
    ((stageAssembly.register .standard).runOn Sample.leaves = (.ok (), stages) ∧
      (nestAssembly.register joinedBlocks).runOn stages = (.ok (), nested) ∧
      stageAssembly.inside.validate nested = .ok () ∧
      nestAssembly.inside.validate nested = .ok () ∧ nestRow.validate nested = .ok () ∧
      ¬∃ flat, nested.flattenGraph .standard nestRow = .ok flat) ∧
    (probeAssembly.register .standard).runOn Sample.leaves = (.ok (), probes) ∧
      probes.add "probe::output_block" Sample.leaf = .ok probed ∧
      probeAssembly.inside.validate probed = .ok () ∧ probeRow.validate probed = .ok () ∧
      ¬∃ flat, probed.flattenGraph .standard probeRow = .ok flat := by
  exact ⟨⟨register_stage, register_nest, by decide, by decide, by decide,
    not_exists_eq_ok_of_isOk (by decide_cbv)⟩, register_probe, by decide, by decide, by decide,
    not_exists_eq_ok_of_isOk (by decide_cbv)⟩

end Catalog

end Netlist
