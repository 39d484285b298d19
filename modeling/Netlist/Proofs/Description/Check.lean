import Netlist.Description.Basic
import Netlist.Proofs.OrderedMap
import Netlist.Proofs.Sequencing

/-!
# Consistent descriptions

The check of a description goes through its tables one after the other. A description that passes it
names its cells by different identifiers, speaks of no other cells and of declared ports only, has
no connection that binds nothing, and drives no output twice. And every such description passes.

## Main definitions

* `Netlist.Description.Consistent`: the names within a description lead somewhere.

## Main results

* `Netlist.Description.check_eq_ok_iff`: the check accepts exactly the consistent descriptions.
-/

namespace Netlist.Description

variable {d : Description} {port : String}

/-- The names of the cells. -/
def cellNames (d : Description) : List String :=
  d.cells.map Cell.name

/-- The names within a description lead somewhere. -/
structure Consistent (d : Description) : Prop where
  name : isIdentifier d.name = true
  /-- Cells have different identifiers for names. -/
  identifiers : ∀ name ∈ d.cellNames, isIdentifier name = true
  nodup_cells : d.cellNames.Nodup
  /-- Connections lead from cells to cells and bind some ports. -/
  ends : ∀ k ∈ d.connections, k.source ∈ d.cellNames ∧ k.dest ∈ d.cellNames
  filled : ∀ k ∈ d.connections, k.ports.pairs ≠ []
  /-- Declared inputs drive cells. -/
  sinks : ∀ e ∈ d.inputSinks.entries, e.1 ∈ d.inputs.keys ∧ ∀ sink ∈ e.2, sink.owner ∈ d.cellNames
  /-- Declared outputs are driven by cells. -/
  sources : ∀ e ∈ d.outputSources.entries, e.1 ∈ d.outputs.keys ∧ e.2.owner ∈ d.cellNames
  /-- Declared inputs are handed through to declared outputs. -/
  feeds : ∀ e ∈ d.feedThrough.entries, e.1 ∈ d.inputs.keys ∧ e.2 ∈ d.outputs.keys
  /-- No output is driven twice. -/
  nodup_outputs : (d.outputSources.keys ++ d.feedThrough.entries.map Prod.snd).Nodup

theorem declares_iff {name : String} : d.declares name = true ↔ name ∈ d.cellNames := by
  simp only [declares, cellNames, List.any_eq_true, beq_iff_eq, List.mem_map]

theorem checkCells_eq_ok_iff {seen : List String} {cs : List Cell} :
    checkCells seen cs = .ok () ↔ (∀ name ∈ cs.map Cell.name, isIdentifier name = true) ∧
      (cs.map Cell.name).Nodup ∧ ∀ name ∈ cs.map Cell.name, name ∉ seen := by
  induction cs generalizing seen with
  | nil => simp [checkCells]
  | cons c cs ih =>
    rw [checkCells, ite_error_eq_ok_iff, ite_error_eq_ok_iff, ih, List.map_cons,
      List.forall_mem_cons, List.forall_mem_cons, List.nodup_cons, Bool.not_eq_true',
      Bool.not_eq_false]
    constructor
    · rintro ⟨hid, hnew, hids, hnodup, hseen⟩
      refine ⟨⟨hid, hids⟩, ⟨fun hmem => hseen _ hmem List.mem_cons_self, hnodup⟩, hnew, ?_⟩
      exact fun name hmem h => hseen name hmem (List.mem_cons_of_mem _ h)
    · rintro ⟨⟨hid, hids⟩, ⟨hnot, hnodup⟩, hnew, hseen⟩
      refine ⟨hid, hnew, hids, hnodup, fun name hmem h => ?_⟩
      rcases List.mem_cons.1 h with rfl | h
      · exact hnot hmem
      · exact hseen name hmem h

theorem checkConnection_eq_ok_iff {k : Connection} : d.checkConnection k = .ok () ↔
    (k.source ∈ d.cellNames ∧ k.dest ∈ d.cellNames) ∧ k.ports.pairs ≠ [] := by
  unfold checkConnection
  rw [ite_error_eq_ok_iff, ite_error_eq_ok_iff, ite_error_eq_ok_iff, ← declares_iff, ← declares_iff]
  simp [and_assoc]

theorem checkSinks_eq_ok_iff {sinks : List Endpoint} : d.checkSinks port sinks = .ok () ↔
    port ∈ d.inputs.keys ∧ ∀ sink ∈ sinks, sink.owner ∈ d.cellNames := by
  have hfind : (sinks.find? fun e => !d.declares e.owner) = none ↔
      ∀ sink ∈ sinks, sink.owner ∈ d.cellNames := by
    simp only [List.find?_eq_none, Bool.not_eq_true', Bool.not_eq_false, declares_iff]
  unfold checkSinks
  rw [ite_error_eq_ok_iff, ← OrderedMap.contains_iff_mem_keys, ← hfind]
  cases sinks.find? fun e => !d.declares e.owner <;> simp

theorem checkSource_eq_ok_iff {source : Endpoint} : d.checkSource port source = .ok () ↔
    port ∈ d.outputs.keys ∧ source.owner ∈ d.cellNames := by
  unfold checkSource
  rw [ite_error_eq_ok_iff, ite_error_eq_ok_iff, ← OrderedMap.contains_iff_mem_keys, ← declares_iff]
  simp

theorem checkFeeds_eq_ok_iff {seen : List String} {feeds : List (String × String)} :
    checkFeeds d seen feeds = .ok () ↔
      (∀ e ∈ feeds, e.1 ∈ d.inputs.keys ∧ e.2 ∈ d.outputs.keys) ∧
      (feeds.map Prod.snd).Nodup ∧
      ∀ output ∈ feeds.map Prod.snd, output ∉ d.outputSources.keys ∧ output ∉ seen := by
  induction feeds generalizing seen with
  | nil => simp [checkFeeds]
  | cons e feeds ih =>
    obtain ⟨input, output⟩ := e
    rw [checkFeeds, ite_error_eq_ok_iff, ite_error_eq_ok_iff, ite_error_eq_ok_iff, ih,
      List.map_cons, List.forall_mem_cons, List.forall_mem_cons, List.nodup_cons, not_or,
      Bool.not_eq_true', Bool.not_eq_false, Bool.not_eq_true', Bool.not_eq_false]
    simp only [OrderedMap.contains_iff_mem_keys]
    constructor
    · rintro ⟨hin, hout, hnew, hdeclared, hnodup, hfree⟩
      refine ⟨⟨⟨hin, hout⟩, hdeclared⟩, ⟨fun hmem => ?_, hnodup⟩, hnew, fun o hmem => ?_⟩
      · exact (hfree output hmem).2 List.mem_cons_self
      · exact ⟨(hfree o hmem).1, fun h => (hfree o hmem).2 (List.mem_cons_of_mem _ h)⟩
    · rintro ⟨⟨⟨hin, hout⟩, hdeclared⟩, ⟨hnot, hnodup⟩, hnew, hfree⟩
      refine ⟨hin, hout, hnew, hdeclared, hnodup, fun o hmem => ⟨(hfree o hmem).1, fun h => ?_⟩⟩
      rcases List.mem_cons.1 h with rfl | h
      · exact hnot hmem
      · exact (hfree o hmem).2 h

/-- The check accepts exactly the consistent descriptions. -/
theorem check_eq_ok_iff : d.check = .ok () ↔ d.Consistent := by
  have hconnections : d.connections.forM d.checkConnection = .ok ⟨⟩ ↔ ∀ k ∈ d.connections,
      (k.source ∈ d.cellNames ∧ k.dest ∈ d.cellNames) ∧ k.ports.pairs ≠ [] := by
    rw [forM_eq_ok_iff]
    exact forall₂_congr fun _ _ => checkConnection_eq_ok_iff
  have hsinks : d.inputSinks.entries.forM (fun e => d.checkSinks e.1 e.2) = .ok ⟨⟩ ↔
      ∀ e ∈ d.inputSinks.entries, e.1 ∈ d.inputs.keys ∧ ∀ sink ∈ e.2, sink.owner ∈ d.cellNames := by
    rw [forM_eq_ok_iff]
    exact forall₂_congr fun _ _ => checkSinks_eq_ok_iff
  have hsources : d.outputSources.entries.forM (fun e => d.checkSource e.1 e.2) = .ok ⟨⟩ ↔
      ∀ e ∈ d.outputSources.entries, e.1 ∈ d.outputs.keys ∧ e.2.owner ∈ d.cellNames := by
    rw [forM_eq_ok_iff]
    exact forall₂_congr fun _ _ => checkSource_eq_ok_iff
  unfold check
  by_cases hname : isIdentifier d.name = true
  · simp only [hname, Bool.not_true, Bool.false_eq_true, if_false]
    constructor
    · intro h
      obtain ⟨⟨⟩, hcells, h⟩ := bind_eq_ok_iff.1 h
      obtain ⟨⟨⟩, hends, h⟩ := bind_eq_ok_iff.1 h
      obtain ⟨⟨⟩, hdriven, h⟩ := bind_eq_ok_iff.1 h
      obtain ⟨⟨⟩, hproduced, h⟩ := bind_eq_ok_iff.1 h
      obtain ⟨hids, hnodup, -⟩ := checkCells_eq_ok_iff.1 hcells
      obtain ⟨hfeeds, houtputs, hfree⟩ := checkFeeds_eq_ok_iff.1 h
      have hends := hconnections.1 hends
      refine ⟨hname, hids, hnodup, fun k hk => (hends k hk).1, fun k hk => (hends k hk).2,
        hsinks.1 hdriven, hsources.1 hproduced, hfeeds, ?_⟩
      exact d.outputSources.nodup_keys.append houtputs fun o ho ho' => (hfree o ho').1 ho
    · intro h
      obtain ⟨-, houtputs, hfree⟩ := List.nodup_append'.1 h.nodup_outputs
      refine bind_eq_ok_iff.2 ⟨⟨⟩, checkCells_eq_ok_iff.2 ⟨h.identifiers, h.nodup_cells, nofun⟩, ?_⟩
      refine bind_eq_ok_iff.2 ⟨⟨⟩, hconnections.2 fun k hk => ⟨h.ends k hk, h.filled k hk⟩, ?_⟩
      refine bind_eq_ok_iff.2 ⟨⟨⟩, hsinks.2 h.sinks, ?_⟩
      refine bind_eq_ok_iff.2 ⟨⟨⟩, hsources.2 h.sources, ?_⟩
      refine checkFeeds_eq_ok_iff.2 ⟨h.feeds, houtputs, fun o ho => ⟨fun ho' => ?_, nofun⟩⟩
      exact hfree ho' ho
  · simp only [hname, Bool.not_false, if_true]
    refine iff_of_false (fun h => nomatch h) fun h => hname h.name

end Netlist.Description
