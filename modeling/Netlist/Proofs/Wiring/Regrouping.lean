import Netlist.Proofs.Flatten.Bundles
import Netlist.Proofs.Graph.Agree
import Netlist.Proofs.Wiring.Connect

/-!
# Requests in any order

Whether several requests for bindings can be met one after the other depends on the wires they ask
for and on the instances they are between, and not on their order or on how wires between the same
two instances are spread over them. The graphs that they lead to agree.

## Main definitions

* `Netlist.Regrouped`: requests for the same wires between the same instances.
* `Netlist.Graph.Compatible`: requests that can be met together.

## Main results

* `Netlist.Graph.exists_connectAll_iff`: exactly the compatible requests are met.
* `Netlist.Graph.exists_connectAll_of_regrouped`: requests can be regrouped.
-/

namespace Netlist

/-- Requests that differ in their order, and in how the bindings between two instances are split
over the requests between these. -/
inductive Regrouped : List Bundle → List Bundle → Prop where
  /-- The requests come in another order. -/
  | perm {ls ks : List Bundle} (h : ls.Perm ks) : Regrouped ls ks
  /-- One request becomes several between the same instances; some of them may be empty. -/
  | split (before after : List Bundle) {s d : String} {bs : List Binding}
      {parts : List (List Binding)} (hparts : parts ≠ []) (hbs : parts.flatten.Perm bs) :
      Regrouped (before ++ ⟨s, d, bs⟩ :: after) (before ++ (parts.map (⟨s, d, ·⟩) ++ after))
  | symm {ls ks : List Bundle} (h : Regrouped ls ks) : Regrouped ks ls
  | trans {ls ks ms : List Bundle} (h : Regrouped ls ks) (h' : Regrouped ks ms) : Regrouped ls ms

namespace Regrouped

variable {ls ks : List Bundle}

/-- Regrouped requests ask for the same wires. -/
theorem wires_perm (h : Regrouped ls ks) :
    (ls.flatMap Bundle.wires).Perm (ks.flatMap Bundle.wires) := by
  induction h with
  | perm h => exact h.flatMap_right _
  | @split before after s d bs parts hparts hbs =>
    have hparts : ((parts.map (⟨s, d, ·⟩)).flatMap Bundle.wires).Perm
        (⟨s, d, bs⟩ : Bundle).wires := by
      have hwires := hbs.map fun b : Binding => (⟨⟨s, b.source⟩, ⟨d, b.dest⟩⟩ : Wire)
      rw [List.map_flatten] at hwires
      rwa [List.flatMap_map, List.flatMap_def]
    rw [List.flatMap_append, List.flatMap_append, List.flatMap_append, List.flatMap_cons]
    exact (hparts.symm.append_right _).append_left _
  | symm _ ih => exact ih.symm
  | trans _ _ ih ih' => exact ih.trans ih'

/-- Regrouped requests are between the same instances. -/
theorem ends_iff (h : Regrouped ls ks) (s d : String) :
    (∃ l ∈ ls, l.source = s ∧ l.dest = d) ↔ ∃ k ∈ ks, k.source = s ∧ k.dest = d := by
  induction h with
  | perm h => simp only [h.mem_iff]
  | @split before after s' d' bs parts hparts hbs =>
    have hends : (∃ l ∈ parts.map fun p => (⟨s', d', p⟩ : Bundle), l.source = s ∧ l.dest = d) ↔
        s' = s ∧ d' = d := by
      obtain ⟨p, hp⟩ := List.exists_mem_of_ne_nil _ hparts
      simp only [List.mem_map, exists_exists_and_eq_and]
      exact ⟨fun ⟨_, _, he⟩ => he, fun he => ⟨p, hp, he⟩⟩
    simp only [List.mem_append, List.mem_cons, or_and_right, exists_or, exists_eq_left, hends]
  | symm _ ih => exact ih.symm
  | trans _ _ ih ih' => exact ih.trans ih'

end Regrouped

namespace Graph

open Inline

variable {c : Catalog} {g g₁ g₂ : Graph} {ls ks : List Bundle}

/-- Requests that can be met together: they are between instances of the graph, each wire that they
ask for fits the instances at its ends, and no two wires, those of the graph included, end at the
same port. -/
structure Compatible (c : Catalog) (g : Graph) (ls : List Bundle) : Prop where
  ends_mem : ∀ s d, (∃ l ∈ ls, l.source = s ∧ l.dest = d) → s ∈ g.names ∧ d ∈ g.names
  fits : ∀ w ∈ ls.flatMap Bundle.wires, ∃ i j, g.instance? w.source.owner = some i ∧
    g.instance? w.dest.owner = some j ∧ Fits c i j ⟨w.source.port, w.dest.port⟩
  nodup_dests : ((g.wires ++ ls.flatMap Bundle.wires).map Wire.dest).Nodup

/-- Exactly the compatible requests are met. -/
theorem exists_connectAll_iff (hg : g.WellFormed) :
    (∃ g', connectAll c g ls = .ok g') ↔ Compatible c g ls := by
  constructor
  · rintro ⟨g', h⟩
    have hfit := fun l hl => exists_fits_iff.1 (fits_of_connectAll h l hl)
    refine ⟨?_, fun w hw => ?_, ?_⟩
    · rintro s d ⟨l, hl, rfl, rfl⟩
      exact ⟨(hfit l hl).1, (hfit l hl).2.1⟩
    · obtain ⟨l, hl, hw⟩ := List.mem_flatMap.1 hw
      exact (hfit l hl).2.2 w hw
    · have hdests := (connectAll_wellFormed hg h).nodup_dests
      exact ((connectAll_wires_perm hg h).map _).nodup_iff.1 hdests
  · intro h
    refine exists_connectAll hg (fun l hl => exists_fits_iff.2 ?_) h.nodup_dests
    obtain ⟨hs, hd⟩ := h.ends_mem _ _ ⟨l, hl, rfl, rfl⟩
    exact ⟨hs, hd, fun w hw => h.fits w (List.mem_flatMap.2 ⟨l, hl, hw⟩)⟩

theorem Compatible.regrouped (h : Compatible c g ls) (hr : Regrouped ls ks) :
    Compatible c g ks where
  ends_mem s d hk := h.ends_mem s d ((hr.ends_iff s d).2 hk)
  fits w hw := h.fits w (hr.wires_perm.mem_iff.2 hw)
  nodup_dests := ((hr.wires_perm.append_left _).map _).nodup_iff.1 h.nodup_dests

/-- If several requests are met one after the other, so they are in any other order and if bindings
between the same two instances are spread over the requests in another way, and the graphs agree. -/
theorem exists_connectAll_of_regrouped (hg : g.WellFormed) (hr : Regrouped ls ks)
    (h₁ : connectAll c g ls = .ok g₁) : ∃ g₂, connectAll c g ks = .ok g₂ ∧ g₁.Agree g₂ := by
  have hks : Compatible c g ks := ((exists_connectAll_iff hg).1 ⟨g₁, h₁⟩).regrouped hr
  obtain ⟨g₂, h₂⟩ := (exists_connectAll_iff hg).2 hks
  refine ⟨g₂, h₂, (agree_iff (connectAll_wellFormed hg h₁) (connectAll_wellFormed hg h₂)).2
    ⟨fun i => ?_, fun s d => ?_, fun w => ?_⟩⟩
  · rw [instances_connectAll h₁, instances_connectAll h₂]
  · rw [linked_connectAll h₁, linked_connectAll h₂, hr.ends_iff]
  · have hwires := (connectAll_wires_perm hg h₁).trans (hr.wires_perm.append_left _)
    exact (hwires.trans (connectAll_wires_perm hg h₂).symm).mem_iff

end Graph

namespace Sample

/-- Two requests. -/
def requests : List Bundle :=
  [⟨"in", "q", [⟨"a", "b"⟩, ⟨"b", "c"⟩]⟩, ⟨"q", "p", [⟨"x", "b"⟩]⟩]

/-- The same requests, the first of them in two parts around the second. -/
def requestsApart : List Bundle :=
  [⟨"in", "q", [⟨"b", "c"⟩]⟩, ⟨"q", "p", [⟨"x", "b"⟩]⟩, ⟨"in", "q", [⟨"a", "b"⟩]⟩]

theorem regrouped_requests : Regrouped requests requestsApart := by
  have hbs : ([[⟨"b", "c"⟩], [⟨"a", "b"⟩]] : List (List Binding)).flatten.Perm
      [⟨"a", "b"⟩, ⟨"b", "c"⟩] := List.Perm.swap _ _ _
  have hsplit := Regrouped.split (s := "in") (d := "q") [] [⟨"q", "p", [⟨"x", "b"⟩]⟩]
    (List.cons_ne_nil _ _) hbs
  exact hsplit.trans (.perm ((List.Perm.swap _ _ _).cons _))

end Sample

namespace Graph

open Inline

theorem exists_connectAll_of_regrouped_requests : ∃ g₁ g₂, Sample.mixed.WellFormed ∧
    Regrouped Sample.requests Sample.requestsApart ∧
    connectAll Sample.mixers Sample.mixed Sample.requests = .ok g₁ ∧
    connectAll Sample.mixers Sample.mixed Sample.requestsApart = .ok g₂ ∧ g₁.Agree g₂ := by
  obtain ⟨g₁, h₁⟩ : ∃ g₁, connectAll Sample.mixers Sample.mixed Sample.requests = .ok g₁ :=
    exists_eq_ok_of_isOk (by decide)
  obtain ⟨g₂, h₂, hagree⟩ :=
    exists_connectAll_of_regrouped Sample.mixed_wellFormed Sample.regrouped_requests h₁
  exact ⟨g₁, g₂, Sample.mixed_wellFormed, Sample.regrouped_requests, h₁, h₂, hagree⟩

end Graph

end Netlist
