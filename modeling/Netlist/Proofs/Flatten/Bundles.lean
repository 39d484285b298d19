import Netlist.Flatten.Inline
import Netlist.Proofs.Wiring

/-!
# Bundles of wires

Wires are bundled by the instances at their ends, and the bundles are added to a graph one after
the other.

## Main results

* `Netlist.Inline.bundle_wires_perm`: bundling rearranges wires.
* `Netlist.Inline.connectAll_wires_perm`, `Netlist.Inline.linked_connectAll`: what adding bundles
  does to a graph.
* `Netlist.Inline.connectAll_wellFormed`, `Netlist.Inline.connectAll_sound`: it keeps a graph well
  formed and sound.
* `Netlist.Inline.exists_connectAll`: bundles of fitting wires to free ports can be added.
-/

namespace Netlist.Inline

/-! ### Bundling -/

private theorem addBinding_wires_perm (s d : String) (b : Binding) (ls : List Bundle) :
    ((addBinding s d b ls).flatMap Bundle.wires).Perm
      (ls.flatMap Bundle.wires ++ [⟨⟨s, b.source⟩, ⟨d, b.dest⟩⟩]) := by
  induction ls with
  | nil => exact List.Perm.refl _
  | cons l ls ih =>
    unfold addBinding
    split_ifs with h
    · obtain ⟨rfl, rfl⟩ := h
      rw [List.flatMap_cons, List.flatMap_cons, Bundle.wires_append, List.append_assoc,
        List.append_assoc]
      exact List.perm_append_comm.append_left _
    · rw [List.flatMap_cons, List.flatMap_cons, List.append_assoc]
      exact ih.append_left _

private theorem bindings_ne_nil_of_addBinding {s d : String} {b : Binding} {ls : List Bundle}
    (hls : ∀ l ∈ ls, l.bindings ≠ []) : ∀ l ∈ addBinding s d b ls, l.bindings ≠ [] := by
  induction ls with
  | nil =>
    intro l hl
    rw [List.mem_singleton.1 hl]
    exact List.cons_ne_nil _ _
  | cons k ks ih =>
    obtain ⟨hk, hks⟩ := List.forall_mem_cons.1 hls
    unfold addBinding
    split_ifs
    · refine List.forall_mem_cons.2 ⟨?_, hks⟩
      exact List.append_ne_nil_of_right_ne_nil _ (List.cons_ne_nil _ _)
    · exact List.forall_mem_cons.2 ⟨hk, ih hks⟩

private theorem foldl_addBinding (ws : List Wire) (ls : List Bundle)
    (hls : ∀ l ∈ ls, l.bindings ≠ []) :
    let out := ws.foldl
      (fun ls w => addBinding w.source.owner w.dest.owner ⟨w.source.port, w.dest.port⟩ ls) ls
    (out.flatMap Bundle.wires).Perm (ls.flatMap Bundle.wires ++ ws) ∧
      ∀ l ∈ out, l.bindings ≠ [] := by
  induction ws generalizing ls with
  | nil => exact ⟨by rw [List.append_nil]; exact List.Perm.refl _, hls⟩
  | cons w ws ih =>
    obtain ⟨hperm, hne⟩ := ih _ (bindings_ne_nil_of_addBinding hls)
    refine ⟨hperm.trans ?_, hne⟩
    have h := (addBinding_wires_perm w.source.owner w.dest.owner
      ⟨w.source.port, w.dest.port⟩ ls).append_right ws
    rwa [List.append_assoc] at h

/-- Bundling rearranges wires. -/
theorem bundle_wires_perm (ws : List Wire) : ((bundle ws).flatMap Bundle.wires).Perm ws :=
  (foldl_addBinding ws [] fun _ h => (nomatch h)).1

/-- The bundles have the ends of the wires. -/
theorem exists_mem_bundle_iff {ws : List Wire} {s d : String} :
    (∃ l ∈ bundle ws, l.source = s ∧ l.dest = d) ↔
      ∃ w ∈ ws, w.source.owner = s ∧ w.dest.owner = d := by
  constructor
  · rintro ⟨l, hl, rfl, rfl⟩
    have hne : l.bindings ≠ [] := (foldl_addBinding ws [] fun _ h => (nomatch h)).2 l hl
    obtain ⟨b, hb⟩ := List.exists_mem_of_ne_nil _ hne
    refine ⟨⟨⟨l.source, b.source⟩, ⟨l.dest, b.dest⟩⟩, ?_, rfl, rfl⟩
    rw [← (bundle_wires_perm ws).mem_iff]
    exact List.mem_flatMap.2 ⟨l, hl, Bundle.mem_wires.2 ⟨rfl, rfl, hb⟩⟩
  · rintro ⟨w, hw, rfl, rfl⟩
    obtain ⟨l, hl, hw⟩ := List.mem_flatMap.1 ((bundle_wires_perm ws).mem_iff.2 hw)
    obtain ⟨hs, hd, -⟩ := Bundle.mem_wires.1 hw
    exact ⟨l, hl, hs.symm, hd.symm⟩

/-- Bundles are made for wires only. -/
theorem bindings_ne_nil_of_mem_bundle {ws : List Wire} {l : Bundle} (h : l ∈ bundle ws) :
    l.bindings ≠ [] :=
  (foldl_addBinding ws [] fun _ h => (nomatch h)).2 l h

/-! ### Adding bundles -/

variable {c : Catalog} {g g' : Graph} {l : Bundle} {ls : List Bundle}

theorem connectAll_nil_eq_ok_iff : connectAll c g [] = .ok g' ↔ g' = g :=
  ⟨fun h => (Except.ok.inj h).symm, fun h => h ▸ rfl⟩

theorem connectAll_cons_eq_ok_iff : connectAll c g (l :: ls) = .ok g' ↔
    ∃ g₁, g.connect c l.source l.dest l.bindings = .ok g₁ ∧ connectAll c g₁ ls = .ok g' := by
  unfold connectAll
  rw [List.foldlM_cons, bind_eq_ok_iff]

theorem connectAll_wellFormed (hg : g.WellFormed) (h : connectAll c g ls = .ok g') :
    g'.WellFormed := by
  induction ls generalizing g with
  | nil => exact connectAll_nil_eq_ok_iff.1 h ▸ hg
  | cons l ls ih =>
    obtain ⟨g₁, h₁, h⟩ := connectAll_cons_eq_ok_iff.1 h
    exact ih (Graph.connect_wellFormed hg h₁) h

theorem connectAll_sound (hg : g.WellFormed) (hs : g.Sound c) (h : connectAll c g ls = .ok g') :
    g'.Sound c := by
  induction ls generalizing g with
  | nil => exact connectAll_nil_eq_ok_iff.1 h ▸ hs
  | cons l ls ih =>
    obtain ⟨g₁, h₁, h⟩ := connectAll_cons_eq_ok_iff.1 h
    exact ih (Graph.connect_wellFormed hg h₁) (Graph.connect_sound hg hs h₁) h

theorem connectAll_filled (hg : g.Filled) (hls : ∀ l ∈ ls, l.bindings ≠ [])
    (h : connectAll c g ls = .ok g') : g'.Filled := by
  induction ls generalizing g with
  | nil => exact connectAll_nil_eq_ok_iff.1 h ▸ hg
  | cons l ls ih =>
    obtain ⟨hl, hls⟩ := List.forall_mem_cons.1 hls
    obtain ⟨g₁, h₁, h⟩ := connectAll_cons_eq_ok_iff.1 h
    exact ih (Graph.connect_filled hg hl h₁) hls h

theorem instances_connectAll (h : connectAll c g ls = .ok g') : g'.instances = g.instances := by
  induction ls generalizing g with
  | nil => rw [connectAll_nil_eq_ok_iff.1 h]
  | cons l ls ih =>
    obtain ⟨g₁, h₁, h⟩ := connectAll_cons_eq_ok_iff.1 h
    obtain ⟨_, _, _, _, _, _, _, rfl⟩ := Graph.connect_eq_ok_iff.1 h₁
    rw [ih h, Graph.instances_bind]

/-- Adding bundles adds their wires and no others. -/
theorem connectAll_wires_perm (hg : g.WellFormed) (h : connectAll c g ls = .ok g') :
    g'.wires.Perm (g.wires ++ ls.flatMap Bundle.wires) := by
  induction ls generalizing g with
  | nil =>
    rw [connectAll_nil_eq_ok_iff.1 h, List.flatMap_nil, List.append_nil]
  | cons l ls ih =>
    obtain ⟨g₁, h₁, h⟩ := connectAll_cons_eq_ok_iff.1 h
    have hw := (Graph.connect_wires_perm hg h₁).append_right (ls.flatMap Bundle.wires)
    rw [List.append_assoc] at hw
    exact (ih (Graph.connect_wellFormed hg h₁) h).trans hw

theorem linked_connectAll (h : connectAll c g ls = .ok g') {s d : String} :
    g'.Linked s d ↔ g.Linked s d ∨ ∃ l ∈ ls, l.source = s ∧ l.dest = d := by
  induction ls generalizing g with
  | nil => simp [connectAll_nil_eq_ok_iff.1 h]
  | cons l ls ih =>
    obtain ⟨g₁, h₁, h⟩ := connectAll_cons_eq_ok_iff.1 h
    obtain ⟨_, _, _, _, _, _, _, rfl⟩ := Graph.connect_eq_ok_iff.1 h₁
    rw [ih h, Graph.linked_bind, List.exists_mem_cons_iff, or_assoc, eq_comm (a := s),
      eq_comm (a := d)]

/-- Bundles that can be added fit the instances that they are between. -/
theorem fits_of_connectAll (h : connectAll c g ls = .ok g') : ∀ l ∈ ls, ∃ i j,
    g.instance? l.source = some i ∧ g.instance? l.dest = some j ∧
      ∀ b ∈ l.bindings, Graph.Fits c i j b := by
  induction ls generalizing g with
  | nil => exact fun _ hl => nomatch hl
  | cons l ls ih =>
    obtain ⟨g₁, h₁, h⟩ := connectAll_cons_eq_ok_iff.1 h
    obtain ⟨i, j, hi, hj, hfit, -, -, rfl⟩ := Graph.connect_eq_ok_iff.1 h₁
    refine List.forall_mem_cons.2 ⟨⟨i, j, hi, hj, hfit⟩, ?_⟩
    simpa only [Graph.instance?_bind] using ih h

/-- Bundles of wires that fit can be added if no two wires, old ones included, end at the same
port. -/
theorem exists_connectAll (hg : g.WellFormed)
    (hfit : ∀ l ∈ ls, ∃ i j, g.instance? l.source = some i ∧ g.instance? l.dest = some j ∧
      ∀ b ∈ l.bindings, Graph.Fits c i j b)
    (hnodup : ((g.wires ++ ls.flatMap Bundle.wires).map Wire.dest).Nodup) :
    ∃ g', connectAll c g ls = .ok g' := by
  induction ls generalizing g with
  | nil => exact ⟨g, rfl⟩
  | cons l ls ih =>
    obtain ⟨⟨i, j, hi, hj, hb⟩, hfit⟩ := List.forall_mem_cons.1 hfit
    have hw := (Graph.wires_bind_perm hg.oneLink l.source l.dest l.bindings).append_right
      (ls.flatMap Bundle.wires)
    rw [List.append_assoc] at hw
    have hnew := hnodup.sublist <| List.Sublist.map Wire.dest <|
      (List.sublist_append_left l.wires _).append_left g.wires
    obtain ⟨hdests, hfree⟩ := hg.nodup_dests_append_iff.1 hnew
    have hconnect : g.connect c l.source l.dest l.bindings =
        .ok (g.bind l.source l.dest l.bindings) :=
      Graph.connect_eq_ok_iff.2 ⟨i, j, hi, hj, hb, hdests, hfree, rfl⟩
    obtain ⟨g', hg'⟩ := ih (Graph.connect_wellFormed hg hconnect)
      (by simpa only [Graph.instance?_bind] using hfit) ((hw.map _).nodup_iff.2 hnodup)
    exact ⟨g', connectAll_cons_eq_ok_iff.2 ⟨_, hconnect, hg'⟩⟩

end Netlist.Inline
