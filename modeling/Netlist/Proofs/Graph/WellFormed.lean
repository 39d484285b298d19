import Netlist.Proofs.Graph.Wires

/-!
# Well-formed graphs

The changes of a graph keep its names distinct, its links between instances of the graph and, for
two instances in a given order, at most one link; and no input port gets a second driver.

## Main definitions

* `Netlist.Graph.WellFormed`: what every graph that was put together by changes satisfies.
* `Netlist.Graph.Filled`: no link is without bindings.

## Main results

* `Netlist.Graph.WellFormed.push`, `Netlist.Graph.WellFormed.without`,
  `Netlist.Graph.WellFormed.relabel`, `Netlist.Graph.WellFormed.removeOrphans`,
  `Netlist.Graph.WellFormed.bind`: changes keep a graph well formed.
* `Netlist.Graph.WellFormed.driver?_eq_some_iff`: the driver of a port is the source of the wire
  that ends there.
* `Netlist.Graph.Filled.bind`: links stay filled if some ports are bound.
-/

namespace Netlist.Graph

/-- What every graph that was put together by changes satisfies. -/
structure WellFormed (g : Graph) : Prop where
  /-- No two instances have the same name. -/
  nodup_names : g.names.Nodup
  /-- Links lead from instances of the graph to instances of the graph. -/
  ends_mem : ∀ s d, g.Linked s d → s ∈ g.names ∧ d ∈ g.names
  /-- There is at most one link from one instance to another. -/
  oneLink : OneLink g.links
  /-- No input port has more than one driver. -/
  nodup_dests : (g.wires.map Wire.dest).Nodup

namespace WellFormed

variable {g : Graph}

theorem instance?_of_mem (hg : g.WellFormed) {i : Instance} (hi : i ∈ g.instances) :
    g.instance? i.name = some i :=
  Graph.instance?_of_mem hg.nodup_names hi

theorem instance?_eq_some_iff (hg : g.WellFormed) {name : String} {i : Instance} :
    g.instance? name = some i ↔ i ∈ g.instances ∧ i.name = name :=
  Graph.instance?_eq_some_iff hg.nodup_names

theorem source_mem (hg : g.WellFormed) {w : Wire} (hw : w ∈ g.wires) : w.source.owner ∈ g.names :=
  (hg.ends_mem _ _ (linked_of_mem_wires hw)).1

theorem dest_mem (hg : g.WellFormed) {w : Wire} (hw : w ∈ g.wires) : w.dest.owner ∈ g.names :=
  (hg.ends_mem _ _ (linked_of_mem_wires hw)).2

/-- Wires that end at the same port are the same. -/
theorem eq_of_dest_eq (hg : g.WellFormed) {w v : Wire} (hw : w ∈ g.wires) (hv : v ∈ g.wires)
    (h : w.dest = v.dest) : w = v :=
  List.inj_on_of_nodup_map hg.nodup_dests hw hv h

theorem singlyDriven (hg : g.WellFormed) : g.SinglyDriven :=
  fun _ hw _ hv h => hg.eq_of_dest_eq hw hv h

/-- The driver of a port is the source of the wire that ends there. -/
theorem driver?_eq_some_iff (hg : g.WellFormed) {name port : String} {e : Endpoint} :
    g.driver? name port = some e ↔ ⟨e, ⟨name, port⟩⟩ ∈ g.wires := by
  refine ⟨mem_wires_of_driver?, fun h => ?_⟩
  cases hd : g.driver? name port with
  | none => exact absurd rfl (driver?_eq_none_iff.1 hd _ h)
  | some e' =>
    have hw := hg.eq_of_dest_eq (mem_wires_of_driver? hd) h rfl
    rw [(Wire.mk.inj hw).1]

/-! ### Changes -/

theorem empty : Graph.empty.WellFormed where
  nodup_names := List.nodup_nil
  ends_mem := by
    rintro s d ⟨l, hl, -⟩
    cases hl
  oneLink := List.Pairwise.nil
  nodup_dests := List.nodup_nil

theorem push (hg : g.WellFormed) {i : Instance} (hi : i.name ∉ g.names) :
    (g.push i).WellFormed where
  nodup_names := by
    rw [names_push]
    exact hg.nodup_names.append (List.nodup_singleton _)
      (List.disjoint_singleton.2 hi)
  ends_mem s d h := by
    obtain ⟨hs, hd⟩ := hg.ends_mem s d h
    rw [names_push]
    exact ⟨List.mem_append_left _ hs, List.mem_append_left _ hd⟩
  oneLink := hg.oneLink
  nodup_dests := hg.nodup_dests

theorem without (hg : g.WellFormed) (name : String) : (g.without name).WellFormed where
  nodup_names := hg.nodup_names.sublist (List.filter_sublist.map _)
  ends_mem s d h := by
    obtain ⟨h, hs, hd⟩ := linked_without.1 h
    obtain ⟨hsm, hdm⟩ := hg.ends_mem s d h
    exact ⟨mem_names_without.2 ⟨hsm, hs⟩, mem_names_without.2 ⟨hdm, hd⟩⟩
  oneLink := hg.oneLink.sublist List.filter_sublist
  nodup_dests := by
    obtain ⟨ws, hperm, hsub⟩ := g.wires_without_subperm name
    exact (hperm.map _).nodup_iff.1 (hg.nodup_dests.sublist (hsub.map _))

/-- Taking out a name that is not there changes nothing. -/
theorem without_of_notMem (hg : g.WellFormed) {name : String} (h : name ∉ g.names) :
    g.without name = g := by
  have horphan : g.isOrphan name = true := by
    refine isOrphan_iff.2 fun s d hl => ?_
    obtain ⟨hs, hd⟩ := hg.ends_mem s d hl
    exact ⟨fun he => h (he ▸ hs), fun he => h (he ▸ hd)⟩
  rw [without_of_isOrphan horphan, List.filter_eq_self.2]
  exact fun i hi => decide_eq_true fun he => h (mem_names.2 ⟨i, hi, he⟩)

/-- Dropping orphans is taking them out one by one. -/
theorem removeOrphans_eq_foldl (hg : g.WellFormed) (eligible : Instance → Bool) :
    g.removeOrphans eligible =
      ((g.orphans eligible).map Instance.name).foldl Graph.without g := by
  have horphan : ∀ n ∈ (g.orphans eligible).map Instance.name, g.isOrphan n = true :=
    List.forall_mem_map.2 fun i hi => (Bool.and_eq_true_iff.1 (List.mem_filter.1 hi).2).1
  rw [foldl_without_of_isOrphan horphan, Graph.removeOrphans]
  congr 1
  refine List.filter_congr fun i hi => ?_
  have hmem : i.name ∈ (g.orphans eligible).map Instance.name ↔ i ∈ g.orphans eligible := by
    refine ⟨fun h => ?_, List.mem_map_of_mem⟩
    obtain ⟨j, hj, he⟩ := List.mem_map.1 h
    exact List.inj_on_of_nodup_map hg.nodup_names (List.mem_filter.1 hj).1 hi he ▸ hj
  have hdrop : decide (i.name ∈ (g.orphans eligible).map Instance.name) =
      (g.isOrphan i.name && eligible i) := by
    rw [Bool.eq_iff_iff, decide_eq_true_eq, hmem, Graph.orphans, List.mem_filter]
    exact and_iff_right hi
  rw [decide_not, hdrop]

theorem removeOrphans (hg : g.WellFormed) (eligible : Instance → Bool) :
    (g.removeOrphans eligible).WellFormed where
  nodup_names := hg.nodup_names.sublist (List.filter_sublist.map _)
  ends_mem s d h := by
    have hmem : ∀ n ∈ g.names, g.isOrphan n = false → n ∈ (g.removeOrphans eligible).names := by
      intro n hn ho
      obtain ⟨i, hi, rfl⟩ := mem_names.1 hn
      refine mem_names.2 ⟨i, mem_instances_removeOrphans.2 ⟨hi, ?_⟩, rfl⟩
      rw [ho]
      exact fun h => Bool.noConfusion h.1
    have hlink : ∀ n, (n = s ∨ n = d) → g.isOrphan n = false := by
      intro n hn
      rw [← Bool.not_eq_true, isOrphan_iff]
      intro ho
      obtain ⟨hs, hd⟩ := ho s d h
      exact hn.elim (fun h => hs h.symm) fun h => hd h.symm
    obtain ⟨hs, hd⟩ := hg.ends_mem s d h
    exact ⟨hmem s hs (hlink s (Or.inl rfl)), hmem d hd (hlink d (Or.inr rfl))⟩
  oneLink := hg.oneLink
  nodup_dests := hg.nodup_dests

private theorem names_map_relabel (name module : String) (role : Role) (is : List Instance) :
    (is.map fun i => if i.name = name then ⟨name, module, role⟩ else i).map Instance.name =
      is.map Instance.name := by
  rw [List.map_map]
  refine List.map_congr_left fun i _ => ?_
  rw [Function.comp_apply]
  split_ifs with h
  · exact h.symm
  · rfl

theorem names_relabel {g' : Graph} {name module : String} {role : Role}
    (h : g.relabel name module role = .ok g') : g'.names = g.names := by
  unfold Graph.relabel at h
  split_ifs at h
  cases h
  exact names_map_relabel name module role g.instances

theorem links_relabel {g' : Graph} {name module : String} {role : Role}
    (h : g.relabel name module role = .ok g') : g'.links = g.links := by
  unfold Graph.relabel at h
  split_ifs at h
  cases h
  rfl

theorem exists_relabel {name : String} (h : name ∈ g.names) (module : String) (role : Role) :
    ∃ g', g.relabel name module role = .ok g' := by
  unfold Graph.relabel
  rw [if_pos (contains_iff.2 h)]
  exact ⟨_, rfl⟩

/-- Relabelling leaves each instance under its name. -/
theorem instance?_relabel {g' : Graph} {name module : String} {role : Role}
    (h : g.relabel name module role = .ok g') (n : String) : g'.instance? n =
      (g.instance? n).map fun i => if i.name = name then ⟨name, module, role⟩ else i := by
  unfold Graph.relabel at h
  split_ifs at h
  cases h
  rw [instance?, List.find?_map, instance?]
  refine congrArg (fun p => (g.instances.find? p).map _) (funext fun i => ?_)
  rw [Function.comp_apply]
  split_ifs with hi
  · rw [← hi]
  · rfl

theorem relabel (hg : g.WellFormed) {g' : Graph} {name module : String} {role : Role}
    (h : g.relabel name module role = .ok g') : g'.WellFormed := by
  have hnames := names_relabel h
  unfold Graph.relabel at h
  split_ifs at h
  cases h
  exact ⟨hnames ▸ hg.nodup_names, fun s d hl => hnames ▸ hg.ends_mem s d hl, hg.oneLink,
    hg.nodup_dests⟩

/-- New wires between two instances and those of the graph end at different ports if the bindings
do and lead to ports without drivers. -/
theorem nodup_dests_append_iff (hg : g.WellFormed) {s d : String} {bs : List Binding} :
    ((g.wires ++ (⟨s, d, bs⟩ : Bundle).wires).map Wire.dest).Nodup ↔
      (bs.map Binding.dest).Nodup ∧ ∀ b ∈ bs, g.driver? d b.dest = none := by
  rw [List.map_append, List.nodup_append', Bundle.nodup_dests_wires]
  simp only [hg.nodup_dests, true_and, driver?_eq_none_iff]
  refine and_congr_right fun _ => ⟨fun hdisj b hb w hw he => ?_, fun hfree e he hb => ?_⟩
  · refine hdisj (List.mem_map.2 ⟨w, hw, he⟩)
      (List.mem_map.2 ⟨⟨⟨s, b.source⟩, ⟨d, b.dest⟩⟩, ?_, rfl⟩)
    exact List.mem_map_of_mem hb
  · obtain ⟨w, hw, rfl⟩ := List.mem_map.1 he
    obtain ⟨v, hv, hwv⟩ := List.mem_map.1 hb
    obtain ⟨b, hb, rfl⟩ := List.mem_map.1 hv
    exact hfree b hb w hw hwv.symm

/-- Bindings to ports without drivers keep a graph well formed. -/
theorem bind (hg : g.WellFormed) {s d : String} {bs : List Binding} (hs : s ∈ g.names)
    (hd : d ∈ g.names) (hbs : (bs.map Binding.dest).Nodup)
    (hfree : ∀ b ∈ bs, g.driver? d b.dest = none) : (g.bind s d bs).WellFormed where
  nodup_names := by
    rw [names_bind]
    exact hg.nodup_names
  ends_mem s' d' h := by
    rw [names_bind]
    rcases linked_bind.1 h with h | ⟨rfl, rfl⟩
    · exact hg.ends_mem s' d' h
    · exact ⟨hs, hd⟩
  oneLink := hg.oneLink.bind s d bs
  nodup_dests := by
    rw [((wires_bind_perm hg.oneLink s d bs).map _).nodup_iff]
    exact hg.nodup_dests_append_iff.2 ⟨hbs, hfree⟩

end WellFormed

/-! ### Links without bindings -/

/-- No link is without bindings. -/
def Filled (g : Graph) : Prop :=
  ∀ l ∈ g.links, l.bindings ≠ []

instance (g : Graph) : Decidable g.Filled :=
  inferInstanceAs (Decidable (∀ l ∈ g.links, l.bindings ≠ []))

namespace Filled

variable {g g' : Graph}

theorem empty : Graph.empty.Filled :=
  fun _ h => nomatch h

theorem push (hg : g.Filled) (i : Instance) : (g.push i).Filled :=
  hg

theorem without (hg : g.Filled) (name : String) : (g.without name).Filled :=
  fun l hl => hg l (List.mem_of_mem_filter hl)

theorem removeOrphans (hg : g.Filled) (eligible : Instance → Bool) :
    (g.removeOrphans eligible).Filled :=
  hg

theorem relabel (hg : g.Filled) {name module : String} {role : Role}
    (h : g.relabel name module role = .ok g') : g'.Filled := by
  unfold Graph.relabel at h
  split_ifs at h
  cases h
  exact hg

/-- Links stay filled if some ports are bound. -/
theorem bind (hg : g.Filled) {bs : List Binding} (hbs : bs ≠ []) (s d : String) :
    (g.bind s d bs).Filled := by
  unfold Filled Graph.bind
  split
  · refine List.forall_mem_map.2 fun l hl => ?_
    split_ifs
    · exact fun h => hbs (List.append_eq_nil_iff.1 h).2
    · exact hg l hl
  · obtain ⟨slot, hlinks⟩ := links_addLink g s d bs
    rw [hlinks]
    exact List.forall_mem_cons.2 ⟨hbs, hg⟩

end Filled

end Netlist.Graph
