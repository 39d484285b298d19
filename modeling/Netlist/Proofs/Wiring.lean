import Netlist.Proofs.Graph.WellFormed
import Netlist.Proofs.Sequencing
import Netlist.Wiring

/-!
# Sound graphs

A graph is sound for a catalog if its instances are bound to registered modules and each wire fits
the ports at its ends. `Graph.validate` tests exactly this, and the checked changes keep it.

## Main definitions

* `Netlist.Graph.Fits`: a binding fits the ports of two instances.
* `Netlist.Graph.Sound`: a graph is sound for a catalog.
* `Netlist.Graph.Reached`: changes lead from the empty graph to a graph.

## Main results

* `Netlist.Graph.validate_eq_ok_iff`: validation accepts exactly the sound graphs.
* `Netlist.Graph.instantiate_eq_ok_iff`, `Netlist.Graph.connect_eq_ok_iff`: when the checked
  changes succeed, and what they give.
* `Netlist.Graph.connect_sound`, `Netlist.Graph.instantiate_sound`: they keep a graph sound.
* `Netlist.Graph.Reached.wellFormed`: graphs that changes lead to are well formed.
-/

namespace Netlist.Graph

variable {c : Catalog} {g g' : Graph}

/-! ### Bindings -/

theorem portType_eq_ok_iff {i : Instance} {port : String} {used : Direction} {type : PortType} :
    portType c i port used = .ok type ↔ ∃ m d, c.module? i.module = some m ∧
      i.role.declared? used = some d ∧ m.port? port d = some type := by
  unfold portType
  constructor
  · intro h
    split at h
    · cases h
    · rename_i m hm
      split at h
      · rename_i t ht
        cases h
        obtain ⟨d, hd, ht⟩ := Option.bind_eq_some_iff.1 ht
        exact ⟨m, d, hm, hd, ht⟩
      · cases h
  · rintro ⟨m, d, hm, hd, ht⟩
    simp only [hm, hd, Option.bind_some, ht]

/-- A port can be used only on instances of registered modules. -/
theorem portType_of_role {i : Instance} {port : String} {used : Direction} {type : PortType}
    (h : portType c i port used = .ok type) : (i.role.declared? used).isSome := by
  obtain ⟨m, d, -, hd, -⟩ := portType_eq_ok_iff.1 h
  rw [hd, Option.isSome_some]

/-- A binding fits two instances: its ports exist there, each as seen through the role of its
instance, and have types of the same shape. -/
def Fits (c : Catalog) (i j : Instance) (b : Binding) : Prop :=
  ∃ s t, portType c i b.source .output = .ok s ∧ portType c j b.dest .input = .ok t ∧
    c.types.Alike s t

theorem checkBinding_eq_ok_iff {i j : Instance} {b : Binding} :
    checkBinding c i j b = .ok () ↔ Fits c i j b := by
  unfold checkBinding Fits
  rw [bind_eq_ok_iff]
  constructor
  · rintro ⟨s, hs, h⟩
    obtain ⟨t, ht, h⟩ := bind_eq_ok_iff.1 h
    split_ifs at h with hst
    exact ⟨s, t, hs, ht, hst⟩
  · rintro ⟨s, t, hs, ht, hst⟩
    refine ⟨s, hs, bind_eq_ok_iff.2 ⟨t, ht, ?_⟩⟩
    rw [if_pos hst]

/-- The source of a binding that fits is no output boundary. -/
theorem Fits.source_role {i j : Instance} {b : Binding} (h : Fits c i j b) :
    i.role ≠ .outputBoundary := by
  obtain ⟨s, t, hs, -, -⟩ := h
  intro hi
  have := portType_of_role hs
  rw [hi] at this
  cases this

/-- The destination of a binding that fits is no input boundary. -/
theorem Fits.dest_role {i j : Instance} {b : Binding} (h : Fits c i j b) :
    j.role ≠ .inputBoundary := by
  obtain ⟨s, t, -, ht, -⟩ := h
  intro hj
  have := portType_of_role ht
  rw [hj] at this
  cases this

/-! ### Soundness -/

/-- A graph is sound for a catalog: its instances are bound to registered modules, and each wire
fits the instances at its ends. -/
structure Sound (c : Catalog) (g : Graph) : Prop where
  registered : ∀ i ∈ g.instances, c.contains i.module = true
  fits : ∀ w ∈ g.wires, ∃ i j, g.instance? w.source.owner = some i ∧
    g.instance? w.dest.owner = some j ∧ Fits c i j ⟨w.source.port, w.dest.port⟩

theorem find_eq_ok_iff {name : String} {i : Instance} :
    g.find name = .ok i ↔ g.instance? name = some i := by
  unfold find
  cases g.instance? name <;> simp

private theorem checkWires_eq_ok_iff {i j : Instance} {driven driven' : List Endpoint}
    {bs : List Binding} :
    checkWires c i j driven bs = .ok driven' ↔ (∀ b ∈ bs, Fits c i j b) ∧
      (bs.map fun b => (⟨j.name, b.dest⟩ : Endpoint)).Nodup ∧
      (∀ b ∈ bs, ⟨j.name, b.dest⟩ ∉ driven) ∧
      driven' = (bs.map fun b => (⟨j.name, b.dest⟩ : Endpoint)).reverse ++ driven := by
  induction bs generalizing driven with
  | nil => simp [checkWires, eq_comm]
  | cons b bs ih =>
    rw [checkWires, bind_eq_ok_iff, List.forall_mem_cons, List.forall_mem_cons, List.map_cons,
      List.nodup_cons, List.reverse_cons, List.append_assoc, List.singleton_append]
    constructor
    · rintro ⟨⟨⟩, hb, h⟩
      obtain ⟨hn, h⟩ := ite_error_eq_ok_iff.1 h
      obtain ⟨hfit, hnodup, hfree, hd⟩ := ih.1 h
      refine ⟨⟨checkBinding_eq_ok_iff.1 hb, hfit⟩, ⟨?_, hnodup⟩, ⟨hn, ?_⟩, hd⟩
      · intro hm
        obtain ⟨b', hb', he⟩ := List.mem_map.1 hm
        exact hfree b' hb' (he ▸ List.mem_cons_self)
      · exact fun b' hb' hm => hfree b' hb' (List.mem_cons_of_mem _ hm)
    · rintro ⟨⟨hb, hfit⟩, ⟨hnot, hnodup⟩, ⟨hn, hfree⟩, hd⟩
      refine ⟨⟨⟩, checkBinding_eq_ok_iff.2 hb, ite_error_eq_ok_iff.2 ⟨hn, ?_⟩⟩
      refine ih.2 ⟨hfit, hnodup, fun b' hb' hm => ?_, hd⟩
      rcases List.mem_cons.1 hm with he | hm
      · exact hnot (List.mem_map.2 ⟨b', hb', he⟩)
      · exact hfree b' hb' hm

private theorem checkLinks_eq_ok_iff {driven : List Endpoint} {ls : List Link} :
    checkLinks c g driven ls = .ok () ↔
      (∀ l ∈ ls, ∃ i j, g.instance? l.source = some i ∧ g.instance? l.dest = some j ∧
        ∀ b ∈ l.bindings, Fits c i j b) ∧
      ((ls.flatMap fun l => l.wires).map Wire.dest).Nodup ∧
      ∀ e ∈ (ls.flatMap fun l => l.wires).map Wire.dest, e ∉ driven := by
  induction ls generalizing driven with
  | nil => simp [checkLinks]
  | cons l ls ih =>
    -- the ends of the wires of one link, as `checkWires` collects them
    have hdests {j : Instance} (hj : g.instance? l.dest = some j) :
        (l.bindings.map fun b => (⟨j.name, b.dest⟩ : Endpoint)) = l.wires.map Wire.dest := by
      rw [(instance?_eq_some hj).2, Bundle.wires, List.map_map]
      rfl
    rw [checkLinks, List.forall_mem_cons, List.flatMap_cons, List.map_append,
      List.nodup_append']
    simp only [bind_eq_ok_iff, find_eq_ok_iff, checkWires_eq_ok_iff, ih]
    constructor
    · rintro ⟨i, hi, j, hj, _, ⟨hfit, hnodup, hfree, rfl⟩, hrest, hnodup', hfree'⟩
      rw [hdests hj] at hnodup hfree'
      refine ⟨⟨⟨i, j, hi, hj, hfit⟩, hrest⟩, ⟨hnodup, hnodup', ?_⟩, ?_⟩
      · intro e he he'
        exact hfree' e he' (List.mem_append_left _ (List.mem_reverse.2 he))
      · intro e he
        rcases List.mem_append.1 he with he | he
        · obtain ⟨b, hb, rfl⟩ := List.mem_map.1 (hdests hj ▸ he)
          exact hfree b hb
        · exact fun hm => hfree' e he (List.mem_append_right _ hm)
    · rintro ⟨⟨⟨i, j, hi, hj, hfit⟩, hrest⟩, ⟨hnodup, hnodup', hdisj⟩, hfree⟩
      refine ⟨i, hi, j, hj, _, ⟨hfit, hdests hj ▸ hnodup, ?_, rfl⟩, hrest, hnodup', ?_⟩
      · intro b hb
        refine hfree _ (List.mem_append_left _ ?_)
        rw [← hdests hj]
        exact List.mem_map_of_mem hb
      · intro e he hm
        rcases List.mem_append.1 hm with hm | hm
        · rw [hdests hj, List.mem_reverse] at hm
          exact hdisj hm he
        · exact hfree e (List.mem_append_right _ he) hm

/-- Bindings fit the two instances that they are between if each of their wires fits the instances
at its ends. -/
theorem exists_fits_iff {l : Bundle} : (∃ i j, g.instance? l.source = some i ∧
      g.instance? l.dest = some j ∧ ∀ b ∈ l.bindings, Fits c i j b) ↔
    l.source ∈ g.names ∧ l.dest ∈ g.names ∧ ∀ w ∈ l.wires, ∃ i j,
      g.instance? w.source.owner = some i ∧ g.instance? w.dest.owner = some j ∧
        Fits c i j ⟨w.source.port, w.dest.port⟩ := by
  constructor
  · rintro ⟨i, j, hi, hj, hfit⟩
    refine ⟨mem_names_of_instance? hi, mem_names_of_instance? hj, ?_⟩
    intro w hw
    obtain ⟨hs, hd, hb⟩ := Bundle.mem_wires.1 hw
    exact ⟨i, j, hs ▸ hi, hd ▸ hj, hfit _ hb⟩
  · rintro ⟨hs, hd, hfits⟩
    obtain ⟨i, hi⟩ := exists_instance? hs
    obtain ⟨j, hj⟩ := exists_instance? hd
    refine ⟨i, j, hi, hj, fun b hb => ?_⟩
    obtain ⟨i', j', hi', hj', hfit⟩ := hfits ⟨⟨l.source, b.source⟩, ⟨l.dest, b.dest⟩⟩
      (Bundle.mem_wires.2 ⟨rfl, rfl, hb⟩)
    cases hi.symm.trans hi'
    cases hj.symm.trans hj'
    exact hfit

/-- Validation accepts exactly the sound graphs. -/
theorem validate_eq_ok_iff (hg : g.WellFormed) : g.validate c = .ok () ↔ g.Sound c := by
  have hreg : (g.instances.forM fun i =>
      if c.contains i.module then .ok () else .error (.moduleNotFound i.module)) =
        (.ok () : Except Error Unit) ↔ ∀ i ∈ g.instances, c.contains i.module = true := by
    rw [forM_eq_ok_iff]
    refine forall₂_congr fun i _ => ?_
    split_ifs with h <;> simp [h]
  have hlinks : checkLinks c g [] g.connections = .ok () ↔
      ∀ l ∈ g.links, ∃ i j, g.instance? l.source = some i ∧ g.instance? l.dest = some j ∧
        ∀ b ∈ l.bindings, Fits c i j b := by
    rw [checkLinks_eq_ok_iff]
    simp only [mem_connections]
    exact and_iff_left ⟨hg.nodup_dests, fun _ _ h => (nomatch h)⟩
  unfold validate
  rw [bind_eq_ok_iff]
  constructor
  · rintro ⟨⟨⟩, hi, hl⟩
    refine ⟨hreg.1 hi, fun w hw => ?_⟩
    obtain ⟨l, hmem, hw⟩ := mem_wires.1 hw
    exact (exists_fits_iff.1 (hlinks.1 hl l hmem)).2.2 w hw
  · rintro ⟨hi, hfits⟩
    refine ⟨⟨⟩, hreg.2 hi, hlinks.2 fun l hl => ?_⟩
    obtain ⟨hs, hd⟩ := hg.ends_mem _ _ ⟨l, hl, rfl, rfl⟩
    exact exists_fits_iff.2 ⟨hs, hd, fun w hw => hfits w (mem_wires.2 ⟨l, hl, hw⟩)⟩

/-! ### Checked changes -/

/-- An instance can be added under a new name if its module is registered. -/
theorem instantiate_eq_ok_iff {name module : String} :
    g.instantiate c name module = .ok g' ↔
      name ∉ g.names ∧ c.contains module = true ∧ g' = g.push ⟨name, module, .cell⟩ := by
  unfold instantiate
  rw [ite_error_eq_ok_iff, contains_iff]
  split_ifs with h
  · simp [h, eq_comm]
  · simp [h]

theorem checkBindings_eq_ok_iff {i j : Instance} {seen bs : List Binding} :
    checkBindings c g i j seen bs = .ok () ↔ (∀ b ∈ bs, Fits c i j b) ∧
      (bs.map Binding.dest).Nodup ∧ (∀ b ∈ bs, g.driver? j.name b.dest = none) ∧
      ∀ b ∈ bs, b.dest ∉ seen.map Binding.dest := by
  induction bs generalizing seen with
  | nil => simp [checkBindings]
  | cons b bs ih =>
    rw [checkBindings, bind_eq_ok_iff]
    simp only [List.forall_mem_cons, List.map_cons, List.nodup_cons]
    have hseen : (seen.find? fun s => s.dest = b.dest) = none ↔
        b.dest ∉ seen.map Binding.dest := by
      simp only [List.find?_eq_none, decide_eq_true_eq, List.mem_map, not_exists, not_and]
    constructor
    · rintro ⟨⟨⟩, hb, h⟩
      split at h
      · cases h
      · rename_i hfree
        split at h
        · cases h
        · rename_i hnew
          obtain ⟨hfit, hnodup, hfree', hnew'⟩ := ih.1 h
          refine ⟨⟨checkBinding_eq_ok_iff.1 hb, hfit⟩, ⟨?_, hnodup⟩, ⟨hfree, hfree'⟩,
            hseen.1 hnew, ?_⟩
          · intro hm
            obtain ⟨b', hb', he⟩ := List.mem_map.1 hm
            exact hnew' b' hb' (by simp [he])
          · intro b' hb' hm
            refine hnew' b' hb' ?_
            rw [List.map_append]
            exact List.mem_append_left _ hm
    · rintro ⟨⟨hb, hfit⟩, ⟨hnot, hnodup⟩, ⟨hfree, hfree'⟩, hnew, hnew'⟩
      refine ⟨⟨⟩, checkBinding_eq_ok_iff.2 hb, ?_⟩
      rw [hfree, hseen.2 hnew]
      refine ih.2 ⟨hfit, hnodup, hfree', fun b' hb' hm => ?_⟩
      rw [List.map_append, List.mem_append, List.map_singleton, List.mem_singleton] at hm
      rcases hm with hm | hm
      · exact hnew' b' hb' hm
      · exact hnot (List.mem_map.2 ⟨b', hb', hm⟩)

/-- Bindings can be added between two instances if each of them fits, ends at a port without
driver, and no two of them end at the same port. -/
theorem connect_eq_ok_iff {s d : String} {bs : List Binding} :
    g.connect c s d bs = .ok g' ↔ ∃ i j, g.instance? s = some i ∧ g.instance? d = some j ∧
      (∀ b ∈ bs, Fits c i j b) ∧ (bs.map Binding.dest).Nodup ∧
      (∀ b ∈ bs, g.driver? d b.dest = none) ∧ g' = g.bind s d bs := by
  unfold connect
  simp only [bind_eq_ok_iff, find_eq_ok_iff]
  constructor
  · rintro ⟨i, hi, j, hj, ⟨⟩, hcheck, h⟩
    obtain ⟨hfit, hnodup, hfree, -⟩ := checkBindings_eq_ok_iff.1 hcheck
    exact ⟨i, j, hi, hj, hfit, hnodup, (instance?_eq_some hj).2 ▸ hfree, (Except.ok.inj h).symm⟩
  · rintro ⟨i, j, hi, hj, hfit, hnodup, hfree, rfl⟩
    have hnew : ∀ b ∈ bs, b.dest ∉ ([] : List Binding).map Binding.dest :=
      fun _ _ h => (nomatch h)
    rw [← (instance?_eq_some hj).2] at hfree
    exact ⟨i, hi, j, hj, ⟨⟩, checkBindings_eq_ok_iff.2 ⟨hfit, hnodup, hfree, hnew⟩, rfl⟩

theorem instantiate_wellFormed {name module : String} (hg : g.WellFormed)
    (h : g.instantiate c name module = .ok g') : g'.WellFormed := by
  obtain ⟨hn, -, rfl⟩ := instantiate_eq_ok_iff.1 h
  exact hg.push hn

theorem connect_wellFormed {s d : String} {bs : List Binding} (hg : g.WellFormed)
    (h : g.connect c s d bs = .ok g') : g'.WellFormed := by
  obtain ⟨i, j, hi, hj, -, hnodup, hfree, rfl⟩ := connect_eq_ok_iff.1 h
  have hs : s ∈ g.names := mem_names_of_instance? hi
  have hd : d ∈ g.names := mem_names_of_instance? hj
  exact hg.bind hs hd hnodup hfree

/-- Connecting adds the new wires and no others. -/
theorem connect_wires_perm {s d : String} {bs : List Binding} (hg : g.WellFormed)
    (h : g.connect c s d bs = .ok g') : g'.wires.Perm (g.wires ++ (⟨s, d, bs⟩ : Bundle).wires) := by
  obtain ⟨_, _, _, _, _, _, _, rfl⟩ := connect_eq_ok_iff.1 h
  exact wires_bind_perm hg.oneLink s d bs

/-- Instances found under their names stay found when others are added at the end. -/
theorem instance?_push {i j : Instance} {name : String} (h : g.instance? name = some i) :
    (g.push j).instance? name = some i := by
  unfold instance? at h ⊢
  rw [push, List.find?_append, h]
  rfl

theorem instance?_bind (s d : String) (bs : List Binding) (name : String) :
    (g.bind s d bs).instance? name = g.instance? name := by
  rw [instance?, instances_bind, instance?]

theorem instantiate_sound {name module : String} (hs : g.Sound c)
    (h : g.instantiate c name module = .ok g') : g'.Sound c := by
  obtain ⟨-, hm, rfl⟩ := instantiate_eq_ok_iff.1 h
  refine ⟨fun i hi => ?_, fun w hw => ?_⟩
  · rcases List.mem_append.1 hi with hi | hi
    · exact hs.registered i hi
    · exact List.mem_singleton.1 hi ▸ hm
  · obtain ⟨i, j, hi, hj, hfit⟩ := hs.fits w hw
    exact ⟨i, j, instance?_push hi, instance?_push hj, hfit⟩

theorem connect_sound {s d : String} {bs : List Binding} (hg : g.WellFormed) (hs : g.Sound c)
    (h : g.connect c s d bs = .ok g') : g'.Sound c := by
  obtain ⟨i, j, hi, hj, hfit, -, -, rfl⟩ := connect_eq_ok_iff.1 h
  refine ⟨fun k hk => hs.registered k (instances_bind g s d bs ▸ hk), fun w hw => ?_⟩
  simp only [instance?_bind]
  rcases List.mem_append.1 ((wires_bind_perm hg.oneLink s d bs).mem_iff.1 hw) with hw | hw
  · exact hs.fits w hw
  · obtain ⟨hws, hwd, hb⟩ := Bundle.mem_wires.1 hw
    exact ⟨i, j, hws ▸ hi, hwd ▸ hj, hfit _ hb⟩

theorem connect_filled {s d : String} {bs : List Binding} (hf : g.Filled) (hbs : bs ≠ [])
    (h : g.connect c s d bs = .ok g') : g'.Filled := by
  obtain ⟨_, _, _, _, _, _, _, rfl⟩ := connect_eq_ok_iff.1 h
  exact hf.bind hbs s d

/-! ### Parts of a graph -/

/-- A part of a sound graph is sound if it has the instances at the ends of its wires. -/
theorem Sound.of_subset (hs : g.Sound c) (hg : g.WellFormed) (hg' : g'.WellFormed)
    (hinstances : ∀ i ∈ g'.instances, i ∈ g.instances) (hwires : ∀ w ∈ g'.wires, w ∈ g.wires) :
    g'.Sound c where
  registered i hi := hs.registered i (hinstances i hi)
  fits w hw := by
    obtain ⟨i, j, hi, hj, hfit⟩ := hs.fits w (hwires w hw)
    have hkept {n : String} {k : Instance} (hk : g.instance? n = some k) (hn : n ∈ g'.names) :
        g'.instance? n = some k := by
      obtain ⟨k', hk', rfl⟩ := mem_names.1 hn
      cases hk.symm.trans (hg.instance?_of_mem (hinstances k' hk'))
      exact hg'.instance?_of_mem hk'
    exact ⟨i, j, hkept hi (hg'.source_mem hw), hkept hj (hg'.dest_mem hw), hfit⟩

/-- Dropping instances without links keeps a graph sound. -/
theorem Sound.removeOrphans (hs : g.Sound c) (hg : g.WellFormed) (eligible : Instance → Bool) :
    (g.removeOrphans eligible).Sound c :=
  hs.of_subset hg (hg.removeOrphans eligible) (fun _ hi => (mem_instances_removeOrphans.1 hi).1)
    fun _ hw => wires_removeOrphans g eligible ▸ hw

/-- Taking out an instance with its links keeps a graph sound. -/
theorem Sound.without (hs : g.Sound c) (hg : g.WellFormed) (name : String) :
    (g.without name).Sound c :=
  hs.of_subset hg (hg.without name) (fun _ hi => List.mem_of_mem_filter hi)
    fun _ hw => (mem_wires_without.1 hw).1

/-! ### All changes -/

theorem checkUndriven_eq_ok_iff {s d : String} {seen : List String} {bs : List Binding} :
    g.checkUndriven s d seen bs = .ok () ↔ (bs.map Binding.dest).Nodup ∧
      (∀ b ∈ bs, g.driver? d b.dest = none) ∧ ∀ b ∈ bs, b.dest ∉ seen := by
  induction bs generalizing seen with
  | nil => simp [checkUndriven]
  | cons b bs ih =>
    rw [checkUndriven, List.map_cons, List.nodup_cons, List.forall_mem_cons, List.forall_mem_cons]
    cases hdriver : g.driver? d b.dest with
    | some e => exact ⟨fun h => (nomatch h), fun ⟨_, ⟨h, _⟩, _⟩ => (nomatch h)⟩
    | none =>
      simp only [ite_error_eq_ok_iff, ih, List.mem_cons, not_or]
      constructor
      · rintro ⟨hnew, hnodup, hfree, hseen⟩
        refine ⟨⟨fun hm => ?_, hnodup⟩, ⟨trivial, hfree⟩, hnew, fun b' hb' => (hseen b' hb').2⟩
        obtain ⟨b', hb', he⟩ := List.mem_map.1 hm
        exact (hseen b' hb').1 he
      · rintro ⟨⟨hnot, hnodup⟩, ⟨-, hfree⟩, hnew, hseen⟩
        exact ⟨hnew, hnodup, hfree,
          fun b' hb' => ⟨fun he => hnot (List.mem_map.2 ⟨b', hb', he⟩), hseen b' hb'⟩⟩

/-- Bindings can be added whatever the modules declare, if both instances are there, each binding
ends at a port without driver, and no two of them end at the same port. -/
theorem connectUntyped_eq_ok_iff {s d : String} {bs : List Binding} :
    g.connectUntyped s d bs = .ok g' ↔ s ∈ g.names ∧ d ∈ g.names ∧ (bs.map Binding.dest).Nodup ∧
      (∀ b ∈ bs, g.driver? d b.dest = none) ∧ g' = g.bind s d bs := by
  unfold connectUntyped
  simp only [bind_eq_ok_iff, find_eq_ok_iff]
  constructor
  · rintro ⟨i, hi, j, hj, ⟨⟩, hcheck, h⟩
    obtain ⟨hnodup, hfree, -⟩ := checkUndriven_eq_ok_iff.1 hcheck
    exact ⟨mem_names_of_instance? hi, mem_names_of_instance? hj, hnodup,
      hfree, (Except.ok.inj h).symm⟩
  · rintro ⟨hs, hd, hnodup, hfree, rfl⟩
    obtain ⟨i, hi⟩ := exists_instance? hs
    obtain ⟨j, hj⟩ := exists_instance? hd
    have hcheck : g.checkUndriven s d [] bs = .ok () :=
      checkUndriven_eq_ok_iff.2 ⟨hnodup, hfree, fun _ _ => List.not_mem_nil⟩
    exact ⟨i, hi, j, hj, ⟨⟩, hcheck, rfl⟩

theorem connectUntyped_wellFormed {s d : String} {bs : List Binding} (hg : g.WellFormed)
    (h : g.connectUntyped s d bs = .ok g') : g'.WellFormed := by
  obtain ⟨hs, hd, hnodup, hfree, rfl⟩ := connectUntyped_eq_ok_iff.1 h
  exact hg.bind hs hd hnodup hfree

theorem insert_eq_ok_iff {i : Instance} :
    g.insert i = .ok g' ↔ i.name ∉ g.names ∧ g' = g.push i := by
  rw [insert, ite_error_eq_ok_iff, contains_iff, Except.ok.injEq, @eq_comm _ g']

theorem insert_wellFormed {i : Instance} (hg : g.WellFormed) (h : g.insert i = .ok g') :
    g'.WellFormed := by
  obtain ⟨hn, rfl⟩ := insert_eq_ok_iff.1 h
  exact hg.push hn

theorem remove_wellFormed {name : String} {i : Instance} (hg : g.WellFormed)
    (h : g.remove name = .ok (i, g')) : g'.WellFormed := by
  unfold remove at h
  split at h
  · cases h
    exact hg.without name
  · cases h

/-- Changes lead from the empty graph to this one, whatever the catalog at each of them. -/
inductive Reached : Graph → Prop
  | empty : Reached .empty
  | insert {g g' : Graph} {i : Instance} (hg : Reached g) (h : g.insert i = .ok g') : Reached g'
  | relabel {g g' : Graph} {name module : String} {role : Role} (hg : Reached g)
      (h : g.relabel name module role = .ok g') : Reached g'
  | connect {c : Catalog} {g g' : Graph} {s d : String} {bs : List Binding} (hg : Reached g)
      (h : g.connect c s d bs = .ok g') : Reached g'
  | connectUntyped {g g' : Graph} {s d : String} {bs : List Binding} (hg : Reached g)
      (h : g.connectUntyped s d bs = .ok g') : Reached g'
  | remove {g g' : Graph} {name : String} {i : Instance} (hg : Reached g)
      (h : g.remove name = .ok (i, g')) : Reached g'
  | removeOrphans {g : Graph} {eligible : Instance → Bool} (hg : Reached g) :
      Reached (g.removeOrphans eligible)

/-- Graphs that changes lead to are well formed. -/
theorem Reached.wellFormed (h : g.Reached) : g.WellFormed := by
  induction h with
  | empty => exact .empty
  | insert _ h ih => exact insert_wellFormed ih h
  | relabel _ h ih => exact ih.relabel h
  | connect _ h ih => exact connect_wellFormed ih h
  | connectUntyped _ h ih => exact connectUntyped_wellFormed ih h
  | remove _ h ih => exact remove_wellFormed ih h
  | removeOrphans _ ih => exact ih.removeOrphans _

end Netlist.Graph
