import Mathlib.Data.List.Flatten
import Mathlib.Data.List.Nodup
import Mathlib.Data.List.Perm.Basic
import Mathlib.Tactic.Common
import Netlist.Graph.Change

/-!
# Reading graphs through wires

A graph is read through its instances, its wires and the pairs of instances that it links. Each
change of a graph is characterised by what it does to these three.

## Main definitions

* `Netlist.Graph.Linked`: two instances are the ends of a link, which may have no bindings.
* `Netlist.Bundle.extend`, `Netlist.Link.extend`: bindings added between two instances.
* `Netlist.Graph.OneLink`: no two links have the same ends.

## Main results

* `Netlist.Graph.wires_perm`, `Netlist.Graph.mem_wires`: the wires are those of the links.
* `Netlist.Graph.wires_bind_perm`: binding adds the new wires and no others.
* `Netlist.Graph.mem_wires_without`: removal takes away the wires that touch the instance.
* `Netlist.Graph.driver?_eq_none_iff`: a port has no driver if no wire ends at it.
-/

namespace Netlist

/-! ### Links in the order of their slots -/

namespace Link

theorem insertBySlot_perm (l : Link) (ls : List Link) : (insertBySlot l ls).Perm (l :: ls) := by
  induction ls with
  | nil => exact List.Perm.refl _
  | cons k ks ih =>
    unfold insertBySlot
    split_ifs
    · exact List.Perm.refl _
    · exact (ih.cons k).trans (List.Perm.swap l k ks)

/-- Sorting rearranges the links. -/
theorem sortBySlot_perm (ls : List Link) : (sortBySlot ls).Perm ls := by
  induction ls with
  | nil => exact List.Perm.refl _
  | cons l ls ih => exact (insertBySlot_perm l (sortBySlot ls)).trans (ih.cons l)

/-- A link is put somewhere between the others. -/
theorem exists_insertBySlot_eq (l : Link) (ls : List Link) :
    ∃ ks ms, ls = ks ++ ms ∧ insertBySlot l ls = ks ++ l :: ms := by
  induction ls with
  | nil => exact ⟨[], [], rfl, rfl⟩
  | cons k ls ih =>
    unfold insertBySlot
    split_ifs
    · exact ⟨[], k :: ls, rfl, rfl⟩
    · obtain ⟨ks, ms, hls, hinsert⟩ := ih
      exact ⟨k :: ks, ms, by rw [hls, List.cons_append], by rw [hinsert, List.cons_append]⟩

/-- Links that are changed in their slots keep their order. -/
theorem sortBySlot_map {f : Link → Link} (hf : ∀ l, (f l).slot = l.slot) (ls : List Link) :
    sortBySlot (ls.map f) = (sortBySlot ls).map f := by
  have hinsert (l : Link) (ks : List Link) :
      insertBySlot (f l) (ks.map f) = (insertBySlot l ks).map f := by
    induction ks with
    | nil => rfl
    | cons k ks ih =>
      rw [List.map_cons, insertBySlot, insertBySlot, hf, hf, ih]
      split_ifs <;> rfl
  induction ls with
  | nil => rfl
  | cons l ls ih =>
    change insertBySlot (f l) (sortBySlot (ls.map f)) = (insertBySlot l (sortBySlot ls)).map f
    rw [ih, hinsert]

end Link

theorem Endpoint.eq_mk_iff {e : Endpoint} {owner port : String} :
    e = ⟨owner, port⟩ ↔ e.owner = owner ∧ e.port = port := by
  cases e
  exact Endpoint.mk.injEq .. ▸ Iff.rfl

theorem Bundle.mem_wires {l : Bundle} {w : Wire} :
    w ∈ l.wires ↔ w.source.owner = l.source ∧ w.dest.owner = l.dest ∧
      ⟨w.source.port, w.dest.port⟩ ∈ l.bindings := by
  obtain ⟨⟨s, p⟩, ⟨d, q⟩⟩ := w
  simp only [Bundle.wires, List.mem_map, Wire.mk.injEq, Endpoint.mk.injEq]
  constructor
  · rintro ⟨b, hb, ⟨rfl, rfl⟩, rfl, rfl⟩
    exact ⟨rfl, rfl, hb⟩
  · rintro ⟨rfl, rfl, hb⟩
    exact ⟨_, hb, ⟨rfl, rfl⟩, rfl, rfl⟩

/-- The wires of a bundle end at different ports if its bindings do. -/
theorem Bundle.nodup_dests_wires {l : Bundle} :
    (l.wires.map Wire.dest).Nodup ↔ (l.bindings.map Binding.dest).Nodup := by
  have hdests : l.wires.map Wire.dest = (l.bindings.map Binding.dest).map (Endpoint.mk l.dest) := by
    rw [Bundle.wires, List.map_map, List.map_map]
    rfl
  rw [hdests]
  exact List.nodup_map_iff fun _ _ h => (Endpoint.mk.inj h).2

theorem Bundle.wires_append (s d : String) (bs cs : List Binding) :
    (⟨s, d, bs ++ cs⟩ : Bundle).wires =
      (⟨s, d, bs⟩ : Bundle).wires ++ (⟨s, d, cs⟩ : Bundle).wires :=
  List.map_append

/-- A bundle with bindings added at its end if it leads from one given instance to another. -/
def Bundle.extend (s d : String) (bs : List Binding) (l : Bundle) : Bundle :=
  if l.source = s ∧ l.dest = d then { l with bindings := l.bindings ++ bs } else l

theorem Bundle.source_extend (s d : String) (bs : List Binding) (l : Bundle) :
    (l.extend s d bs).source = l.source := by
  unfold extend
  split_ifs <;> rfl

theorem Bundle.dest_extend (s d : String) (bs : List Binding) (l : Bundle) :
    (l.extend s d bs).dest = l.dest := by
  unfold extend
  split_ifs <;> rfl

/-- A link with bindings added at its end if it leads from one given instance to another. -/
def Link.extend (s d : String) (bs : List Binding) (l : Link) : Link :=
  { l with toBundle := l.toBundle.extend s d bs }

theorem Link.extend_of_ends_eq {s d : String} {l : Link} (hs : l.source = s) (hd : l.dest = d)
    (bs : List Binding) : l.extend s d bs = { l with bindings := l.bindings ++ bs } := by
  rw [Link.extend, Bundle.extend, if_pos ⟨hs, hd⟩]

theorem Link.extend_of_ends_ne {s d : String} {l : Link} (h : ¬(l.source = s ∧ l.dest = d))
    (bs : List Binding) : l.extend s d bs = l := by
  rw [Link.extend, Bundle.extend, if_neg h]

namespace Graph

/-! ### Instances -/

theorem mem_names {g : Graph} {name : String} :
    name ∈ g.names ↔ ∃ i ∈ g.instances, i.name = name :=
  List.mem_map

theorem contains_iff {g : Graph} {name : String} : g.contains name = true ↔ name ∈ g.names := by
  simp only [contains, List.any_eq_true, decide_eq_true_eq, mem_names]

theorem instance?_eq_some {g : Graph} {name : String} {i : Instance}
    (h : g.instance? name = some i) : i ∈ g.instances ∧ i.name = name :=
  ⟨List.mem_of_find?_eq_some h, by simpa using List.find?_some h⟩

theorem mem_names_of_instance? {g : Graph} {name : String} {i : Instance}
    (h : g.instance? name = some i) : name ∈ g.names :=
  mem_names.2 ⟨i, instance?_eq_some h⟩

theorem exists_instance? {g : Graph} {name : String} (h : name ∈ g.names) :
    ∃ i, g.instance? name = some i := by
  obtain ⟨i, hi, hn⟩ := mem_names.1 h
  exact Option.isSome_iff_exists.1 (List.find?_isSome.2 ⟨i, hi, by simpa using hn⟩)

/-- Where names are distinct, an instance is found under its name. -/
theorem instance?_of_mem {g : Graph} (hg : g.names.Nodup) {i : Instance} (hi : i ∈ g.instances) :
    g.instance? i.name = some i := by
  obtain ⟨j, hj⟩ := exists_instance? (mem_names.2 ⟨i, hi, rfl⟩)
  obtain ⟨hmem, hname⟩ := instance?_eq_some hj
  rw [hj, List.inj_on_of_nodup_map hg hmem hi hname]

/-- Where names are distinct, looking up a name finds the instance of that name. -/
theorem instance?_eq_some_iff {g : Graph} (hg : g.names.Nodup) {name : String} {i : Instance} :
    g.instance? name = some i ↔ i ∈ g.instances ∧ i.name = name :=
  ⟨instance?_eq_some, fun h => h.2 ▸ instance?_of_mem hg h.1⟩

/-! ### Wires and links -/

theorem connections_perm (g : Graph) : g.connections.Perm g.links :=
  Link.sortBySlot_perm g.links

theorem mem_connections {g : Graph} {l : Link} : l ∈ g.connections ↔ l ∈ g.links :=
  g.connections_perm.mem_iff

/-- The wires of a graph are those of its links. -/
theorem wires_perm (g : Graph) : g.wires.Perm (g.links.flatMap fun l => l.wires) :=
  g.connections_perm.flatMap_right _

theorem mem_wires {g : Graph} {w : Wire} : w ∈ g.wires ↔ ∃ l ∈ g.links, w ∈ l.wires := by
  rw [g.wires_perm.mem_iff, List.mem_flatMap]

/-- Two instances are the ends of a link. The link may have no bindings. -/
def Linked (g : Graph) (source dest : String) : Prop :=
  ∃ l ∈ g.links, l.source = source ∧ l.dest = dest

theorem linked_of_mem_wires {g : Graph} {w : Wire} (h : w ∈ g.wires) :
    g.Linked w.source.owner w.dest.owner := by
  obtain ⟨l, hl, hw⟩ := mem_wires.1 h
  obtain ⟨hs, hd, -⟩ := Bundle.mem_wires.1 hw
  exact ⟨l, hl, hs.symm, hd.symm⟩

theorem isOrphan_iff {g : Graph} {name : String} :
    g.isOrphan name = true ↔ ∀ s d, g.Linked s d → s ≠ name ∧ d ≠ name := by
  simp only [isOrphan, List.all_eq_true, Link.touches, Bool.not_eq_true', Bool.or_eq_false_iff,
    decide_eq_false_iff_not]
  constructor
  · rintro h s d ⟨l, hl, rfl, rfl⟩
    exact h l hl
  · intro h l hl
    exact h _ _ ⟨l, hl, rfl, rfl⟩

theorem link?_eq_none_iff {g : Graph} {s d : String} : g.link? s d = none ↔ ¬g.Linked s d := by
  simp only [link?, List.find?_eq_none, decide_eq_true_eq, Linked, not_exists, not_and]

/-! ### Drivers -/

theorem mem_wires_of_driver? {g : Graph} {name port : String} {e : Endpoint}
    (h : g.driver? name port = some e) : ⟨e, ⟨name, port⟩⟩ ∈ g.wires := by
  obtain ⟨l, hl, h⟩ := List.exists_of_findSome?_eq_some h
  split_ifs at h with hd
  obtain ⟨p, hp, rfl⟩ := Option.map_eq_some_iff.1 h
  obtain ⟨b, hb, rfl⟩ := Option.map_eq_some_iff.1 hp
  have hbd : b.dest = port := by simpa using List.find?_some hb
  refine mem_wires.2 ⟨l, hl, Bundle.mem_wires.2 ⟨rfl, hd.symm, ?_⟩⟩
  exact hbd ▸ List.mem_of_find?_eq_some hb

/-- A port has no driver if no wire ends at it. -/
theorem driver?_eq_none_iff {g : Graph} {name port : String} :
    g.driver? name port = none ↔ ∀ w ∈ g.wires, w.dest ≠ ⟨name, port⟩ := by
  constructor
  · intro h w hw hd
    obtain ⟨l, hl, hw⟩ := mem_wires.1 hw
    obtain ⟨-, hdest, hb⟩ := Bundle.mem_wires.1 hw
    have hl := List.findSome?_eq_none_iff.1 h l hl
    rw [hd] at hdest hb
    rw [if_pos hdest.symm, Option.map_eq_none_iff, Link.sourceOf?, Option.map_eq_none_iff,
      List.find?_eq_none] at hl
    exact hl _ hb (by simp)
  · intro h
    rw [← Option.not_isSome_iff_eq_none, Option.isSome_iff_exists]
    rintro ⟨e, he⟩
    exact h _ (mem_wires_of_driver? he) rfl

/-! ### Changes -/

@[simp] theorem wires_push (g : Graph) (i : Instance) : (g.push i).wires = g.wires :=
  rfl

@[simp] theorem linked_push {g : Graph} {i : Instance} {s d : String} :
    (g.push i).Linked s d ↔ g.Linked s d :=
  Iff.rfl

@[simp] theorem names_push (g : Graph) (i : Instance) : (g.push i).names = g.names ++ [i.name] :=
  List.map_append

@[simp] theorem wires_removeOrphans (g : Graph) (eligible : Instance → Bool) :
    (g.removeOrphans eligible).wires = g.wires :=
  rfl

@[simp] theorem linked_removeOrphans {g : Graph} {eligible : Instance → Bool} {s d : String} :
    (g.removeOrphans eligible).Linked s d ↔ g.Linked s d :=
  Iff.rfl

theorem mem_instances_removeOrphans {g : Graph} {eligible : Instance → Bool} {i : Instance} :
    i ∈ (g.removeOrphans eligible).instances ↔
      i ∈ g.instances ∧ ¬(g.isOrphan i.name = true ∧ eligible i = true) := by
  simp only [removeOrphans, List.mem_filter, Bool.not_eq_true', ← Bool.not_eq_true,
    Bool.and_eq_true]

theorem names_without (g : Graph) (name : String) :
    (g.without name).names = g.names.filter (· ≠ name) := by
  rw [names, names, List.filter_map]
  rfl

theorem mem_names_without {g : Graph} {name n : String} :
    n ∈ (g.without name).names ↔ n ∈ g.names ∧ n ≠ name := by
  simp only [mem_names, without, List.mem_filter, decide_eq_true_eq]
  constructor
  · rintro ⟨i, ⟨hi, hne⟩, rfl⟩
    exact ⟨⟨i, hi, rfl⟩, hne⟩
  · rintro ⟨⟨i, hi, rfl⟩, hne⟩
    exact ⟨i, ⟨hi, hne⟩, rfl⟩

theorem mem_links_without {g : Graph} {name : String} {l : Link} :
    l ∈ (g.without name).links ↔ l ∈ g.links ∧ l.source ≠ name ∧ l.dest ≠ name := by
  simp only [without, List.mem_filter, Link.touches, Bool.not_eq_true', Bool.or_eq_false_iff,
    decide_eq_false_iff_not, ne_eq]

theorem linked_without {g : Graph} {name s d : String} :
    (g.without name).Linked s d ↔ g.Linked s d ∧ s ≠ name ∧ d ≠ name := by
  constructor
  · rintro ⟨l, hl, rfl, rfl⟩
    obtain ⟨hl, hne⟩ := mem_links_without.1 hl
    exact ⟨⟨l, hl, rfl, rfl⟩, hne⟩
  · rintro ⟨⟨l, hl, rfl, rfl⟩, hne⟩
    exact ⟨l, mem_links_without.2 ⟨hl, hne⟩, rfl, rfl⟩

/-- Taking out an orphan leaves the links as they are. -/
theorem without_of_isOrphan {g : Graph} {name : String} (h : g.isOrphan name = true) :
    g.without name = { g with instances := g.instances.filter (·.name ≠ name) } := by
  have hne : ∀ l ∈ g.links, l.source ≠ name ∧ l.dest ≠ name :=
    fun l hl => isOrphan_iff.1 h _ _ ⟨l, hl, rfl, rfl⟩
  have hlinks : g.links.filter (fun l => !l.touches name) = g.links :=
    List.filter_eq_self.2 fun l hl => by simp [Link.touches, hne l hl]
  have hat : g.linksAt name = [] := by
    simp only [linksAt, List.append_eq_nil_iff, List.filter_eq_nil_iff, decide_eq_true_eq, not_and]
    exact ⟨fun l hl => (hne l hl).1, fun l hl hd => absurd hd (hne l hl).2⟩
  rw [without, hlinks, hat]
  rfl

theorem foldl_without_of_isOrphan {g : Graph} {names : List String}
    (h : ∀ n ∈ names, g.isOrphan n = true) : names.foldl without g =
      { g with instances := g.instances.filter (·.name ∉ names) } := by
  induction names generalizing g with
  | nil => simp
  | cons n ns ih =>
    obtain ⟨hn, hns⟩ := List.forall_mem_cons.1 h
    have hrest := ih (g := { g with instances := g.instances.filter (·.name ≠ n) }) hns
    rw [List.foldl_cons, without_of_isOrphan hn, hrest, List.filter_filter]
    simp only [List.mem_cons, not_or, Bool.decide_and, Bool.and_comm]

/-- Removal takes away the wires that touch the instance. -/
theorem mem_wires_without {g : Graph} {name : String} {w : Wire} :
    w ∈ (g.without name).wires ↔
      w ∈ g.wires ∧ w.source.owner ≠ name ∧ w.dest.owner ≠ name := by
  simp only [mem_wires, mem_links_without]
  constructor
  · rintro ⟨l, ⟨hl, hs, hd⟩, hw⟩
    obtain ⟨hws, hwd, -⟩ := Bundle.mem_wires.1 hw
    exact ⟨⟨l, hl, hw⟩, hws ▸ hs, hwd ▸ hd⟩
  · rintro ⟨⟨l, hl, hw⟩, hs, hd⟩
    obtain ⟨hws, hwd, -⟩ := Bundle.mem_wires.1 hw
    exact ⟨l, ⟨hl, hws ▸ hs, hwd ▸ hd⟩, hw⟩

/-- Removal repeats no wire. -/
theorem wires_without_subperm (g : Graph) (name : String) :
    (g.without name).wires.Subperm g.wires := by
  have h : ((g.without name).links.flatMap fun l => l.wires).Sublist
      (g.links.flatMap fun l => l.wires) := List.filter_sublist.flatMap _
  exact ((g.without name).wires_perm.subperm.trans h.subperm).trans g.wires_perm.symm.subperm

/-- A new link takes the place in front of the others. -/
theorem links_addLink (g : Graph) (s d : String) (bs : List Binding) :
    ∃ slot, (g.addLink s d bs).links = ⟨⟨s, d, bs⟩, slot⟩ :: g.links := by
  unfold addLink
  split
  · exact ⟨_, rfl⟩
  · exact ⟨_, rfl⟩

theorem instances_addLink (g : Graph) (s d : String) (bs : List Binding) :
    (g.addLink s d bs).instances = g.instances := by
  unfold addLink
  split <;> rfl

/-- Binding either makes a link or extends the links there are. -/
theorem links_bind (g : Graph) (s d : String) (bs : List Binding) :
    (¬g.Linked s d ∧ ∃ slot, (g.bind s d bs).links = ⟨⟨s, d, bs⟩, slot⟩ :: g.links) ∨
      (g.Linked s d ∧ (g.bind s d bs).links = g.links.map (Link.extend s d bs)) := by
  unfold bind
  cases h : g.link? s d with
  | none => exact Or.inl ⟨link?_eq_none_iff.1 h, links_addLink g s d bs⟩
  | some l =>
    refine Or.inr ⟨?_, List.map_congr_left fun k _ => ?_⟩
    · by_contra hn
      rw [link?_eq_none_iff.2 hn] at h
      cases h
    · rw [Link.extend, Bundle.extend]
      split_ifs <;> rfl

theorem links_bind_of_linked {g : Graph} {s d : String} (h : g.Linked s d) (bs : List Binding) :
    (g.bind s d bs).links = g.links.map (Link.extend s d bs) :=
  ((links_bind g s d bs).resolve_left fun hn => hn.1 h).2

theorem links_bind_of_not_linked {g : Graph} {s d : String} (h : ¬g.Linked s d)
    (bs : List Binding) : ∃ slot, (g.bind s d bs).links = ⟨⟨s, d, bs⟩, slot⟩ :: g.links :=
  ((links_bind g s d bs).resolve_right fun hn => h hn.1).2

@[simp] theorem instances_bind (g : Graph) (s d : String) (bs : List Binding) :
    (g.bind s d bs).instances = g.instances := by
  unfold bind
  split
  · rfl
  · exact instances_addLink g s d bs

@[simp] theorem names_bind (g : Graph) (s d : String) (bs : List Binding) :
    (g.bind s d bs).names = g.names :=
  congrArg (List.map Instance.name) (instances_bind g s d bs)

theorem linked_bind {g : Graph} {s d : String} {bs : List Binding} {s' d' : String} :
    (g.bind s d bs).Linked s' d' ↔ g.Linked s' d' ∨ (s' = s ∧ d' = d) := by
  unfold Linked
  rcases links_bind g s d bs with ⟨-, slot, h⟩ | ⟨hl, h⟩
  · rw [h]
    simp only [List.mem_cons, exists_eq_or_imp]
    constructor
    · rintro (⟨rfl, rfl⟩ | h)
      · exact Or.inr ⟨rfl, rfl⟩
      · exact Or.inl h
    · rintro (h | ⟨rfl, rfl⟩)
      · exact Or.inr h
      · exact Or.inl ⟨rfl, rfl⟩
  · rw [h]
    simp only [List.mem_map, exists_exists_and_eq_and, Link.extend, Bundle.source_extend,
      Bundle.dest_extend]
    constructor
    · exact Or.inl
    · rintro (h | ⟨rfl, rfl⟩)
      · exact h
      · exact hl

/-- No two links lead from one instance to the same other. -/
def OneLink (ls : List Link) : Prop :=
  ls.Pairwise fun k l => ¬(k.source = l.source ∧ k.dest = l.dest)

theorem map_extend_of_unlinked {s d : String} {bs : List Binding} {ls : List Link}
    (h : ∀ l ∈ ls, ¬(l.source = s ∧ l.dest = d)) : ls.map (Link.extend s d bs) = ls :=
  (List.map_congr_left fun l hl => Link.extend_of_ends_ne (h l hl) bs).trans (List.map_id' ls)

private theorem flatMap_wires_extend {s d : String} {bs : List Binding} {ls : List Link}
    (hone : OneLink ls) (h : ∃ l ∈ ls, l.source = s ∧ l.dest = d) :
    ((ls.map (Link.extend s d bs)).flatMap fun l => l.wires).Perm
      ((ls.flatMap fun l => l.wires) ++ (⟨s, d, bs⟩ : Bundle).wires) := by
  induction ls with
  | nil => simp at h
  | cons l ls ih =>
    obtain ⟨hl, hls⟩ := List.pairwise_cons.1 hone
    rw [List.map_cons, List.flatMap_cons, List.flatMap_cons]
    by_cases hm : l.source = s ∧ l.dest = d
    · have hrest : ∀ k ∈ ls, ¬(k.source = s ∧ k.dest = d) :=
        fun k hk hkm => hl k hk ⟨hm.1.trans hkm.1.symm, hm.2.trans hkm.2.symm⟩
      have hwires : (l.extend s d bs).wires = l.wires ++ (⟨s, d, bs⟩ : Bundle).wires := by
        rw [Link.extend, Bundle.extend, if_pos hm, ← hm.1, ← hm.2]
        exact Bundle.wires_append _ _ _ _
      rw [map_extend_of_unlinked hrest, hwires, List.append_assoc, List.append_assoc]
      exact List.perm_append_comm.append_left _
    · have hex : ∃ k ∈ ls, k.source = s ∧ k.dest = d := by
        obtain ⟨k, hk, hkm⟩ := h
        rcases List.mem_cons.1 hk with rfl | hk
        · exact absurd hkm hm
        · exact ⟨k, hk, hkm⟩
      rw [Link.extend_of_ends_ne hm, List.append_assoc]
      exact (ih hls hex).append_left _

/-- Binding adds the new wires and no others. -/
theorem wires_bind_perm {g : Graph} (hone : OneLink g.links) (s d : String) (bs : List Binding) :
    (g.bind s d bs).wires.Perm (g.wires ++ (⟨s, d, bs⟩ : Bundle).wires) := by
  have hg := g.wires_perm.symm.append_right (⟨s, d, bs⟩ : Bundle).wires
  refine (wires_perm _).trans (List.Perm.trans ?_ hg)
  rcases links_bind g s d bs with ⟨-, slot, h⟩ | ⟨hl, h⟩
  · rw [h, List.flatMap_cons]
    exact List.perm_append_comm
  · rw [h]
    exact flatMap_wires_extend hone hl

theorem OneLink.connections {g : Graph} (hone : OneLink g.links) : OneLink g.connections :=
  (g.connections_perm.pairwise_iff fun h he => h ⟨he.1.symm, he.2.symm⟩).2 hone

theorem OneLink.bind {g : Graph} (hone : OneLink g.links) (s d : String) (bs : List Binding) :
    OneLink (g.bind s d bs).links := by
  rcases links_bind g s d bs with ⟨hn, slot, h⟩ | ⟨-, h⟩
  · rw [h]
    exact List.pairwise_cons.2 ⟨fun l hl hm => hn ⟨l, hl, hm.1.symm, hm.2.symm⟩, hone⟩
  · rw [h]
    refine List.Pairwise.map _ (fun k l hkl => ?_) hone
    simpa only [Link.extend, Bundle.source_extend, Bundle.dest_extend] using hkl

end Graph

end Netlist
