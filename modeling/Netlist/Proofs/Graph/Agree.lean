import Mathlib.Data.List.Pairwise
import Netlist.Proofs.Graph.WellFormed

/-!
# Agreement of graphs

Graphs that agree up to order are told apart neither by their instances nor by their wires and
links, nor by what is looked up in them.

## Main results

* `Netlist.Graph.agree_iff`: well-formed graphs agree if they have the same instances, links and
  wires.
* `Netlist.Graph.Agree.instance?_eq`, `Netlist.Graph.Agree.driver?_eq`: the same instances and the
  same drivers are found.
-/

namespace Netlist.Graph

variable {g h : Graph}

/-- There is one link with given ends. -/
theorem OneLink.eq {ls : List Link} (hone : OneLink ls) {k l : Link} (hk : k ∈ ls) (hl : l ∈ ls)
    (hs : k.source = l.source) (hd : k.dest = l.dest) : k = l := by
  have : Std.Symm fun k l : Link => ¬(k.source = l.source ∧ k.dest = l.dest) :=
    ⟨fun _ _ h he => h ⟨he.1.symm, he.2.symm⟩⟩
  by_contra hne
  exact List.Pairwise.forall hone hk hl hne ⟨hs, hd⟩

/-- The bindings of a link are the wires between its ends. -/
theorem mem_wires_iff_of_link (hone : OneLink g.links) {l : Link} (hl : l ∈ g.links)
    {p q : String} : ⟨⟨l.source, p⟩, ⟨l.dest, q⟩⟩ ∈ g.wires ↔ ⟨p, q⟩ ∈ l.bindings := by
  rw [mem_wires]
  constructor
  · rintro ⟨k, hk, hw⟩
    obtain ⟨hs, hd, hb⟩ := Bundle.mem_wires.1 hw
    exact hone.eq hk hl hs.symm hd.symm ▸ hb
  · exact fun hb => ⟨l, hl, Bundle.mem_wires.2 ⟨rfl, rfl, hb⟩⟩

/-- Links are within others if these link the same instances by the same wires. -/
theorem linksWithin_iff (hg : OneLink g.links) (hh : OneLink h.links) :
    LinksWithin g.links h.links ↔ ∀ s d, g.Linked s d → h.Linked s d ∧
      ∀ p q, ⟨⟨s, p⟩, ⟨d, q⟩⟩ ∈ g.wires ↔ ⟨⟨s, p⟩, ⟨d, q⟩⟩ ∈ h.wires := by
  constructor
  · rintro hgh s d ⟨l, hl, rfl, rfl⟩
    obtain ⟨k, hk, hs, hd, hlk, hkl⟩ := hgh l hl
    refine ⟨⟨k, hk, hs, hd⟩, fun p q => ?_⟩
    rw [mem_wires_iff_of_link hg hl, ← hs, ← hd, mem_wires_iff_of_link hh hk]
    exact ⟨hlk _, hkl _⟩
  · intro hgh l hl
    obtain ⟨⟨k, hk, hs, hd⟩, hw⟩ := hgh _ _ ⟨l, hl, rfl, rfl⟩
    have hb (p q : String) : ⟨p, q⟩ ∈ l.bindings ↔ ⟨p, q⟩ ∈ k.bindings := by
      rw [← mem_wires_iff_of_link hg hl, ← mem_wires_iff_of_link hh hk, hs, hd]
      exact hw p q
    exact ⟨k, hk, hs, hd, fun b => (hb b.source b.dest).1, fun b => (hb b.source b.dest).2⟩

/-- Well-formed graphs agree if they have the same instances, links and wires. -/
theorem agree_iff (hg : g.WellFormed) (hh : h.WellFormed) : g.Agree h ↔
    (∀ i, i ∈ g.instances ↔ i ∈ h.instances) ∧ (∀ s d, g.Linked s d ↔ h.Linked s d) ∧
      ∀ w, w ∈ g.wires ↔ w ∈ h.wires := by
  unfold Agree
  rw [linksWithin_iff hg.oneLink hh.oneLink, linksWithin_iff hh.oneLink hg.oneLink]
  constructor
  · rintro ⟨hgh, hhg, hlgh, hlhg⟩
    refine ⟨fun i => ⟨hgh i, hhg i⟩,
      fun s d => ⟨fun hl => (hlgh s d hl).1, fun hl => (hlhg s d hl).1⟩,
      fun w => ⟨fun hw => ?_, fun hw => ?_⟩⟩
    · exact ((hlgh _ _ (linked_of_mem_wires hw)).2 _ _).1 hw
    · exact ((hlhg _ _ (linked_of_mem_wires hw)).2 _ _).1 hw
  · rintro ⟨hi, hl, hw⟩
    exact ⟨fun i => (hi i).1, fun i => (hi i).2, fun s d h => ⟨(hl s d).1 h, fun _ _ => hw _⟩,
      fun s d h => ⟨(hl s d).2 h, fun _ _ => (hw _).symm⟩⟩

namespace Agree

theorem refl (g : Graph) : g.Agree g := by
  have hlinks : LinksWithin g.links g.links :=
    fun l hl => ⟨l, hl, rfl, rfl, fun _ hb => hb, fun _ hb => hb⟩
  exact ⟨fun _ hi => hi, fun _ hi => hi, hlinks, hlinks⟩

theorem symm (hgh : g.Agree h) : h.Agree g := by
  obtain ⟨hi, hi', hl, hl'⟩ := hgh
  exact ⟨hi', hi, hl', hl⟩

theorem mem_instances_iff (hgh : g.Agree h) {i : Instance} :
    i ∈ g.instances ↔ i ∈ h.instances :=
  ⟨hgh.1 i, hgh.2.1 i⟩

theorem mem_names_iff (hgh : g.Agree h) {n : String} : n ∈ g.names ↔ n ∈ h.names := by
  simp only [mem_names, hgh.mem_instances_iff]

/-- In graphs that agree, the same instances are found. -/
theorem instance?_eq (hgh : g.Agree h) (hg : g.WellFormed) (hh : h.WellFormed) (n : String) :
    g.instance? n = h.instance? n := by
  refine Option.ext fun i => ?_
  rw [hg.instance?_eq_some_iff, hh.instance?_eq_some_iff, hgh.mem_instances_iff]

/-- In graphs that agree, ports have the same drivers. -/
theorem driver?_eq (hgh : g.Agree h) (hg : g.WellFormed) (hh : h.WellFormed) (n p : String) :
    g.driver? n p = h.driver? n p := by
  refine Option.ext fun e => ?_
  rw [hg.driver?_eq_some_iff, hh.driver?_eq_some_iff, ((agree_iff hg hh).1 hgh).2.2]

end Agree

end Netlist.Graph
