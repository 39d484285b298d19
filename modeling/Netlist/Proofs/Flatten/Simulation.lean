import Netlist.Proofs.Flatten.Hierarchy
import Netlist.Proofs.Flatten.Rewiring

/-!
# Inlining does not change what a hierarchy amounts to

A partly flattened graph is a hierarchy as well, only with fewer levels. When a composite cell gives
way to a flat inside that has the wires its hierarchy amounts to, the whole hierarchy amounts to the
same wires as before. A source in the old hierarchy is followed in the new one step by step, apart
from the part of its way that lies in the composite: there it is a wire of the flat inside.

## Main definitions

* `Netlist.Hierarchy.IsFlat`: a graph is the flat inside of a composite.

## Main results

* `Netlist.Hierarchy.connects_of_inline`, `Netlist.Hierarchy.inline_of_connects`: each hierarchy
  amounts to the wires of the other.
-/

namespace Netlist.Hierarchy

open Netlist.Graph Inline

/-- A graph without composites is the flat inside of a composite: it has the same boundary, and the
wires that the inside amounts to. -/
structure IsFlat (c : Catalog) (b : Boundary) (inside : String → Option Graph)
    (module input output : String) (B sub : Graph) : Prop where
  body_wellFormed : B.WellFormed
  body_framed : B.Framed module input output
  wellFormed : sub.WellFormed
  framed : sub.Framed module input output
  sound : sub.Sound c
  leaves : ∀ i ∈ sub.instances, i.role = .cell → inside i.module = none
  /-- The names from within composites are not those of the boundary. -/
  deep : ∀ p x, p ≠ [] → (graphAt inside B p).isSome →
    flatName b p x ≠ input ∧ flatName b p x ≠ output
  connects : ∀ w, w ∈ sub.wires ↔ Connects inside B b w

theorem flat_append (b : Boundary) (p : List String) (n : String) (e : Endpoint) :
    (⟨p ++ [n], e⟩ : Place).flat b = inner b n ((⟨p, e⟩ : Place).flat b) := by
  rw [Place.flat, flatName_append]
  rfl

section Step

variable {c : Catalog} {b : Boundary} {inside : String → Option Graph}
  {W W' B sub : Graph} {n m input output : String}
  (hW : W.WellFormed) (hn : W.instance? n = some ⟨n, m, .cell⟩) (hB : inside m = some B)
  (hflat : IsFlat c b inside m input output B sub) (h : W.inline c b n sub = .ok W')

include hn hB in
private theorem insideOf_self : insideOf inside W n = some B :=
  insideOf_eq_some_iff.2 ⟨_, hn, rfl, hB⟩

include hflat in
/-- Leaves inside the composite have other names than its boundary. -/
private theorem flat_ne_of_isLeaf {p : Place} (hp : IsLeaf inside B p) :
    (p.flat b).owner ≠ input ∧ (p.flat b).owner ≠ output := by
  obtain ⟨path, e⟩ := p
  obtain ⟨g, i, hg, hi, hr, -⟩ := hp
  by_cases hpath : path = []
  · subst hpath
    cases hg
    constructor
    · rintro rfl
      cases (hflat.body_framed.instance?_input hflat.body_wellFormed).symm.trans hi
      cases hr
    · rintro rfl
      cases (hflat.body_framed.instance?_output hflat.body_wellFormed).symm.trans hi
      cases hr
  · exact hflat.deep path e.owner hpath (hg ▸ rfl)

include hW hflat h

private theorem insideOf_inline_iff {k : String} {B' : Graph} :
    insideOf inside W' k = some B' ↔ k ≠ n ∧ insideOf inside W k = some B' := by
  simp only [insideOf_eq_some_iff]
  constructor
  · rintro ⟨i, hi, hr, hin⟩
    rcases instance?_inline hW hflat.wellFormed h hi with ⟨hk, hi⟩ | ⟨y, j, -, hj, hrj, rfl⟩
    · exact ⟨hk, i, hi, hr, hin⟩
    · cases (hflat.leaves j (instance?_eq_some hj).1 hrj).symm.trans hin
  · rintro ⟨hk, i, hi, hr, hin⟩
    exact ⟨i, instance?_inline_of_ne h hi hk, hr, hin⟩

/-- The hierarchy in the other composite cells stays. -/
private theorem graphAt_inline {k : String} (hk : k ≠ n) (q : List String) :
    graphAt inside W' (q ++ [k]) = graphAt inside W (q ++ [k]) := by
  have hk' : insideOf inside W' k = insideOf inside W k := by
    refine Option.ext fun g => ?_
    rw [insideOf_inline_iff hW hflat h]
    exact and_iff_right hk
  rw [graphAt_concat, graphAt_concat, hk']

/-- The new cells are leaves. -/
private theorem isLeaf_inner {e : Endpoint} (he : isCell sub e.owner = true) :
    IsLeaf inside W' ⟨[], inner b n e⟩ := by
  obtain ⟨j, hj, hr⟩ := isCell_iff.1 he
  exact ⟨W', _, rfl, instance?_inline_inner hW h hj hr, rfl,
    hflat.leaves j (instance?_eq_some hj).1 hr⟩

omit hW hflat h

/-! ### From the old hierarchy to the new one -/

/-- A source of the graph comes down to one that has an origin with a given name. -/
private def Lands (b : Boundary) (inside : String → Option Graph) (W W' sub : Graph) (n : String)
    (f e : Endpoint) : Prop :=
  ∃ x s, (Terminals.ofGraph sub).ComesFrom W n (inner b n) e x ∧ Origin inside W' ⟨[], x⟩ s ∧
    s.flat b = f

/-- Where a way that ends at `s'` inside the composite goes on to: a leaf inside is the end of it,
and an input is left to what drives it. -/
private inductive Tail (b : Boundary) (inside : String → Option Graph) (W W' B sub : Graph)
    (n input : String) (f : Endpoint) : Place → Prop
  | leaf {s' : Place} (hs : IsLeaf inside B s') (hf : f = inner b n (s'.flat b)) :
      Tail b inside W W' B sub n input f s'
  | input {i : String} {e : Endpoint} (hd : W.driver? n i = some e)
      (hl : Lands b inside W W' sub n f e) : Tail b inside W W' B sub n input f ⟨[], ⟨input, i⟩⟩

include hW hflat h

/-- An output of the composite has an origin if what drives it inside has one. -/
private theorem lands_of_output {f : Endpoint} {s' : Place} {o : String}
    (ht : Tail b inside W W' B sub n input f s')
    (hw : ⟨s'.flat b, ⟨output, o⟩⟩ ∈ sub.wires) : Lands b inside W W' sub n f ⟨n, o⟩ := by
  cases ht with
  | leaf hs hf =>
    have hne := (flat_ne_of_isLeaf hflat hs).1
    have hcell := hflat.framed.isCell_source hflat.sound hw hne
    have ho := (Terminals.drivers_ofGraph_inside hflat.framed hflat.wellFormed).2 ⟨hw, hne⟩
    exact ⟨_, _, Or.inr ⟨rfl, .inside ho⟩, .leaf (isLeaf_inner hW hflat h hcell), hf.symm⟩
  | input hd hl =>
    have ho := (Terminals.drivers_ofGraph_input hflat.framed hflat.wellFormed).2 hw
    obtain ⟨x, s, hc, hx, hs⟩ := hl
    refine ⟨x, s, Or.inr ⟨rfl, ?_⟩, hx, hs⟩
    rcases hc with ⟨hne, rfl⟩ | ⟨heq, htr⟩
    · exact .through ho hd hne
    · exact .around ho (hd.trans (congrArg some (Endpoint.eq_mk_iff.2 ⟨heq, rfl⟩))) htr

/-- A port of a new cell has an origin if what drives it inside the composite has one. -/
private theorem exists_driver_inner {f : Endpoint} {s' : Place} {y p : String}
    (ht : Tail b inside W W' B sub n input f s') (hy : isCell sub y = true)
    (hw : ⟨s'.flat b, ⟨y, p⟩⟩ ∈ sub.wires) : ∃ x s, ⟨x, inner b n ⟨y, p⟩⟩ ∈ W'.wires ∧
      Origin inside W' ⟨[], x⟩ s ∧ s.flat b = f := by
  have hmem (x : Endpoint) := mem_wires_inline_new hW h hflat.wellFormed hflat.sound
    hflat.framed (x := x) (p := p) hy
  cases ht with
  | leaf hs hf =>
    have hne := (flat_ne_of_isLeaf hflat hs).1
    have hcell := hflat.framed.isCell_source hflat.sound hw hne
    exact ⟨_, _, (hmem _).2 (Or.inl ⟨_, hw, hne, rfl⟩),
      .leaf (isLeaf_inner hW hflat h hcell), hf.symm⟩
  | input hd hl =>
    obtain ⟨x, s, hc, hx, hs⟩ := hl
    exact ⟨x, s, (hmem x).2 (Or.inr ⟨_, _, hw, mem_wires_of_driver? hd, hc⟩), hx, hs⟩

/-- A port of an instance that stays has an origin if its driver has one. -/
private theorem exists_driver_old {k p : String} {f e : Endpoint} (hk : k ≠ n)
    (hd : W.driver? k p = some e) (hl : Lands b inside W W' sub n f e) :
    ∃ x s, W'.driver? k p = some x ∧ Origin inside W' ⟨[], x⟩ s ∧ s.flat b = f := by
  obtain ⟨x, s, hc, hx, hs⟩ := hl
  have hw := mem_wires_of_driver? hd
  have hw' := (mem_wires_inline_old hW h hflat.sound hflat.framed (hW.dest_mem hw) hk).2 ⟨e, hw, hc⟩
  exact ⟨x, s, ((inline_wellFormed hW h).driver?_eq_some_iff).2 hw', hx, hs⟩

include hn hB

/-- A source of the old hierarchy, followed in the new one. At the top it comes down to another
source. Inside other composite cells it stays. Inside the composite itself it is followed up to the
boundary. -/
private theorem origin_inline {p s : Place} (ho : Origin inside W p s) :
    (p.path = [] → Lands b inside W W' sub n (s.flat b) p.port) ∧
      (∀ q k, p.path = q ++ [k] → k ≠ n → ∃ s', Origin inside W' p s' ∧ s'.flat b = s.flat b) ∧
      ∀ q, p.path = q ++ [n] → ∃ s', Origin inside B ⟨q, p.port⟩ s' ∧
        Tail b inside W W' B sub n input (s.flat b) s' := by
  have hself : insideOf inside W n = some B := insideOf_self hn hB
  have hgraph {q : List String} {k : String} {g : Graph} (hk : k ≠ n) :
      graphAt inside W' (q ++ [k]) = some g ↔ graphAt inside W (q ++ [k]) = some g := by
    rw [graphAt_inline hW hflat h hk]
  induction ho with
  | @leaf p hp =>
    obtain ⟨g, i, hg, hi, hr, hm⟩ := hp
    obtain ⟨path, e⟩ := p
    refine ⟨?_, ?_, ?_⟩
    · rintro rfl
      cases hg
      have hne : e.owner ≠ n := by
        intro he
        cases (he ▸ hn).symm.trans hi
        cases hm.symm.trans hB
      exact ⟨e, ⟨[], e⟩, Or.inl ⟨hne, rfl⟩,
        .leaf ⟨W', i, rfl, instance?_inline_of_ne h hi hne, hr, hm⟩, rfl⟩
    · rintro q k rfl hk
      exact ⟨_, .leaf ⟨g, i, (hgraph hk).2 hg, hi, hr, hm⟩, rfl⟩
    · rintro q rfl
      have hleaf : IsLeaf inside B ⟨q, e⟩ := ⟨g, i, graphAt_append hself q ▸ hg, hi, hr, hm⟩
      exact ⟨_, .leaf hleaf, .leaf hleaf (flat_append b q n e)⟩
  | @input e i hi hr =>
    refine ⟨fun _ => ?_, ?_, ?_⟩
    · have hne : e.owner ≠ n := by
        intro he
        cases (he ▸ hn).symm.trans hi
        cases hr
      exact ⟨e, ⟨[], e⟩, Or.inl ⟨hne, rfl⟩, .input (instance?_inline_of_ne h hi hne) hr, rfl⟩
    · intro q k hp
      simp at hp
    · intro q hp
      simp at hp
  | @enter path g B' o e e' s hg hB' hout hd _ ih =>
    obtain ⟨-, ih₂, ih₃⟩ := ih
    refine ⟨?_, ?_, ?_⟩
    · rintro rfl
      cases hg
      by_cases hne : e.owner = n
      · rw [hne] at hB'
        cases hself.symm.trans hB'
        cases hflat.body_framed.withRole?_output.symm.trans hout
        obtain ⟨s', hs', ht⟩ := ih₃ [] (congrArg (· :: []) hne)
        have hw : ⟨s'.flat b, ⟨output, e.port⟩⟩ ∈ sub.wires :=
          (hflat.connects _).2 ⟨s', ⟨[], ⟨output, e.port⟩⟩,
            Or.inr ⟨rfl, _, hflat.body_framed.instance?_output hflat.body_wellFormed, rfl⟩,
            ⟨B, e', rfl, hd, hs'⟩, rfl⟩
        have he : e = ⟨n, e.port⟩ := Endpoint.eq_mk_iff.2 ⟨hne, rfl⟩
        exact he ▸ lands_of_output hW hflat h ht hw
      · obtain ⟨s', hs', hf⟩ := ih₂ [] e.owner rfl hne
        exact ⟨e, s', Or.inl ⟨hne, rfl⟩,
          .enter rfl ((insideOf_inline_iff hW hflat h).2 ⟨hne, hB'⟩) hout hd hs', hf⟩
    · rintro q k rfl hk
      obtain ⟨s', hs', hf⟩ := ih₂ (e.owner :: q) k rfl hk
      exact ⟨s', .enter ((hgraph hk).2 hg) hB' hout hd hs', hf⟩
    · rintro q rfl
      obtain ⟨s', hs', ht⟩ := ih₃ (e.owner :: q) rfl
      exact ⟨s', .enter (graphAt_append hself q ▸ hg) hB' hout hd hs', ht⟩
  | @leave path k' g B' i e e' s hg hB' hi hr hd _ ih =>
    obtain ⟨ih₁, ih₂, ih₃⟩ := ih
    refine ⟨fun hp => (nomatch hp), fun q k hp hk => ?_, fun q hp => ?_⟩
    · cases q with
      | nil =>
        obtain ⟨rfl, rfl⟩ := List.cons.inj hp
        cases hg
        obtain ⟨x, s', hx, hs', hf⟩ := exists_driver_old hW hflat h hk hd (ih₁ rfl)
        exact ⟨s', .leave rfl ((insideOf_inline_iff hW hflat h).2 ⟨hk, hB'⟩) hi hr hx hs', hf⟩
      | cons k'' q =>
        obtain ⟨rfl, rfl⟩ := List.cons.inj hp
        obtain ⟨s', hs', hf⟩ := ih₂ q k rfl hk
        exact ⟨s', .leave ((hgraph hk).2 hg) hB' hi hr hd hs', hf⟩
    · cases q with
      | nil =>
        obtain ⟨rfl, rfl⟩ := List.cons.inj hp
        cases hg
        cases hself.symm.trans hB'
        have hin := hflat.body_framed.eq_input (instance?_eq_some hi).1 hr
        have he : e = ⟨input, e.port⟩ :=
          Endpoint.eq_mk_iff.2 ⟨(instance?_eq_some hi).2.symm.trans (congrArg _ hin), rfl⟩
        refine ⟨⟨[], e⟩, .input hi hr, ?_⟩
        rw [he]
        exact .input hd (ih₁ rfl)
      | cons k'' q =>
        obtain ⟨rfl, rfl⟩ := List.cons.inj hp
        obtain ⟨s', hs', ht⟩ := ih₃ q rfl
        exact ⟨s', .leave (graphAt_append hself q ▸ hg) hB' hi hr hd hs', ht⟩

/-- What the old hierarchy amounts to, the new one does. -/
theorem inline_of_connects {w : Wire} (hw : Connects inside W b w) : Connects inside W' b w := by
  obtain ⟨s, ⟨path, d⟩, hpin, ⟨g, e, hg, hd, ho⟩, rfl⟩ := hw
  have hself : insideOf inside W n = some B := insideOf_self hn hB
  obtain ⟨h₁, h₂, h₃⟩ := origin_inline hW hn hB hflat h ho
  rcases List.eq_nil_or_concat path with rfl | ⟨q, k, rfl⟩
  · cases hg
    have hpin' : d.owner ≠ n ∧ IsPin inside W' ⟨[], d⟩ := by
      rcases hpin with ⟨g, i, hg, hi, hr, hm⟩ | ⟨-, i, hi, hr⟩
      · cases hg
        have hne : d.owner ≠ n := by
          intro he
          cases (he ▸ hn).symm.trans hi
          cases hm.symm.trans hB
        exact ⟨hne, Or.inl ⟨W', i, rfl, instance?_inline_of_ne h hi hne, hr, hm⟩⟩
      · have hne : d.owner ≠ n := by
          intro he
          cases (he ▸ hn).symm.trans hi
          cases hr
        exact ⟨hne, Or.inr ⟨rfl, i, instance?_inline_of_ne h hi hne, hr⟩⟩
    obtain ⟨x, s', hx, hs', hf⟩ := exists_driver_old hW hflat h hpin'.1 hd (h₁ rfl)
    exact ⟨s', ⟨[], d⟩, hpin'.2, ⟨W', x, rfl, hx, hs'⟩, hf ▸ rfl⟩
  · rw [List.concat_eq_append] at hg hpin ho h₁ h₂ h₃ ⊢
    have hleaf : IsLeaf inside W ⟨q ++ [k], d⟩ := by
      refine hpin.resolve_right fun hp => ?_
      simp at hp
    by_cases hk : k = n
    · subst hk
      obtain ⟨s', hs', ht⟩ := h₃ q rfl
      have hleaf' : IsLeaf inside B ⟨q, d⟩ := (IsLeaf.append hself).1 hleaf
      have hw : ⟨s'.flat b, (⟨q, d⟩ : Place).flat b⟩ ∈ sub.wires :=
        (hflat.connects _).2 ⟨s', ⟨q, d⟩, Or.inl hleaf',
          ⟨g, e, graphAt_append hself q ▸ hg, hd, hs'⟩, rfl⟩
      have hcell := hflat.framed.isCell_dest hflat.sound hw (flat_ne_of_isLeaf hflat hleaf').2
      obtain ⟨x, s₁, hx, hs₁, hf⟩ := exists_driver_inner hW hflat h ht hcell hw
      refine ⟨s₁, ⟨[], inner b k ((⟨q, d⟩ : Place).flat b)⟩, Or.inl (isLeaf_inner hW hflat h hcell),
        ⟨W', x, rfl, ((inline_wellFormed hW h).driver?_eq_some_iff).2 hx, hs₁⟩, ?_⟩
      rw [hf, flat_append]
      rfl
    · obtain ⟨s', hs', hf⟩ := h₂ q k rfl hk
      have hg' : graphAt inside W' (q ++ [k]) = some g := by rwa [graphAt_inline hW hflat h hk]
      obtain ⟨g', i, hg₁, hi, hr, hm⟩ := hleaf
      cases hg.symm.trans hg₁
      exact ⟨s', ⟨q ++ [k], d⟩, Or.inl ⟨g, i, hg', hi, hr, hm⟩, ⟨g, e, hg', hd, hs'⟩, hf ▸ rfl⟩

/-! ### From the new hierarchy to the old one -/

omit hW hn hB hflat h in
/-- A source of the new graph goes by the name `f`: it is a new cell, or it has an origin of that
name in the old hierarchy. -/
private def Known (b : Boundary) (inside : String → Option Graph) (W : Graph) (f x : Endpoint) :
    Prop :=
  (x.owner ∉ W.names ∧ f = x) ∨ ∃ s, Origin inside W ⟨[], x⟩ s ∧ s.flat b = f

omit hW hn hB hflat h in
private theorem Known.origin {f x : Endpoint} (hx : Known b inside W f x)
    (hmem : x.owner ∈ W.names) : ∃ s, Origin inside W ⟨[], x⟩ s ∧ s.flat b = f :=
  hx.resolve_left fun hnew => hnew.1 hmem

omit hW hn hB hflat h in
private theorem Known.eq {f x : Endpoint} (hx : Known b inside W f x)
    (hnew : x.owner ∉ W.names) : f = x := by
  rcases hx with ⟨-, hf⟩ | ⟨s, hs, -⟩
  · exact hf
  · obtain ⟨g, i, hg, hi⟩ := hs.exists_instance
    cases hg
    exact absurd (mem_names_of_instance? hi) hnew

omit hW hn hB hflat h in
/-- Where a way that ends at `s'` inside the composite leads in the old hierarchy. -/
private inductive Onward (inside : String → Option Graph) (W B : Graph) (n input : String)
    (s : Place) : Place → Prop
  | leaf {s' : Place} (hs : IsLeaf inside B s') (he : s = ⟨s'.path ++ [n], s'.port⟩) :
      Onward inside W B n input s s'
  | input {i : String} {e : Endpoint} (hd : W.driver? n i = some e)
      (ho : Origin inside W ⟨[], e⟩ s) : Onward inside W B n input s ⟨[], ⟨input, i⟩⟩

omit hW h in
/-- A source inside the composite is a source of the old hierarchy. -/
private theorem origin_append {p s s' : Place} (ho : Origin inside B p s')
    (hon : Onward inside W B n input s s') : Origin inside W ⟨p.path ++ [n], p.port⟩ s := by
  have hself : insideOf inside W n = some B := insideOf_self hn hB
  induction ho with
  | leaf hp =>
    cases hon with
    | leaf hs he =>
      rw [he]
      exact .leaf ((IsLeaf.append hself).2 hs)
    | input hd _ => exact absurd rfl (flat_ne_of_isLeaf hflat hp).1
  | input hi hr =>
    cases hon with
    | leaf hs he =>
      obtain ⟨g, j, hg, hj, hrj, -⟩ := hs
      cases hg
      cases hi.symm.trans hj
      cases hr.symm.trans hrj
    | input hd ho => exact .leave rfl hself hi hr hd ho
  | @enter path g B' o e e' s' hg hB' hout hd _ ih =>
    exact .enter ((graphAt_append hself path).trans hg) hB' hout hd (ih hon)
  | @leave path k g B' i e e' s' hg hB' hi hr hd _ ih =>
    exact .leave ((graphAt_append hself path).trans hg) hB' hi hr hd (ih hon)

omit hW hn hB h in
/-- The source of a wire of the flat inside is a leaf inside the composite or one of its inputs. -/
private theorem source_cases {p s' : Place} (ho : Origin inside B p s') :
    (IsLeaf inside B s' ∧ (s'.flat b).owner ≠ input) ∨
      ∃ i, s' = ⟨[], ⟨input, i⟩⟩ ∧ s'.flat b = ⟨input, i⟩ := by
  rcases ho.isLeaf_or with hs | ⟨hp, i, hi, hr⟩
  · exact Or.inl ⟨hs, (flat_ne_of_isLeaf hflat hs).1⟩
  · obtain ⟨path, ⟨o, q⟩⟩ := s'
    obtain rfl : path = [] := hp
    obtain rfl : o = input := (instance?_eq_some hi).2.symm.trans
      (congrArg Instance.name (hflat.body_framed.eq_input (instance?_eq_some hi).1 hr))
    exact Or.inr ⟨q, rfl, rfl⟩

omit hW h in
/-- What drives an output in the flat inside drives it in the old hierarchy. -/
private theorem exists_origin_output {f : Endpoint} {o : String}
    (hw : ⟨f, ⟨output, o⟩⟩ ∈ sub.wires) : ∃ p s', Origin inside B p s' ∧ s'.flat b = f ∧
      ∀ s, Onward inside W B n input s s' → Origin inside W ⟨[], ⟨n, o⟩⟩ s := by
  obtain ⟨s', ⟨path, d⟩, hpin, ⟨g, e, hg, hd, ho⟩, he⟩ := (hflat.connects _).1 hw
  obtain ⟨rfl, hdest⟩ := Wire.mk.inj he
  have hleaf : ¬IsLeaf inside B ⟨path, d⟩ := fun hl =>
    (flat_ne_of_isLeaf hflat hl).2 (congrArg Endpoint.owner hdest).symm
  obtain ⟨hp, -⟩ := hpin.resolve_left hleaf
  obtain rfl : path = [] := hp
  obtain rfl : (⟨output, o⟩ : Endpoint) = d := hdest
  cases hg
  exact ⟨_, s', ho, rfl, fun s hon => .enter rfl (insideOf_self hn hB)
    hflat.body_framed.withRole?_output hd (origin_append hn hB hflat ho hon)⟩

omit hW h in
/-- What an input is handed through to has an origin if the driver of the input has one. -/
private theorem origin_of_through {s : Place} {o i : String} {e : Endpoint}
    (ho : (Terminals.ofGraph sub).drivers.get? o = some (.input i)) (hd : W.driver? n i = some e)
    (hs : Origin inside W ⟨[], e⟩ s) : Origin inside W ⟨[], ⟨n, o⟩⟩ s := by
  have hw := (Terminals.drivers_ofGraph_input hflat.framed hflat.wellFormed).1 ho
  obtain ⟨p, s', hp, hs', hon⟩ := exists_origin_output hn hB hflat hw
  rcases source_cases hflat hp with ⟨-, hne⟩ | ⟨i', rfl, hi'⟩
  · exact absurd (congrArg Endpoint.owner hs') hne
  · cases hi'.symm.trans hs'
    exact hon s (.input hd hs)

/-- An output of the composite has an origin if what it comes down to is known. -/
private theorem origin_of_traced {f x : Endpoint} {o : String}
    (ht : (Terminals.ofGraph sub).Traced W n (inner b n) o x) (hx : Known b inside W f x) :
    ∃ s, Origin inside W ⟨[], ⟨n, o⟩⟩ s ∧ s.flat b = f := by
  induction ht with
  | @inside o e ho =>
    obtain ⟨hw, hne⟩ := (Terminals.drivers_ofGraph_inside hflat.framed hflat.wellFormed).1 ho
    have hf := hx.eq (join_notMem_names h (hflat.framed.isCell_source hflat.sound hw hne))
    obtain ⟨p, s', hp, rfl, hon⟩ := exists_origin_output hn hB hflat hw
    rcases source_cases hflat hp with ⟨hs, -⟩ | ⟨i, -, hs⟩
    · exact ⟨_, hon _ (.leaf hs rfl), (flat_append b _ n _).trans hf.symm⟩
    · exact absurd (congrArg Endpoint.owner hs) hne
  | @through o i e ho hd _ =>
    obtain ⟨s, hs, hf⟩ := hx.origin (hW.source_mem (mem_wires_of_driver? hd))
    exact ⟨s, origin_of_through hn hB hflat ho hd hs, hf⟩
  | @around o i o' e ho hd _ ih =>
    obtain ⟨s, hs, hf⟩ := ih hx
    exact ⟨s, origin_of_through hn hB hflat ho hd hs, hf⟩

/-- A source of the old graph has an origin if what it comes down to is known. -/
private theorem origin_of_comesFrom {f e x : Endpoint} (he : e.owner ∈ W.names)
    (hc : (Terminals.ofGraph sub).ComesFrom W n (inner b n) e x) (hx : Known b inside W f x) :
    ∃ s, Origin inside W ⟨[], e⟩ s ∧ s.flat b = f := by
  rcases hc with ⟨-, rfl⟩ | ⟨heq, ht⟩
  · exact hx.origin he
  · have he : e = ⟨n, e.port⟩ := Endpoint.eq_mk_iff.2 ⟨heq, rfl⟩
    exact he ▸ origin_of_traced hW hn hB hflat h ht hx

/-- The driver of a port that stays has an origin if the new driver is known. -/
private theorem exists_origin_old {f x : Endpoint} {k p : String} (hk : k ∈ W.names) (hne : k ≠ n)
    (hd : W'.driver? k p = some x) (hx : Known b inside W f x) :
    ∃ e s, W.driver? k p = some e ∧ Origin inside W ⟨[], e⟩ s ∧ s.flat b = f := by
  obtain ⟨e, hw, hc⟩ := (mem_wires_inline_old hW h hflat.sound hflat.framed hk hne).1
    (mem_wires_of_driver? hd)
  obtain ⟨s, hs, hf⟩ := origin_of_comesFrom hW hn hB hflat h (hW.source_mem hw) hc hx
  exact ⟨e, s, hW.driver?_eq_some_iff.2 hw, hs, hf⟩

/-- A source of the new hierarchy, followed in the old one. -/
private theorem origin_of_inline {p s' : Place} (ho : Origin inside W' p s') :
    (p.path = [] → Known b inside W (s'.flat b) p.port) ∧
      ∀ q k, p.path = q ++ [k] → k ≠ n → ∃ s, Origin inside W p s ∧ s.flat b = s'.flat b := by
  have hgraph {q : List String} {k : String} {g : Graph} (hk : k ≠ n) :
      graphAt inside W' (q ++ [k]) = some g ↔ graphAt inside W (q ++ [k]) = some g := by
    rw [graphAt_inline hW hflat h hk]
  induction ho with
  | @leaf p hp =>
    obtain ⟨g, i, hg, hi, hr, hm⟩ := hp
    obtain ⟨path, e⟩ := p
    refine ⟨?_, ?_⟩
    · rintro rfl
      cases hg
      rcases instance?_inline hW hflat.wellFormed h hi with ⟨-, hi⟩ | ⟨y, j, hown, hj, hrj, -⟩
      · exact Or.inr ⟨⟨[], e⟩, .leaf ⟨W, i, rfl, hi, hr, hm⟩, rfl⟩
      · refine Or.inl ⟨?_, rfl⟩
        rw [hown]
        exact join_notMem_names h (isCell_iff.2 ⟨j, hj, hrj⟩)
    · rintro q k rfl hk
      exact ⟨_, .leaf ⟨g, i, (hgraph hk).1 hg, hi, hr, hm⟩, rfl⟩
  | @input e i hi hr =>
    refine ⟨fun _ => ?_, fun q k hp => ?_⟩
    · rcases instance?_inline hW hflat.wellFormed h hi with ⟨-, hi⟩ | ⟨y, j, -, -, -, rfl⟩
      · exact Or.inr ⟨⟨[], e⟩, .input hi hr, rfl⟩
      · cases hr
    · simp at hp
  | @enter path g B' o e e' s hg hB' hout hd _ ih =>
    refine ⟨?_, ?_⟩
    · rintro rfl
      cases hg
      obtain ⟨hk, hB'⟩ := (insideOf_inline_iff hW hflat h).1 hB'
      obtain ⟨s₁, hs₁, hf⟩ := ih.2 [] e.owner rfl hk
      exact Or.inr ⟨s₁, .enter rfl hB' hout hd hs₁, hf⟩
    · rintro q k rfl hk
      obtain ⟨s₁, hs₁, hf⟩ := ih.2 (e.owner :: q) k rfl hk
      exact ⟨s₁, .enter ((hgraph hk).1 hg) hB' hout hd hs₁, hf⟩
  | @leave path k' g B' i e e' s hg hB' hi hr hd _ ih =>
    refine ⟨fun hp => (nomatch hp), fun q k hp hk => ?_⟩
    cases q with
    | nil =>
      obtain ⟨rfl, rfl⟩ := List.cons.inj hp
      cases hg
      obtain ⟨-, hB'⟩ := (insideOf_inline_iff hW hflat h).1 hB'
      obtain ⟨j, hj, -⟩ := insideOf_eq_some_iff.1 hB'
      obtain ⟨e₁, s₁, hd₁, hs₁, hf⟩ := exists_origin_old hW hn hB hflat h
        (mem_names_of_instance? hj) hk hd (ih.1 rfl)
      exact ⟨s₁, .leave rfl hB' hi hr hd₁ hs₁, hf⟩
    | cons k'' q =>
      obtain ⟨rfl, rfl⟩ := List.cons.inj hp
      obtain ⟨s₁, hs₁, hf⟩ := ih.2 q k rfl hk
      exact ⟨s₁, .leave ((hgraph hk).1 hg) hB' hi hr hd hs₁, hf⟩

omit hW h in
/-- What drives a port of a cell in the flat inside drives a leaf in the old hierarchy. -/
private theorem exists_drives_leaf {f d : Endpoint} (hw : ⟨f, d⟩ ∈ sub.wires)
    (hne : d.owner ≠ output) : ∃ p p' s', IsLeaf inside W p' ∧ p'.flat b = inner b n d ∧
      Origin inside B p s' ∧ s'.flat b = f ∧
      ∀ s, Onward inside W B n input s s' → Drives inside W s p' := by
  have hself : insideOf inside W n = some B := insideOf_self hn hB
  obtain ⟨s', ⟨path, d'⟩, hpin, ⟨g, e, hg, hd, ho⟩, he⟩ := (hflat.connects _).1 hw
  obtain ⟨rfl, rfl⟩ := Wire.mk.inj he
  have hleaf : IsLeaf inside B ⟨path, d'⟩ := by
    refine hpin.resolve_right fun hp => hne ?_
    obtain ⟨hp, i, hi, hr⟩ := hp
    obtain rfl : path = [] := hp
    exact (instance?_eq_some hi).2.symm.trans
      (congrArg Instance.name (hflat.body_framed.eq_output (instance?_eq_some hi).1 hr))
  exact ⟨_, ⟨path ++ [n], d'⟩, s', (IsLeaf.append hself).2 hleaf, flat_append b path n d', ho, rfl,
    fun s hon => ⟨g, e, (graphAt_append hself path).trans hg, hd,
      origin_append hn hB hflat ho hon⟩⟩

/-- What the new hierarchy amounts to, the old one does. -/
theorem connects_of_inline {w : Wire} (hw : Connects inside W' b w) : Connects inside W b w := by
  obtain ⟨s', ⟨path, d⟩, hpin, ⟨g, x, hg, hd, ho⟩, rfl⟩ := hw
  obtain ⟨h₁, h₂⟩ := origin_of_inline hW hn hB hflat h ho
  rcases List.eq_nil_or_concat path with rfl | ⟨q, k, rfl⟩
  · cases hg
    have hknown := h₁ rfl
    obtain ⟨i, hi⟩ : ∃ i, W'.instance? d.owner = some i := by
      rcases hpin with ⟨g, i, hg, hi, -⟩ | ⟨-, i, hi, -⟩
      · cases hg
        exact ⟨i, hi⟩
      · exact ⟨i, hi⟩
    rcases instance?_inline hW hflat.wellFormed h hi with ⟨hne, hi'⟩ | ⟨y, j, hown, hj, hrj, -⟩
    · -- the port is one of an instance that was there before
      obtain ⟨e, s, hd', hs, hf⟩ := exists_origin_old hW hn hB hflat h
        (mem_names_of_instance? hi') hne hd hknown
      refine ⟨s, ⟨[], d⟩, ?_, ⟨W, e, rfl, hd', hs⟩, hf ▸ rfl⟩
      rcases hpin with ⟨g, i', hg, hi₁, hr, hm⟩ | ⟨-, i', hi₁, hr⟩
      · cases hg
        cases hi.symm.trans hi₁
        exact Or.inl ⟨W, i, rfl, hi', hr, hm⟩
      · cases hi.symm.trans hi₁
        exact Or.inr ⟨rfl, i, hi', hr⟩
    · -- the port is one of a new cell
      have hy : isCell sub y = true := isCell_iff.2 ⟨j, hj, hrj⟩
      have hyout : y ≠ output := fun he => hflat.framed.not_isCell_output hflat.wellFormed (he ▸ hy)
      have hdy : d = inner b n ⟨y, d.port⟩ := Endpoint.eq_mk_iff.2 ⟨hown, rfl⟩
      have hw := mem_wires_of_driver? hd
      change (⟨x, d⟩ : Wire) ∈ W'.wires at hw
      rw [hdy] at hw
      rcases (mem_wires_inline_new hW h hflat.wellFormed hflat.sound hflat.framed hy).1 hw with
        ⟨f, hv, hne, hxf⟩ | ⟨i', e, hv, hwe, hc⟩
      · obtain ⟨p, p', s₁, hp', hf', hs₁, hf₁, hon⟩ := exists_drives_leaf hn hB hflat hv hyout
        have hsrc := hflat.framed.isCell_source hflat.sound hv hne
        have hx : s'.flat b = x := hknown.eq (hxf ▸ join_notMem_names h hsrc)
        rcases source_cases hflat hs₁ with ⟨hl, -⟩ | ⟨i', -, hi'⟩
        · refine ⟨_, p', Or.inl hp', hon _ (.leaf hl rfl), ?_⟩
          rw [flat_append, hf', hf₁, ← hdy, ← hxf, ← hx]
          rfl
        · exact absurd (congrArg Endpoint.owner (hf₁.symm.trans hi')) hne
      · obtain ⟨p, p', s₁, hp', hf', hs₁, hf₁, hon⟩ := exists_drives_leaf hn hB hflat hv hyout
        obtain ⟨s, hs, hf⟩ := origin_of_comesFrom hW hn hB hflat h (hW.source_mem hwe) hc hknown
        rcases source_cases hflat hs₁ with ⟨-, hne⟩ | ⟨i₁, rfl, hi₁⟩
        · exact absurd (congrArg Endpoint.owner hf₁) hne
        · cases hi₁.symm.trans hf₁
          refine ⟨s, p', Or.inl hp', hon s (.input (hW.driver?_eq_some_iff.2 hwe) hs), ?_⟩
          rw [hf, hf', ← hdy]
          rfl
  · rw [List.concat_eq_append] at hg hpin ho h₁ h₂ ⊢
    have hleaf : IsLeaf inside W' ⟨q ++ [k], d⟩ := by
      refine hpin.resolve_right fun hp => ?_
      simp at hp
    have hk : k ≠ n := by
      rintro rfl
      -- the composite cell is there no more
      rw [graphAt_concat, Option.bind_eq_some_iff] at hg
      obtain ⟨B', hB', -⟩ := hg
      exact ((insideOf_inline_iff hW hflat h).1 hB').1 rfl
    obtain ⟨s, hs, hf⟩ := h₂ q k rfl hk
    have hg' : graphAt inside W (q ++ [k]) = some g := by rwa [← graphAt_inline hW hflat h hk]
    obtain ⟨g', i, hg₁, hi, hr, hm⟩ := hleaf
    cases hg.symm.trans hg₁
    exact ⟨s, ⟨q ++ [k], d⟩, Or.inl ⟨g, i, hg', hi, hr, hm⟩, ⟨g, x, hg', hd, hs⟩, hf ▸ rfl⟩

end Step

end Netlist.Hierarchy
