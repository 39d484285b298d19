import Netlist.Proofs.Flatten.Inline

/-!
# When inlining succeeds

A cell of a composite can be inlined into a sound graph if the names that inlining creates are not
taken. Wires across the boundary are made of wires on both sides of it, and each side sees the same
type on a port of the composite, so the types at the ends of the new wires are alike.

## Main definitions

* `Netlist.Graph.Offers`: a port of a graph can be used in a direction and has a type.

## Main results

* `Netlist.Terminals.Traced.offers`: what drives an output in the end has a type like the output's.
* `Netlist.Graph.exists_inline`: inlining succeeds.
-/

namespace Netlist

/-- Likeness of types is transitive. -/
theorem TypeTable.Alike.trans {t : TypeTable} {x y z : PortType} (hxy : t.Alike x y)
    (hyz : t.Alike y z) : t.Alike x z :=
  ⟨hxy.1, hxy.2.trans hyz.2⟩

namespace Graph

variable {c : Catalog} {g sub : Graph}

/-- A port of a graph can be used in a direction and has a type. -/
def Offers (c : Catalog) (g : Graph) (e : Endpoint) (used : Direction) (type : PortType) : Prop :=
  ∃ i, g.instance? e.owner = some i ∧ portType c i e.port used = .ok type

theorem Offers.unique {e : Endpoint} {used : Direction} {s t : PortType}
    (h : g.Offers c e used s) (h' : g.Offers c e used t) : s = t := by
  obtain ⟨i, hi, hs⟩ := h
  obtain ⟨j, hj, ht⟩ := h'
  cases hi.symm.trans hj
  exact Except.ok.inj (hs.symm.trans ht)

/-- The type of a port depends on the module and the role of its instance. -/
theorem portType_congr {i j : Instance} {port : String} {used used' : Direction} {type : PortType}
    (h : portType c i port used = .ok type) (hm : j.module = i.module)
    (hr : j.role.declared? used' = i.role.declared? used) :
    portType c j port used' = .ok type := by
  obtain ⟨m, d, hmod, hd, ht⟩ := portType_eq_ok_iff.1 h
  exact portType_eq_ok_iff.2 ⟨m, d, hm ▸ hmod, hr ▸ hd, ht⟩

/-- The ends of a wire of a sound graph offer like types. -/
theorem Sound.offers (hs : g.Sound c) {w : Wire} (hw : w ∈ g.wires) :
    ∃ s t, g.Offers c w.source .output s ∧ g.Offers c w.dest .input t ∧ c.types.Alike s t := by
  obtain ⟨i, j, hi, hj, s, t, hs, ht, hst⟩ := hs.fits w hw
  exact ⟨s, t, ⟨i, hi, hs⟩, ⟨j, hj, ht⟩, hst⟩

theorem Offers.mem_names {e : Endpoint} {used : Direction} {t : PortType}
    (h : g.Offers c e used t) : e.owner ∈ g.names := by
  obtain ⟨i, hi, -⟩ := h
  exact Graph.mem_names_of_instance? hi

theorem Sound.source_role (hs : g.Sound c) {w : Wire} (hw : w ∈ g.wires) :
    ∃ i, g.instance? w.source.owner = some i ∧ i.role ≠ .outputBoundary := by
  obtain ⟨i, _, hi, _, hfit⟩ := hs.fits w hw
  exact ⟨i, hi, hfit.source_role⟩

theorem Sound.dest_role (hs : g.Sound c) {w : Wire} (hw : w ∈ g.wires) :
    ∃ i, g.instance? w.dest.owner = some i ∧ i.role ≠ .inputBoundary := by
  obtain ⟨_, j, _, hj, hfit⟩ := hs.fits w hw
  exact ⟨j, hj, hfit.dest_role⟩

section Framed

variable {module input output : String}

/-- In a sound composite, a source that is not at the boundary belongs to a cell. -/
theorem Framed.isCell_source (hf : sub.Framed module input output) (hs : sub.Sound c) {w : Wire}
    (hw : w ∈ sub.wires) (hn : w.source.owner ≠ input) :
    Inline.isCell sub w.source.owner = true := by
  obtain ⟨i, hi, hr⟩ := hs.source_role hw
  obtain ⟨hmem, hname⟩ := instance?_eq_some hi
  refine Inline.isCell_iff.2 ⟨i, hi, ?_⟩
  cases hrole : i.role with
  | cell => rfl
  | inputBoundary => exact absurd (hname.symm.trans (congrArg _ (hf.eq_input hmem hrole))) hn
  | outputBoundary => exact absurd hrole hr

/-- In a sound composite, an end that is not at the boundary belongs to a cell. -/
theorem Framed.isCell_dest (hf : sub.Framed module input output) (hs : sub.Sound c) {w : Wire}
    (hw : w ∈ sub.wires) (hn : w.dest.owner ≠ output) :
    Inline.isCell sub w.dest.owner = true := by
  obtain ⟨i, hi, hr⟩ := hs.dest_role hw
  obtain ⟨hmem, hname⟩ := instance?_eq_some hi
  refine Inline.isCell_iff.2 ⟨i, hi, ?_⟩
  cases hrole : i.role with
  | cell => rfl
  | inputBoundary => exact absurd hrole hr
  | outputBoundary => exact absurd (hname.symm.trans (congrArg _ (hf.eq_output hmem hrole))) hn

theorem Framed.not_isCell_input (hf : sub.Framed module input output) (hsub : sub.WellFormed) :
    ¬Inline.isCell sub input = true := by
  rw [Inline.isCell_iff, hf.instance?_input hsub]
  rintro ⟨i, hi, hr⟩
  cases hi
  cases hr

theorem Framed.not_isCell_output (hf : sub.Framed module input output) (hsub : sub.WellFormed) :
    ¬Inline.isCell sub output = true := by
  rw [Inline.isCell_iff, hf.instance?_output hsub]
  rintro ⟨i, hi, hr⟩
  cases hi
  cases hr

end Framed

end Graph

namespace Inline

variable {c : Catalog} {b : Boundary} {g sub : Graph} {name module input output : String}

theorem mem_cells_of_isCell {n : String} (h : isCell sub n = true) :
    ∃ i ∈ cells sub, i.name = n := by
  obtain ⟨i, hi, hr⟩ := isCell_iff.1 h
  obtain ⟨hmem, hname⟩ := Graph.instance?_eq_some hi
  exact ⟨i, mem_cells.2 ⟨hmem, hr⟩, hname⟩

theorem inner_inj {e f : Endpoint} : inner b name e = inner b name f ↔ e = f := by
  obtain ⟨o, p⟩ := e
  obtain ⟨o', p'⟩ := f
  simp only [inner, Endpoint.mk.injEq, Boundary.join_inj]

/-! ### Types -/

section Types

variable (hi : ⟨name, module, .cell⟩ ∈ g.instances) (hg : g.WellFormed)
  (hsub : sub.WellFormed) (hf : sub.Framed module input output)
include hi hg hsub hf

/-- An input has the same type inside and outside. -/
theorem offers_input {p : String} {t : PortType} :
    sub.Offers c ⟨input, p⟩ .output t ↔ g.Offers c ⟨name, p⟩ .input t := by
  have hin := hf.instance?_input hsub
  have hcell := hg.instance?_of_mem hi
  constructor
  · rintro ⟨i, hi, ht⟩
    cases hin.symm.trans hi
    exact ⟨_, hcell, Graph.portType_congr ht rfl rfl⟩
  · rintro ⟨i, hi, ht⟩
    cases hcell.symm.trans hi
    exact ⟨_, hin, Graph.portType_congr ht rfl rfl⟩

/-- An output has the same type inside and outside. -/
theorem offers_output {p : String} {t : PortType} :
    sub.Offers c ⟨output, p⟩ .input t ↔ g.Offers c ⟨name, p⟩ .output t := by
  have hout := hf.instance?_output hsub
  have hcell := hg.instance?_of_mem hi
  constructor
  · rintro ⟨i, hi, ht⟩
    cases hout.symm.trans hi
    exact ⟨_, hcell, Graph.portType_congr ht rfl rfl⟩
  · rintro ⟨i, hi, ht⟩
    cases hcell.symm.trans hi
    exact ⟨_, hout, Graph.portType_congr ht rfl rfl⟩

end Types

theorem offers_opened_of_ne {e : Endpoint} {used : Direction} {t : PortType}
    (h : g.Offers c e used t) (hn : e.owner ≠ name) : (opened b g name sub).Offers c e used t := by
  obtain ⟨i, hi, ht⟩ := h
  exact ⟨i, instance?_opened_of_ne hi hn, ht⟩

/-- A cell inside keeps its ports when it gets its outer name. -/
theorem offers_opened_inner (hopen : (opened b g name sub).WellFormed) {e : Endpoint}
    {used : Direction} {t : PortType} (h : sub.Offers c e used t)
    (hc : isCell sub e.owner = true) : (opened b g name sub).Offers c (inner b name e) used t := by
  obtain ⟨i, hi, ht⟩ := h
  obtain ⟨j, hj, hr⟩ := isCell_iff.1 hc
  cases hi.symm.trans hj
  obtain ⟨hmem, hname⟩ := Graph.instance?_eq_some hi
  have hnew : ⟨b.join name i.name, i.module, .cell⟩ ∈ (opened b g name sub).instances :=
    List.mem_append_right _ (mem_innerCells.2 ⟨i, hmem, hr, rfl⟩)
  refine ⟨⟨b.join name i.name, i.module, .cell⟩, ?_, Graph.portType_congr ht rfl ?_⟩
  · rw [inner, ← hname]
    exact hopen.instance?_of_mem hnew
  · rw [hr]

end Inline

open Inline

section Success

variable {c : Catalog} {b : Boundary} {g sub : Graph} {name module input output : String}
  (hg : g.WellFormed) (hs : g.Sound c) (hi : ⟨name, module, .cell⟩ ∈ g.instances)
  (hsub : sub.WellFormed) (hsubs : sub.Sound c) (hf : sub.Framed module input output)
  (hfresh : ∀ i ∈ cells sub, b.join name i.name ∉ g.names)

include hg hfresh hsub in
private theorem opened_wellFormed_of_fresh : (opened b g name sub).WellFormed :=
  opened_wellFormed hg hfresh (hsub.nodup_names.sublist (List.filter_sublist.map _))

include hg hs hi hsub hsubs hf hfresh

/-- What drives an output in the end has a type like the output's. -/
theorem Terminals.Traced.offers {o : String} {e : Endpoint}
    (h : (Terminals.ofGraph sub).Traced g name (inner b name) o e) {t : PortType}
    (ht : g.Offers c ⟨name, o⟩ .output t) :
    ∃ s, (opened b g name sub).Offers c e .output s ∧ c.types.Alike s t := by
  have hopen := opened_wellFormed_of_fresh hg hsub hfresh
  induction h generalizing t with
  | @inside o e ho =>
    obtain ⟨hw, hne⟩ := (drivers_ofGraph_inside hf hsub).1 ho
    obtain ⟨s, t', hsrc, hdest, hst⟩ := hsubs.offers hw
    cases ((offers_output hi hg hsub hf).1 hdest).unique ht
    exact ⟨s, offers_opened_inner hopen hsrc (hf.isCell_source hsubs hw hne), hst⟩
  | @through o i e ho hdrv hne =>
    obtain ⟨u, t', hin, hdest, hut⟩ := hsubs.offers ((drivers_ofGraph_input hf hsub).1 ho)
    obtain ⟨s, u', hsrc, hin', hsu⟩ := hs.offers (Graph.mem_wires_of_driver? hdrv)
    cases ((offers_output hi hg hsub hf).1 hdest).unique ht
    cases ((offers_input hi hg hsub hf).1 hin).unique hin'
    exact ⟨s, offers_opened_of_ne hsrc hne, hsu.trans hut⟩
  | @around o i o' e ho hdrv _ ih =>
    obtain ⟨u, t', hin, hdest, hut⟩ := hsubs.offers ((drivers_ofGraph_input hf hsub).1 ho)
    obtain ⟨s, u', hsrc, hin', hsu⟩ := hs.offers (Graph.mem_wires_of_driver? hdrv)
    cases ((offers_output hi hg hsub hf).1 hdest).unique ht
    cases ((offers_input hi hg hsub hf).1 hin).unique hin'
    obtain ⟨r, hr, hrs⟩ := ih hsrc
    exact ⟨r, hr, hrs.trans (hsu.trans hut)⟩

/-- The ends of the wires across the boundary offer like types. -/
private theorem offers_of_mem_outerWires {x : Wire} (hx : x ∈ outerWires b g name sub) :
    ∃ s t, (opened b g name sub).Offers c x.source .output s ∧
      (opened b g name sub).Offers c x.dest .input t ∧ c.types.Alike s t := by
  have hopen := opened_wellFormed_of_fresh hg hsub hfresh
  obtain ⟨w, hw, -, hsource, hdest⟩ := mem_outerWires.1 hx
  obtain ⟨s, t, hws, hwt, hst⟩ := hs.offers hw
  have hsrc : ∃ s', (opened b g name sub).Offers c x.source .output s' ∧ c.types.Alike s' s := by
    rcases hsource with ⟨hne, he⟩ | ⟨heq, htr⟩
    · exact ⟨s, he ▸ offers_opened_of_ne hws hne, hst.1, rfl⟩
    · have hsrc : w.source = ⟨name, w.source.port⟩ := Endpoint.eq_mk_iff.2 ⟨heq, rfl⟩
      exact htr.offers hg hs hi hsub hsubs hf hfresh (hsrc ▸ hws)
  have hdst : ∃ t', (opened b g name sub).Offers c x.dest .input t' ∧ c.types.Alike s t' := by
    rcases hdest with ⟨heq, e, he, hxe⟩ | ⟨hne, he⟩
    · have hdst : w.dest = ⟨name, w.dest.port⟩ := Endpoint.eq_mk_iff.2 ⟨heq, rfl⟩
      obtain ⟨hv, hne⟩ := (Terminals.mem_sinksOf_ofGraph hf).1 he
      obtain ⟨u, t', hin, hsink, hut⟩ := hsubs.offers hv
      rw [hdst] at hwt
      cases ((offers_input hi hg hsub hf).1 hin).unique hwt
      rw [hxe]
      exact ⟨t', offers_opened_inner hopen hsink (hf.isCell_dest hsubs hv hne), hst.trans hut⟩
    · exact ⟨t, he ▸ offers_opened_of_ne hwt hne, hst⟩
  obtain ⟨s', hs', hss⟩ := hsrc
  obtain ⟨t', ht', hst'⟩ := hdst
  exact ⟨s', t', hs', ht', hss.trans hst'⟩

omit hi hs hg hsub in
/-- The ports inside that inputs drive belong to instances with new names. -/
private theorem fresh_of_mem_sinksOf {p : String} {e : Endpoint}
    (he : e ∈ (Terminals.ofGraph sub).sinksOf p) : b.join name e.owner ∉ g.names := by
  obtain ⟨hv, hne⟩ := (Terminals.mem_sinksOf_ofGraph hf).1 he
  obtain ⟨i, hi, hn⟩ := mem_cells_of_isCell (hf.isCell_dest hsubs hv hne)
  exact hn ▸ hfresh i hi

omit hi hs in
/-- No two wires across the boundary end at the same port. -/
private theorem nodup_dests_outerWires : ((outerWires b g name sub).map Wire.dest).Nodup := by
  have hdests (w x : Wire) (hx : x ∈ reroute b g name (.ofGraph sub) w) :=
    (mem_reroute.1 hx).2
  rw [outerWires, List.map_flatMap, List.nodup_flatMap]
  constructor
  · intro w _
    unfold reroute
    dsimp only
    split
    · exact List.nodup_nil
    · rw [List.map_map]
      split_ifs
      · rw [List.map_map]
        exact (Terminals.nodup_sinksOf_ofGraph hf hsub _).map fun _ _ => inner_inj.1
      · exact List.nodup_singleton _
  · refine (List.pairwise_map.1 (nodup_dests_touching hg)).imp_of_mem ?_
    intro w v hw hv hne d hd hd'
    obtain ⟨x, hx, rfl⟩ := List.mem_map.1 hd
    obtain ⟨y, hy, hxy⟩ := List.mem_map.1 hd'
    have hwg := (mem_touching.1 hw).1
    have hvg := (mem_touching.1 hv).1
    -- both end at a kept port, both at ports inside, or one at a kept and one at a new port
    rcases hdests w x hx with ⟨hwn, e, he, hxe⟩ | ⟨-, hxe⟩ <;>
      rcases hdests v y hy with ⟨hvn, f, hf', hyf⟩ | ⟨-, hyf⟩ <;> rw [hxe, hyf] at hxy
    · cases inner_inj.1 hxy
      refine hne (Endpoint.eq_mk_iff.2 ⟨hwn.trans hvn.symm, ?_⟩)
      exact Terminals.eq_of_mem_sinksOf hf hsub he hf'
    · refine fresh_of_mem_sinksOf hsubs hf hfresh he ?_
      have hown : v.dest.owner = b.join name e.owner := congrArg Endpoint.owner hxy
      exact hown ▸ hg.dest_mem hvg
    · refine fresh_of_mem_sinksOf hsubs hf hfresh hf' ?_
      have hown : w.dest.owner = b.join name f.owner := congrArg Endpoint.owner hxy.symm
      exact hown ▸ hg.dest_mem hwg
    · exact hne hxy.symm

omit hi hs hsubs hf in
/-- No two wires between new cells end at the same port, nor does one of them and one of the wires
that stay. -/
private theorem nodup_dests_innerWires :
    (((opened b g name sub).wires ++ innerWires b name sub).map Wire.dest).Nodup := by
  rw [List.map_append]
  refine (hg.without name).nodup_dests.append ?_ ?_
  · rw [innerWires, List.map_map]
    have h : (sub.wires.filter fun w => isCell sub w.source.owner && isCell sub w.dest.owner).map
        (Wire.dest ∘ innerWire b name) = ((sub.wires.filter fun w =>
          isCell sub w.source.owner && isCell sub w.dest.owner).map Wire.dest).map
            (inner b name) := by
      rw [List.map_map]
      rfl
    rw [h]
    exact (hsub.nodup_dests.sublist (List.filter_sublist.map _)).map fun _ _ => inner_inj.1
  · intro d hd hd'
    obtain ⟨w, hw, rfl⟩ := List.mem_map.1 hd
    obtain ⟨x, hx, hwx⟩ := List.mem_map.1 hd'
    obtain ⟨v, -, -, hc, rfl⟩ := mem_innerWires.1 hx
    obtain ⟨i, hi, hn⟩ := mem_cells_of_isCell hc
    have hown : w.dest.owner = b.join name i.name := hn ▸ congrArg Endpoint.owner hwx.symm
    exact hfresh i hi (hown ▸ hg.dest_mem (Graph.mem_wires_without.1 hw).1)

omit hi hs in
/-- A wire across the boundary ends at no port where another wire ends. -/
private theorem disjoint_dests_outerWires :
    (((opened b g name sub).wires ++ innerWires b name sub).map Wire.dest).Disjoint
      ((outerWires b g name sub).map Wire.dest) := by
  intro d hd hd'
  obtain ⟨w, hw, rfl⟩ := List.mem_map.1 hd
  obtain ⟨x, hx, hwx⟩ := List.mem_map.1 hd'
  obtain ⟨v, hv, htouch, -, hdest⟩ := mem_outerWires.1 hx
  rcases List.mem_append.1 hw with hw | hw
  · -- a wire that stays
    obtain ⟨hw, hws, hwd⟩ := Graph.mem_wires_without.1 hw
    rcases hdest with ⟨-, e, he, hxe⟩ | ⟨-, hxv⟩
    · refine fresh_of_mem_sinksOf hsubs hf hfresh he ?_
      have hown : w.dest.owner = b.join name e.owner :=
        congrArg Endpoint.owner (hwx.symm.trans hxe)
      exact hown ▸ hg.dest_mem hw
    · cases hg.eq_of_dest_eq hw hv (hwx.symm.trans hxv)
      exact htouch.elim hws hwd
  · -- a wire between new cells
    obtain ⟨u, hu, hcs, hc, rfl⟩ := mem_innerWires.1 hw
    rcases hdest with ⟨-, e, he, hxe⟩ | ⟨-, hxv⟩
    · have hue : u.dest = e := inner_inj.1 (hwx.symm.trans hxe)
      have hsink := (Terminals.mem_sinksOf_ofGraph hf).1 he
      cases hsub.eq_of_dest_eq hu hsink.1 hue
      exact hf.not_isCell_input hsub hcs
    · obtain ⟨i, hi, hn⟩ := mem_cells_of_isCell hc
      refine hfresh i hi ?_
      have hown : v.dest.owner = b.join name i.name :=
        hn ▸ congrArg Endpoint.owner (hxv.symm.trans hwx)
      exact hown ▸ hg.dest_mem hv

omit hi hs hsub hsubs hf hfresh in
/-- Bundles of wires between ports of like types can be added if no two wires end at the same
port. -/
private theorem exists_connectAll_of_offers {ls : List Bundle}
    (hends : ∀ l ∈ ls, l.source ∈ g.names ∧ l.dest ∈ g.names)
    (hoffers : ∀ w ∈ ls.flatMap Bundle.wires, ∃ s t, g.Offers c w.source .output s ∧
      g.Offers c w.dest .input t ∧ c.types.Alike s t)
    (hnodup : ((g.wires ++ ls.flatMap Bundle.wires).map Wire.dest).Nodup) :
    ∃ g', connectAll c g ls = .ok g' := by
  refine exists_connectAll hg (fun l hl => Graph.exists_fits_iff.2 ?_) hnodup
  refine ⟨(hends l hl).1, (hends l hl).2, fun w hw => ?_⟩
  obtain ⟨s, t, ⟨i, hi, hs⟩, ⟨j, hj, ht⟩, hst⟩ := hoffers w (List.mem_flatMap.2 ⟨l, hl, hw⟩)
  exact ⟨i, j, hi, hj, s, t, hs, ht, hst⟩

/-- A cell of a composite can be inlined into a sound graph if the names that this creates are not
taken. -/
theorem Graph.exists_inline : ∃ g', g.inline c b name sub = .ok g' := by
  have hopen := opened_wellFormed_of_fresh hg hsub hfresh
  have hnew {n : String} (hn : isCell sub n = true) :
      b.join name n ∈ (opened b g name sub).names := by
    obtain ⟨i, hi, rfl⟩ := mem_cells_of_isCell hn
    rw [names_opened]
    exact List.mem_append_right _ (List.mem_map.2 ⟨i, hi, rfl⟩)
  obtain ⟨g₁, h₁⟩ :
      ∃ g₁, connectAll c (opened b g name sub) (innerBundles b name sub) = .ok g₁ := by
    refine exists_connectAll_of_offers hopen (fun l hl => ?_) (fun x hx => ?_) ?_
    · obtain ⟨s, d, -, hs, hd, hls, hld⟩ := linked_innerBundles.1 ⟨l, hl, rfl, rfl⟩
      exact ⟨hls ▸ hnew hs, hld ▸ hnew hd⟩
    · rw [innerBundles_wires] at hx
      obtain ⟨v, hv, hcs, hcd, rfl⟩ := mem_innerWires.1 hx
      obtain ⟨s, t, hs, ht, hst⟩ := hsubs.offers hv
      exact ⟨s, t, offers_opened_inner hopen hs hcs, offers_opened_inner hopen ht hcd, hst⟩
    · rw [innerBundles_wires]
      exact nodup_dests_innerWires hg hsub hfresh
  have hg₁ := connectAll_wellFormed hopen h₁
  -- the new cells and wires leave what a port offers
  have hoffers {e : Endpoint} {used : Direction} {t : PortType}
      (h : (opened b g name sub).Offers c e used t) : g₁.Offers c e used t := by
    unfold Graph.Offers Graph.instance? at h ⊢
    rwa [instances_connectAll h₁]
  have houter {x : Wire} (hx : x ∈ outerWires b g name sub) :=
    offers_of_mem_outerWires hg hs hi hsub hsubs hf hfresh hx
  obtain ⟨g', h⟩ : ∃ g', connectAll c g₁ (rewired b g name (.ofGraph sub)) = .ok g' := by
    refine exists_connectAll_of_offers hg₁ (fun l hl => ?_) (fun x hx => ?_) ?_
    · obtain ⟨x, hx, hls, hld⟩ := exists_mem_bundle_iff.1 ⟨l, hl, rfl, rfl⟩
      obtain ⟨s, t, hs, ht, -⟩ := houter hx
      exact ⟨hls ▸ (hoffers hs).mem_names, hld ▸ (hoffers ht).mem_names⟩
    · obtain ⟨s, t, hs, ht, hst⟩ := houter ((bundle_wires_perm _).mem_iff.1 hx)
      exact ⟨s, t, hoffers hs, hoffers ht, hst⟩
    · have hperm := (connectAll_wires_perm hopen h₁).append
        (bundle_wires_perm (outerWires b g name sub))
      rw [innerBundles_wires] at hperm
      refine ((hperm.map Wire.dest).nodup_iff).2 ?_
      rw [List.map_append]
      exact (nodup_dests_innerWires hg hsub hfresh).append
        (nodup_dests_outerWires hg hsub hsubs hf hfresh)
        (disjoint_dests_outerWires hg hsub hsubs hf hfresh)
  exact ⟨g', Graph.inline_eq_ok_iff.2 ⟨Graph.mem_names.2 ⟨_, hi, rfl⟩, hfresh,
    hsub.nodup_names.sublist (List.filter_sublist.map _),
    fun i hi => hsubs.registered i (mem_cells.1 hi).1, g₁, h₁, h⟩⟩

end Success

end Netlist
