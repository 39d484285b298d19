import Netlist.Proofs.Store.Represents

/-!
# Bindings in stores

A store that represents a graph finds the drivers of the graph, and a binding that is added to the
store goes to the edge of the link that it goes to in the graph.

## Main results

* `Netlist.Store.Represents.driverAt_eq`: the drivers of ports.
* `Netlist.Store.Represents.bind`: bindings between two nodes.
* `Netlist.Store.Represents.connect`, `Netlist.Store.Represents.connectUntyped`: checked bindings.
-/

namespace Netlist.Store

open StableDigraph

variable {Γ : Type} [StableDigraph Γ Instance (List Binding)] {s : Store Γ} {g : Graph}
  {source dest name : String} {bs : List Binding}

/-! ### Drivers -/

theorem feed?_eq_none {port : String} {e : Nat} {x : Edge (List Binding)}
    (hx : edge? s.graph e = some x) (h : s.feed? port e = none) :
    ∀ b ∈ x.weight, b.dest ≠ port := by
  intro b hb hd
  obtain ⟨c, hc⟩ := Option.isSome_iff_exists.1
    (List.find?_isSome (p := fun b : Binding => b.dest = port).2 ⟨b, hb, decide_eq_true hd⟩)
  rw [feed?, hx, Option.bind_eq_bind, Option.bind_some, hc] at h
  cases h

theorem exists_of_feed? {port p : String} {e n : Nat} (h : s.feed? port e = some (n, p)) :
    ∃ x, edge? s.graph e = some x ∧ x.source = n ∧ ⟨p, port⟩ ∈ x.weight := by
  obtain ⟨x, hx, h⟩ := Option.bind_eq_some_iff.1 h
  obtain ⟨b, hb, h⟩ := Option.bind_eq_some_iff.1 h
  obtain ⟨rfl, rfl⟩ := Prod.mk.inj (Option.some.inj h)
  have hd : b.dest = port := by simpa using List.find?_some hb
  exact ⟨x, hx, rfl, hd ▸ List.mem_of_find?_eq_some hb⟩

namespace Represents

/-- The wires are those of the edges. -/
theorem mem_wires_iff (h : s.Represents g) {w : Wire} :
    w ∈ g.wires ↔ ∃ e l, s.bundle? e = some l ∧ w ∈ l.wires := by
  rw [Graph.mem_wires]
  constructor
  · rintro ⟨l, hl, hw⟩
    obtain ⟨e, he⟩ := h.bundle_iff.2 ⟨l, hl, rfl⟩
    exact ⟨e, l.toBundle, he, hw⟩
  · rintro ⟨e, l, he, hw⟩
    obtain ⟨k, hk, rfl⟩ := h.bundle_iff.1 ⟨e, he⟩
    exact ⟨k, hk, hw⟩

variable [Lawful Γ]

/-- The driver of a port is found without stale numbers. -/
theorem driverAt_eq (h : s.Represents g) {n : Nat} (hn : s.index.get? name = some n)
    (port : String) : s.driverAt n port = some (g.driver? name port) := by
  unfold driverAt
  cases hfound : (edgesTo s.graph n).findSome? (s.feed? port) with
  | none =>
    refine congrArg some (Eq.symm (Graph.driver?_eq_none_iff.2 fun w hw hd => ?_))
    obtain ⟨e, l, he, hl⟩ := h.mem_wires_iff.1 hw
    obtain ⟨x, i, j, hx, -, hj, rfl⟩ := bundle?_eq_some_iff.1 he
    obtain ⟨-, hdest, hb⟩ := Bundle.mem_wires.1 hl
    rw [hd] at hdest hb
    have hto : e ∈ edgesTo s.graph n :=
      (Lawful.mem_edgesTo s.graph n e).2 ⟨x, hx, (h.eq_iff_name hn hj).2 hdest.symm⟩
    exact feed?_eq_none hx (List.findSome?_eq_none_iff.1 hfound e hto) _ hb rfl
  | some found =>
    obtain ⟨m, p⟩ := found
    obtain ⟨e, he, hfeed⟩ := List.exists_of_findSome?_eq_some hfound
    obtain ⟨x, hx, rfl, hb⟩ := exists_of_feed? hfeed
    obtain ⟨y, hy, hto⟩ := (Lawful.mem_edgesTo s.graph n e).1 he
    obtain rfl := Option.some.inj (hx.symm.trans hy)
    obtain ⟨i, j, hi, hj, hl⟩ := exists_ends hx
    have hw : ⟨⟨i.name, p⟩, ⟨name, port⟩⟩ ∈ g.wires := by
      refine h.mem_wires_iff.2 ⟨e, _, hl, Bundle.mem_wires.2 ⟨rfl, ?_, hb⟩⟩
      exact ((h.eq_iff_name hn hj).1 hto).symm
    simp only [hi, Option.map_some]
    exact congrArg some (h.wellFormed.driver?_eq_some_iff.2 hw).symm

theorem driven_eq (h : s.Represents g) {n : Nat} (hn : s.index.get? name = some n)
    (port : String) : s.driven n port = .ok (g.driver? name port) := by
  rw [driven, h.driverAt_eq hn]

end Represents

/-! ### Bindings between two nodes -/

theorem map_toBundle_links_bind (h : g.Linked source dest) (bs : List Binding) :
    (g.bind source dest bs).links.map Link.toBundle =
      (g.links.map Link.toBundle).map (Bundle.extend source dest bs) := by
  rw [Graph.links_bind_of_linked h, List.map_map, List.map_map]
  rfl

namespace Represents

/-- A change of edges that is a change of links. -/
private theorem of_edges (h : s.Represents g) {graph : Γ} {g' : Graph} (hg : g'.WellFormed)
    (hi : g'.instances = g.instances) (hnode : ∀ n, node? graph n = node? s.graph n)
    (hbundle : ∀ {l}, (∃ e, Store.bundle? { s with graph } e = some l) ↔
      ∃ k ∈ g'.links, k.toBundle = l)
    (hends : ∀ {e f k l}, Store.bundle? { s with graph } e = some k →
      Store.bundle? { s with graph } f = some l →
        k.source = l.source → k.dest = l.dest → e = f) :
    Represents { s with graph } g' where
  wellFormed := hg
  keys := h.keys.trans (congrArg (List.map Instance.name) hi).symm
  at?_of_get? {k n} hn := by
    rw [Graph.instance?, hi]
    exact (hnode n).trans (h.at?_of_get? hn)
  get?_of_at? {n i} hn := h.get?_of_at? ((hnode n).symm.trans hn)
  bundle_iff := hbundle
  eq_of_ends := hends

variable [Lawful Γ]

/-- Two instances are linked if there is an edge between their nodes. -/
theorem linked_iff (h : s.Represents g) {a b : Nat} (ha : s.index.get? source = some a)
    (hb : s.index.get? dest = some b) :
    g.Linked source dest ↔ ∃ e w, edge? s.graph e = some ⟨a, b, w⟩ := by
  constructor
  · rintro ⟨l, hl, hs, hd⟩
    obtain ⟨e, he⟩ := h.bundle_iff.2 ⟨l, hl, rfl⟩
    obtain ⟨⟨_, _, w⟩, i, j, hx, hi, hj, hl⟩ := bundle?_eq_some_iff.1 he
    obtain rfl := (h.eq_iff_name ha hi).2 ((congrArg Bundle.source hl).symm.trans hs)
    obtain rfl := (h.eq_iff_name hb hj).2 ((congrArg Bundle.dest hl).symm.trans hd)
    exact ⟨e, w, hx⟩
  · rintro ⟨e, w, hx⟩
    obtain ⟨i, j, hi, hj, he⟩ := exists_ends hx
    obtain ⟨k, hk, hl⟩ := h.bundle_iff.1 ⟨e, he⟩
    exact ⟨k, hk, (congrArg Bundle.source hl).trans ((h.eq_iff_name ha hi).1 rfl),
      (congrArg Bundle.dest hl).trans ((h.eq_iff_name hb hj).1 rfl)⟩

/-- The edge of a link is found. -/
theorem findEdge?_ne_none (h : s.Represents g) {a b : Nat} (ha : s.index.get? source = some a)
    (hb : s.index.get? dest = some b) (hl : g.Linked source dest) :
    findEdge? s.graph a b ≠ none := by
  obtain ⟨e, w, he⟩ := (h.linked_iff ha hb).1 hl
  exact Option.isSome_iff_ne_none.1 (Lawful.findEdge?_isSome s.graph e ⟨a, b, w⟩ he)

theorem bundle?_modifyEdge (h : s.Represents g) {a b e : Nat} {w : List Binding}
    (ha : s.index.get? source = some a) (hb : s.index.get? dest = some b)
    (he : edge? s.graph e = some ⟨a, b, w⟩) (bs : List Binding) (f : Nat) :
    Store.bundle? { s with graph := modifyEdge s.graph e (· ++ bs) } f =
      (s.bundle? f).map (Bundle.extend source dest bs) := by
  have hat (n : Nat) : Store.at? { s with graph := modifyEdge s.graph e (· ++ bs) } n = s.at? n :=
    Lawful.node?_modifyEdge s.graph e _ n
  have hedge : edge? (modifyEdge s.graph e (· ++ bs)) f = _ :=
    Lawful.edge?_modifyEdge s.graph e (· ++ bs) f
  cases hx : edge? s.graph f with
  | none =>
    rw [hx] at hedge
    rw [bundle?, bundle?, hedge, hx]
    split_ifs <;> rfl
  | some x =>
    obtain ⟨i, j, hi, hj, hl⟩ := exists_ends hx
    rw [hl, Option.map_some, Bundle.extend]
    have hends : f = e ↔ i.name = source ∧ j.name = dest := by
      rw [← h.eq_iff_name ha hi, ← h.eq_iff_name hb hj]
      constructor
      · rintro rfl
        obtain rfl := Option.some.inj (he.symm.trans hx)
        exact ⟨rfl, rfl⟩
      · rintro ⟨rfl, rfl⟩
        obtain ⟨i', j', hi', hj', hl'⟩ := exists_ends he
        refine h.eq_of_ends hl hl' ?_ ?_
        · exact congrArg Instance.name (Option.some.inj (hi.symm.trans hi'))
        · exact congrArg Instance.name (Option.some.inj (hj.symm.trans hj'))
    simp only [hx, hends] at hedge
    split_ifs at hedge ⊢ with hne
    · rw [bundle?_of_edge? hedge, hat, hat, hi, hj]
      rfl
    · rw [bundle?_of_edge? hedge, hat, hat, hi, hj]
      rfl

/-- Adding an edge adds a bundle. -/
theorem exists_bundle?_addEdge (h : s.Represents g) {a b : Nat}
    (ha : s.index.get? source = some a) (hb : s.index.get? dest = some b) (bs : List Binding) :
    ∃ e, s.bundle? e = none ∧ ∀ f,
      Store.bundle? { s with graph := addEdge s.graph a b bs } f =
        if f = e then some ⟨source, dest, bs⟩ else s.bundle? f := by
  obtain ⟨i, hi, -⟩ := h.exists_of_get? ha
  obtain ⟨j, hj, -⟩ := h.exists_of_get? hb
  obtain ⟨e, he, hedge⟩ := Lawful.edge?_addEdge s.graph a b bs
    (Option.isSome_iff_exists.2 ⟨i, hi⟩) (Option.isSome_iff_exists.2 ⟨j, hj⟩)
  have hat (n : Nat) : Store.at? { s with graph := addEdge s.graph a b bs } n = s.at? n :=
    Lawful.node?_addEdge s.graph a b bs n
  refine ⟨e, by rw [bundle?, he]; rfl, fun f => ?_⟩
  have hf := hedge f
  split_ifs at hf ⊢ with hfe
  · rw [bundle?_of_edge? hf, hat, hat, hi, hj, Option.map_some, h.name_of_get? ha hi,
      Option.map_some, h.name_of_get? hb hj]
    rfl
  · exact bundle?_congr hf fun x _ => ⟨congrArg _ (hat _), congrArg _ (hat _)⟩

theorem modifyEdge (h : s.Represents g) {a b e : Nat} {w : List Binding}
    (ha : s.index.get? source = some a) (hb : s.index.get? dest = some b)
    (he : edge? s.graph e = some ⟨a, b, w⟩) (hg : (g.bind source dest bs).WellFormed) :
    Represents { s with graph := modifyEdge s.graph e (· ++ bs) } (g.bind source dest bs) := by
  have hbundle := h.bundle?_modifyEdge ha hb he bs
  refine h.of_edges hg (Graph.instances_bind g source dest bs)
    (Lawful.node?_modifyEdge s.graph e _) (fun {l} => ?_) fun {e f k l} hk hl => ?_
  · have hlinked := (h.linked_iff ha hb).2 ⟨e, w, he⟩
    rw [← List.mem_map, map_toBundle_links_bind hlinked]
    simp only [hbundle, Option.map_eq_some_iff, List.mem_map, @exists_comm Nat,
      exists_and_right, h.bundle_iff]
  · simp only [hbundle, Option.map_eq_some_iff] at hk hl
    obtain ⟨k, hk, rfl⟩ := hk
    obtain ⟨l, hl, rfl⟩ := hl
    simp only [Bundle.source_extend, Bundle.dest_extend]
    exact h.eq_of_ends hk hl

theorem addEdge (h : s.Represents g) {a b : Nat} (ha : s.index.get? source = some a)
    (hb : s.index.get? dest = some b) (hlinked : ¬g.Linked source dest)
    (hg : (g.bind source dest bs).WellFormed) :
    Represents { s with graph := addEdge s.graph a b bs } (g.bind source dest bs) := by
  obtain ⟨e, hnew, hbundle⟩ := h.exists_bundle?_addEdge ha hb bs
  obtain ⟨slot, hlinks⟩ := Graph.links_bind_of_not_linked hlinked bs
  -- the edges that were there have other ends
  have hold {f : Nat} {l : Bundle} (hf : s.bundle? f = some l) :
      ¬(l.source = source ∧ l.dest = dest) := by
    rintro ⟨hs, hd⟩
    obtain ⟨k, hk, rfl⟩ := h.bundle_iff.1 ⟨f, hf⟩
    exact hlinked ⟨k, hk, hs, hd⟩
  refine h.of_edges hg (Graph.instances_bind g source dest bs)
    (Lawful.node?_addEdge s.graph a b bs) (fun {l} => ?_) fun {f f' k l} hk hl hs hd => ?_
  · simp only [hbundle, hlinks]
    constructor
    · rintro ⟨f, hf⟩
      split_ifs at hf
      · exact ⟨_, List.mem_cons_self, Option.some.inj hf⟩
      · obtain ⟨k, hk, hl⟩ := h.bundle_iff.1 ⟨f, hf⟩
        exact ⟨k, List.mem_cons_of_mem _ hk, hl⟩
    · rintro ⟨k, hk, rfl⟩
      rcases List.mem_cons.1 hk with rfl | hk
      · exact ⟨e, if_pos rfl⟩
      · obtain ⟨f, hf⟩ := h.bundle_iff.2 ⟨k, hk, rfl⟩
        have hfe : f ≠ e := by
          rintro rfl
          cases hnew.symm.trans hf
        exact ⟨f, (if_neg hfe).trans hf⟩
  · rw [hbundle] at hk hl
    split_ifs at hk hl with hfe hfe' hfe'
    · exact hfe.trans hfe'.symm
    · obtain rfl := Option.some.inj hk
      exact (hold hl ⟨hs.symm, hd.symm⟩).elim
    · obtain rfl := Option.some.inj hl
      exact (hold hk ⟨hs, hd⟩).elim
    · exact h.eq_of_ends hk hl hs hd

/-- Bindings go to the edge between two nodes, which is found or added. -/
theorem bind (h : s.Represents g) {a b : Nat} (ha : s.index.get? source = some a)
    (hb : s.index.get? dest = some b) (hg : (g.bind source dest bs).WellFormed) :
    Follows Represents (s.bind a b bs) (.ok (g.bind source dest bs)) := by
  unfold Store.bind
  cases hfind : findEdge? s.graph a b with
  | some e =>
    obtain ⟨w, he⟩ := Lawful.edge?_of_findEdge? s.graph a b e hfind
    exact .ok (h.modifyEdge ha hb he hg)
  | none =>
    obtain ⟨i, hi, -⟩ := h.exists_of_get? ha
    obtain ⟨j, hj, -⟩ := h.exists_of_get? hb
    have hlinked : ¬g.Linked source dest := fun hl => h.findEdge?_ne_none ha hb hl hfind
    simp only [get_eq_ok hi, get_eq_ok hj]
    exact .ok (h.addEdge ha hb hlinked hg)

/-! ### Checked bindings -/

theorem checkBindings (h : s.Represents g) (c : Catalog) {a b : Nat} {i j : Instance}
    (hb : s.index.get? dest = some b) (hi : s.at? a = some i) (hj : s.at? b = some j)
    (seen : List Binding) : Follows Eq (s.checkBindings c a b seen bs)
      (g.checkBindings c i j seen bs) := by
  induction bs generalizing seen with
  | nil => exact .ok rfl
  | cons x bs ih =>
    rw [Store.checkBindings, get_eq_ok hi, get_eq_ok hj, h.driven_eq hb, Graph.checkBindings]
    simp only [ok_bind, h.name_of_get? hb hj]
    refine (Follows.mapError _).bind fun _ _ _ _ => ?_
    cases g.driver? dest x.dest with
    | some driver => exact .error _
    | none =>
      dsimp only
      cases seen.find? fun y => y.dest = x.dest with
      | some y => exact .error _
      | none => exact ih _

theorem connect (h : s.Represents g) (c : Catalog) (source dest : String) (bs : List Binding) :
    Follows Represents (s.connect c source dest bs) (g.connect c source dest bs) := by
  refine (h.follows_find source).bind fun a i ⟨ha, hi, hgi⟩ hfi =>
    (h.follows_find dest).bind fun b j ⟨hb, hj, hgj⟩ hfj =>
      (h.checkBindings c hb hi hj []).bind fun _ _ _ hcheck => h.bind ha hb ?_
  exact Graph.connect_wellFormed (c := c) h.wellFormed
    (bind_eq_ok_iff.2 ⟨i, hfi, bind_eq_ok_iff.2 ⟨j, hfj, bind_eq_ok_iff.2 ⟨_, hcheck, rfl⟩⟩⟩)

theorem checkUndriven (h : s.Represents g) {b : Nat} (hb : s.index.get? dest = some b)
    (seen : List String) : Follows Eq (s.checkUndriven source dest b seen bs)
      (g.checkUndriven source dest seen bs) := by
  induction bs generalizing seen with
  | nil => exact .ok rfl
  | cons x bs ih =>
    rw [Store.checkUndriven, h.driven_eq hb, ok_bind, Graph.checkUndriven]
    cases g.driver? dest x.dest with
    | some driver => exact .error _
    | none =>
      dsimp only
      split_ifs
      · exact .error _
      · exact ih _

theorem connectUntyped (h : s.Represents g) (source dest : String) (bs : List Binding) :
    Follows Represents (s.connectUntyped source dest bs) (g.connectUntyped source dest bs) := by
  refine (h.follows_find source).bind fun a i ⟨ha, _, _⟩ hfi =>
    (h.follows_find dest).bind fun b j ⟨hb, _, _⟩ hfj =>
      (h.checkUndriven hb []).bind fun _ _ _ hcheck => h.bind ha hb ?_
  exact Graph.connectUntyped_wellFormed h.wellFormed
    (bind_eq_ok_iff.2 ⟨i, hfi, bind_eq_ok_iff.2 ⟨j, hfj, bind_eq_ok_iff.2 ⟨_, hcheck, rfl⟩⟩⟩)

end Represents

end Netlist.Store
