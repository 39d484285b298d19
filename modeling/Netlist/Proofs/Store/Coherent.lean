import Mathlib
import Netlist.Proofs.Store.Runs
import Netlist.Proofs.Store.SlotGraph
import Netlist.Sample

/-!
# Coherent stores

A store is asked for its connections as a whole and in several other ways. After any calls it gives
the same answers to all of them, and no answer meets a stale number: its index and its nodes match,
there is one connection at most from one instance to another, and no input port has two drivers.

## Main definitions

* `Netlist.Store.Coherent`: the index, the nodes, the connections and the answers of a store fit
  together.

## Main results

* `Netlist.Store.Represents.coherent`: a store that represents a graph is coherent.
* `Netlist.Store.exists_coherent_after`: stores are coherent after any calls.
-/

namespace Netlist.Store

open StableDigraph

variable {Γ : Type} [StableDigraph Γ Instance (List Binding)] [Lawful Γ] {s : Store Γ} {g : Graph}

/-! ### Questions -/

/-- The bundles of all edges, in the order of their numbers. -/
def bundles (s : Store Γ) : List Bundle :=
  (edges s.graph).filterMap s.bundle?

omit [Lawful Γ] in
theorem mapM_bundle?_eq_some {es : List Nat} (h : ∀ e ∈ es, (s.bundle? e).isSome) :
    es.mapM s.bundle? = some (es.filterMap s.bundle?) := by
  induction es with
  | nil => rfl
  | cons e es ih =>
    obtain ⟨he, hes⟩ := List.forall_mem_cons.1 h
    obtain ⟨l, hl⟩ := Option.isSome_iff_exists.1 he
    rw [List.mapM_cons, hl, ih hes, List.filterMap_cons_some hl]
    rfl

theorem mem_edges_iff {e : Nat} : e ∈ edges s.graph ↔ (s.bundle? e).isSome := by
  rw [Lawful.mem_edges, Option.isSome_iff_exists, Option.isSome_iff_exists]
  constructor
  · rintro ⟨x, hx⟩
    obtain ⟨i, j, -, -, hl⟩ := exists_ends hx
    exact ⟨_, hl⟩
  · rintro ⟨l, hl⟩
    obtain ⟨x, i, j, hx, -⟩ := bundle?_eq_some_iff.1 hl
    exact ⟨x, hx⟩

theorem connections_eq (s : Store Γ) : s.connections = some s.bundles :=
  mapM_bundle?_eq_some fun _ he => mem_edges_iff.1 he

theorem mem_bundles_iff {l : Bundle} : l ∈ s.bundles ↔ ∃ e, s.bundle? e = some l := by
  refine List.mem_filterMap.trans ⟨fun ⟨e, _, h⟩ => ⟨e, h⟩, fun ⟨e, h⟩ => ⟨e, ?_, h⟩⟩
  exact mem_edges_iff.2 (Option.isSome_of_eq_some h)

/-- Sorting the numbers of edges leaves them in the order of all edges. -/
theorem mergeSort_eq_filter {es : List Nat} (hnodup : es.Nodup)
    (hes : ∀ e ∈ es, (s.bundle? e).isSome) :
    (es.mergeSort fun d e => decide (d ≤ e)) = (edges s.graph).filter (· ∈ es) := by
  have hedges : (edges s.graph).Pairwise (· < ·) := Lawful.pairwise_edges s.graph
  have hsorted : (es.mergeSort fun d e => decide (d ≤ e)).Pairwise
      fun d e => decide (d ≤ e) = true :=
    List.pairwise_mergeSort (fun _ _ _ => by simpa using Nat.le_trans)
      (fun d e => by simpa using Nat.le_total d e) es
  have hperm : es.Perm ((edges s.graph).filter (· ∈ es)) := by
    refine (List.perm_ext_iff_of_nodup hnodup ((hedges.imp Nat.ne_of_lt).filter _)).2 fun e => ?_
    rw [List.mem_filter, decide_eq_true_eq]
    exact ⟨fun he => ⟨mem_edges_iff.2 (hes e he), he⟩, And.right⟩
  exact List.Perm.eq_of_pairwise (fun _ _ _ _ => Nat.le_antisymm)
    (hsorted.imp of_decide_eq_true) ((hedges.imp Nat.le_of_lt).filter _)
    ((List.mergeSort_perm es _).trans hperm)

/-- The connections under the numbers of certain edges, in the order of all connections. -/
theorem incident_eq {es : List Nat} {q : Edge (List Binding) → Prop} {p : Bundle → Bool}
    (hnodup : es.Nodup) (hmem : ∀ e, e ∈ es ↔ ∃ x, edge? s.graph e = some x ∧ q x)
    (hpq : ∀ e x l, edge? s.graph e = some x → s.bundle? e = some l → (q x ↔ p l = true)) :
    s.incident es = some (s.bundles.filter p) := by
  have hbundle (e : Nat) : e ∈ es ↔ ∃ l, s.bundle? e = some l ∧ p l = true := by
    rw [hmem]
    constructor
    · rintro ⟨x, hx, hq⟩
      obtain ⟨i, j, -, -, hl⟩ := exists_ends hx
      exact ⟨_, hl, (hpq e x _ hx hl).1 hq⟩
    · rintro ⟨l, hl, hp⟩
      obtain ⟨x, i, j, hx, -⟩ := bundle?_eq_some_iff.1 hl
      exact ⟨x, hx, (hpq e x l hx hl).2 hp⟩
  have hes : ∀ e ∈ es, (s.bundle? e).isSome := fun e he => by
    obtain ⟨l, hl, -⟩ := (hbundle e).1 he
    exact Option.isSome_of_eq_some hl
  rw [incident, mergeSort_eq_filter hnodup hes,
    mapM_bundle?_eq_some fun e he => mem_edges_iff.1 (List.mem_filter.1 he).1,
    List.filterMap_filter, bundles, List.filter_filterMap]
  refine congrArg (fun f => some (List.filterMap f _)) (funext fun e => ?_)
  by_cases he : e ∈ es
  · obtain ⟨l, hl, hp⟩ := (hbundle e).1 he
    rw [if_pos (decide_eq_true he), hl, Option.filter_some, if_pos hp]
  · rw [if_neg (mt of_decide_eq_true he)]
    refine (Option.filter_eq_none_iff.2 fun l hl hp => he ((hbundle e).2 ⟨l, hl, hp⟩)).symm

/-- The index, the nodes, the connections `ls` and the answers of a store fit together. -/
structure Coherent (s : Store Γ) (ls : List Bundle) : Prop where
  /-- The index leads to nodes whose instances have the given names. -/
  exists_at? : ∀ {name n}, s.index.get? name = some n → ∃ i, s.at? n = some i ∧ i.name = name
  /-- The index has the number of every node under the name of its instance. -/
  get?_of_at? : ∀ {n i}, s.at? n = some i → s.index.get? i.name = some n
  instances_eq : ∃ is, s.instances = some is ∧ is.map Instance.name = s.index.keys
  connections_eq : s.connections = some ls
  /-- There is at most one connection from one instance to another. -/
  nodup_ends : (ls.map fun l => (l.source, l.dest)).Nodup
  /-- Both ends of a connection are there. -/
  ends_contained : ∀ l ∈ ls, s.index.contains l.source ∧ s.index.contains l.dest
  /-- No two bindings end at the same port of the same instance. -/
  nodup_dests : ((ls.flatMap Bundle.wires).map Wire.dest).Nodup
  driver?_eq : ∀ name port, ∃ driver, s.driver? name port = some driver ∧
    ∀ e, driver = some e ↔ ⟨e, ⟨name, port⟩⟩ ∈ ls.flatMap Bundle.wires
  incoming_eq : ∀ name, s.incoming name = some (ls.filter fun l => l.dest = name)
  outgoing_eq : ∀ name, s.outgoing name = some (ls.filter fun l => l.source = name)
  connection?_eq : ∀ source dest, ∃ found, s.connection? source dest = some found ∧
    ∀ bs, found = some bs ↔ ⟨source, dest, bs⟩ ∈ ls

namespace Represents

theorem nodup_ends (h : s.Represents g) : (s.bundles.map fun l => (l.source, l.dest)).Nodup := by
  refine List.pairwise_map.2 (List.Pairwise.filterMap _ ?_ (Lawful.pairwise_edges s.graph))
  intro e f hef k hk l hl hends
  obtain ⟨hs, hd⟩ := Prod.mk.inj hends
  exact Nat.ne_of_lt hef (h.eq_of_ends hk hl hs hd)

/-- The connections are the links of the graph, in some order. -/
theorem bundles_perm (h : s.Represents g) : s.bundles.Perm (g.links.map Link.toBundle) := by
  have hlinks : (g.links.map Link.toBundle).Nodup :=
    List.pairwise_map.2 (h.wellFormed.oneLink.imp fun hne he =>
      hne ⟨congrArg Bundle.source he, congrArg Bundle.dest he⟩)
  refine (List.perm_ext_iff_of_nodup (List.Nodup.of_map _ h.nodup_ends) hlinks).2 fun l => ?_
  rw [mem_bundles_iff, h.bundle_iff, List.mem_map]

theorem wires_perm (h : s.Represents g) : (s.bundles.flatMap Bundle.wires).Perm g.wires := by
  refine (h.bundles_perm.flatMap_right Bundle.wires).trans ?_
  rw [List.flatMap_map]
  exact g.wires_perm.symm

omit [Lawful Γ] in
theorem instances_eq (h : s.Represents g) : s.instances = some g.instances := by
  have hmap := mapM_eq_pure_map (m := Option) (f := fun e => s.at? e.2) (h := id) h.map_entries
    fun _ _ he => (Prod.mk.inj he).2
  rw [instances, OrderedMap.values, List.mapM_map]
  exact hmap.trans (congrArg some (List.map_id _))

/-- No connection has an end whose name is unknown. -/
theorem ends_ne (h : s.Represents g) {name : String} (hn : s.index.get? name = none) {l : Bundle}
    (hl : l ∈ s.bundles) : l.source ≠ name ∧ l.dest ≠ name := by
  rw [OrderedMap.get?_eq_none_iff, h.keys] at hn
  obtain ⟨k, hk, rfl⟩ := h.bundle_iff.1 (mem_bundles_iff.1 hl)
  obtain ⟨hs, hd⟩ := h.wellFormed.ends_mem _ _ ⟨k, hk, rfl, rfl⟩
  exact ⟨fun he => hn (he ▸ hs), fun he => hn (he ▸ hd)⟩

theorem driver?_eq (h : s.Represents g) (name port : String) :
    s.driver? name port = some (g.driver? name port) := by
  unfold Store.driver?
  rcases h.lookup_cases name with ⟨hn, -⟩ | ⟨n, i, hn, -, -⟩
  · rw [hn]
    refine congrArg some (Graph.driver?_eq_none_iff.2 fun w hw hd => ?_).symm
    obtain ⟨l, hl, hwl⟩ := List.mem_flatMap.1 (h.wires_perm.mem_iff.2 hw)
    refine (h.ends_ne hn hl).2 ?_
    rw [← (Bundle.mem_wires.1 hwl).2.1, hd]
  · rw [hn]
    exact h.driverAt_eq hn port

/-- An edge and its bundle have the same ends. -/
theorem ends_iff (h : s.Represents g) {name : String} {n e : Nat} {x : Edge (List Binding)}
    {l : Bundle} (hn : s.index.get? name = some n) (hx : edge? s.graph e = some x)
    (hl : s.bundle? e = some l) :
    (x.source = n ↔ l.source = name) ∧ (x.dest = n ↔ l.dest = name) := by
  obtain ⟨i, j, hi, hj, he⟩ := exists_ends hx
  obtain rfl := Option.some.inj (he.symm.trans hl)
  exact ⟨h.eq_iff_name hn hi, h.eq_iff_name hn hj⟩

theorem incoming_eq (h : s.Represents g) (name : String) :
    s.incoming name = some (s.bundles.filter fun l => l.dest = name) := by
  unfold incoming
  rcases h.lookup_cases name with ⟨hn, -⟩ | ⟨n, i, hn, -, -⟩
  · rw [hn]
    refine congrArg some (List.filter_eq_nil_iff.2 fun l hl hd => ?_).symm
    exact (h.ends_ne hn hl).2 (of_decide_eq_true hd)
  · rw [hn]
    refine incident_eq (Lawful.nodup_edgesTo s.graph n) (Lawful.mem_edgesTo s.graph n) ?_
    exact fun e x l hx hl => (h.ends_iff hn hx hl).2.trans decide_eq_true_iff.symm

theorem outgoing_eq (h : s.Represents g) (name : String) :
    s.outgoing name = some (s.bundles.filter fun l => l.source = name) := by
  unfold outgoing
  rcases h.lookup_cases name with ⟨hn, -⟩ | ⟨n, i, hn, -, -⟩
  · rw [hn]
    refine congrArg some (List.filter_eq_nil_iff.2 fun l hl hs => ?_).symm
    exact (h.ends_ne hn hl).1 (of_decide_eq_true hs)
  · rw [hn]
    refine incident_eq (Lawful.nodup_edgesFrom s.graph n) (Lawful.mem_edgesFrom s.graph n) ?_
    exact fun e x l hx hl => (h.ends_iff hn hx hl).1.trans decide_eq_true_iff.symm

theorem connection?_eq (h : s.Represents g) (source dest : String) :
    ∃ found, s.connection? source dest = some found ∧
      ∀ bs, found = some bs ↔ ⟨source, dest, bs⟩ ∈ s.bundles := by
  unfold connection?
  rcases h.lookup_cases source with ⟨ha, -⟩ | ⟨a, -, ha, -, -⟩
  · rw [ha]
    exact ⟨none, rfl, fun bs => ⟨fun he => (nomatch he), fun hl => absurd rfl (h.ends_ne ha hl).1⟩⟩
  rcases h.lookup_cases dest with ⟨hb, -⟩ | ⟨b, -, hb, -, -⟩
  · rw [ha, hb]
    exact ⟨none, rfl, fun bs => ⟨fun he => (nomatch he), fun hl => absurd rfl (h.ends_ne hb hl).2⟩⟩
  rw [ha, hb]
  dsimp only
  cases hfind : findEdge? s.graph a b with
  | none =>
    refine ⟨none, rfl, fun bs => ⟨fun he => (nomatch he), fun hl => ?_⟩⟩
    obtain ⟨k, hk, hl⟩ := h.bundle_iff.1 (mem_bundles_iff.1 hl)
    refine absurd hfind (h.findEdge?_ne_none ha hb ?_)
    exact ⟨k, hk, congrArg Bundle.source hl, congrArg Bundle.dest hl⟩
  | some e =>
    obtain ⟨w, he⟩ := Lawful.edge?_of_findEdge? s.graph a b e hfind
    obtain ⟨i, j, hi, hj, hl⟩ := exists_ends he
    rw [h.name_of_get? ha hi, h.name_of_get? hb hj] at hl
    refine ⟨some w, congrArg (Option.map fun x => some x.weight) he, fun bs => ?_⟩
    rw [Option.some.injEq, mem_bundles_iff]
    constructor
    · rintro rfl
      exact ⟨e, hl⟩
    · rintro ⟨f, hf⟩
      obtain rfl := h.eq_of_ends hl hf rfl rfl
      exact congrArg Bundle.bindings (Option.some.inj (hl.symm.trans hf))

theorem coherent (h : s.Represents g) : s.Coherent s.bundles where
  exists_at? hn := by
    obtain ⟨i, hi, -⟩ := h.exists_of_get? hn
    exact ⟨i, hi, h.name_of_get? hn hi⟩
  get?_of_at? := h.get?_of_at?
  instances_eq := ⟨g.instances, h.instances_eq, h.keys.symm⟩
  connections_eq := s.connections_eq
  nodup_ends := h.nodup_ends
  ends_contained l hl := by
    obtain ⟨k, hk, rfl⟩ := h.bundle_iff.1 (mem_bundles_iff.1 hl)
    rw [h.contains_eq, h.contains_eq, Graph.contains_iff, Graph.contains_iff]
    exact h.wellFormed.ends_mem _ _ ⟨k, hk, rfl, rfl⟩
  nodup_dests := (h.wires_perm.map _).nodup_iff.2 h.wellFormed.nodup_dests
  driver?_eq name port := ⟨_, h.driver?_eq name port, fun e => by
    rw [h.wellFormed.driver?_eq_some_iff, h.wires_perm.mem_iff]⟩
  incoming_eq := h.incoming_eq
  outgoing_eq := h.outgoing_eq
  connection?_eq := h.connection?_eq

end Represents

/-- Stores are coherent after any calls. -/
theorem exists_coherent_after (hs : s = empty ∨ ∃ d, ofDocument d = .ok s) (calls : List Call) :
    ∃ ls, (s.after calls).Coherent ls := by
  obtain ⟨g, hg⟩ : ∃ g, s.Represents g := by
    rcases hs with rfl | ⟨d, hd⟩
    · exact ⟨_, .empty⟩
    · exact represents_of_ofDocument hd
  exact ⟨_, (hg.after calls).coherent⟩

end Netlist.Store

/-! ### A sample run -/

namespace Netlist.Sample

/-- A chain of three leaves. -/
def chain : GraphDocument where
  directed := true
  nodes := ["a", "b", "c"].map fun name => ⟨name, "leaf", .cell⟩
  links := [⟨"a", "b", [⟨"o", "i"⟩]⟩, ⟨"b", "c", [⟨"o", "i"⟩]⟩]

/-- Another leaf takes the place in the middle of the chain. The last call but one fails. -/
def rewiring : List Call :=
  [.remove "b", .instantiate leaves "d" "leaf", .connect leaves "d" "c" [⟨"o", "i"⟩],
    .connect leaves "a" "c" [⟨"o", "i"⟩], .connect leaves "a" "d" [⟨"o", "i"⟩]]

end Netlist.Sample

namespace Netlist.Store

theorem exists_coherent_after_rewiring :
    ∃ s : Store (SlotGraph Instance (List Binding)), ofDocument Sample.chain = .ok s ∧
      ∃ ls, (s.after Sample.rewiring).Coherent ls := by
  obtain ⟨s, hs⟩ := exists_eq_ok_of_isOk
    (x := (ofDocument Sample.chain : Except Failure (Store (SlotGraph Instance (List Binding)))))
    (by decide_cbv)
  exact ⟨s, hs, exists_coherent_after (.inr ⟨_, hs⟩) Sample.rewiring⟩

/-- The numbers of the removed instance and of its connections are used again. -/
example : ((ofDocument Sample.chain).map fun s : Store (SlotGraph Instance (List Binding)) =>
    ((s.after Sample.rewiring).index.entries, (s.after Sample.rewiring).connections)) =
      .ok ([("a", 0), ("c", 2), ("d", 1)],
        some [⟨"d", "c", [⟨"o", "i"⟩]⟩, ⟨"a", "d", [⟨"o", "i"⟩]⟩]) := by
  decide_cbv

end Netlist.Store
