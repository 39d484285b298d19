import Netlist.Proofs.OrderedMap
import Netlist.Proofs.Sequencing
import Netlist.Proofs.Wiring
import Netlist.Store.Basic

/-!
# Stores represent graphs

A store represents a graph if its index lists the instances of the graph, each with the number of a
node for it, and if its edges are the links. Changes of the one then do to it what they do to the
other, with the same errors, so no number is ever stale.

## Main definitions

* `Netlist.Store.Represents`: a store represents a graph.
* `Netlist.Store.Follows`: results that are related, or the same error.

## Main results

* `Netlist.Store.Represents.put`, `Netlist.Store.Represents.relabel`,
  `Netlist.Store.Represents.bind`, `Netlist.Store.Represents.drop`: the changes of stores that
  succeed.
* `Netlist.Store.Represents.call`, `Netlist.Store.Represents.after`: the changes by calls.
* `Netlist.Store.represents_ofDocument`: the store of a document represents the graph of it.
-/

namespace Netlist.Store

open StableDigraph

variable {Γ : Type} [StableDigraph Γ Instance (List Binding)]

/-! ### Outcomes -/

/-- The results are related, or both fail with the same error. -/
inductive Follows {α β : Type} (r : α → β → Prop) : Except Failure α → Except Error β → Prop
  | ok {a : α} {b : β} (h : r a b) : Follows r (.ok a) (.ok b)
  | error (e : Error) : Follows r (.error (.error e)) (.error e)

namespace Follows

variable {α β α' β' : Type} {r : α → β → Prop} {r' : α' → β' → Prop}

theorem bind {x : Except Failure α} {y : Except Error β} {f : α → Except Failure α'}
    {k : β → Except Error β'} (h : Follows r x y)
    (hf : ∀ a b, r a b → y = .ok b → Follows r' (f a) (k b)) :
    Follows r' (x >>= f) (y >>= k) := by
  cases h with
  | ok h => exact hf _ _ h rfl
  | error e => exact .error e

theorem mapError (y : Except Error β) : Follows Eq (y.mapError Failure.error) y := by
  cases y with
  | ok b => exact .ok rfl
  | error e => exact .error e

theorem foldlM {γ : Type} {f : α → γ → Except Failure α} {k : β → γ → Except Error β}
    (hf : ∀ a b c, r a b → Follows r (f a c) (k b c)) (cs : List γ) {a : α} {b : β} (h : r a b) :
    Follows r (cs.foldlM f a) (cs.foldlM k b) := by
  induction cs generalizing a b with
  | nil => exact .ok h
  | cons c cs ih => exact (hf a b c h).bind fun a' b' h' _ => ih h'

end Follows

/-! ### Edges as bundles -/

theorem bundle?_of_edge? {s : Store Γ} {e : Nat} {x : Edge (List Binding)}
    (h : edge? s.graph e = some x) : s.bundle? e =
      ((s.at? x.source).map Instance.name).bind fun a =>
        ((s.at? x.dest).map Instance.name).map fun b => ⟨a, b, x.weight⟩ := by
  rw [bundle?, h, Option.bind_eq_bind, Option.bind_some]
  cases s.at? x.source with
  | none => rfl
  | some i => cases s.at? x.dest <;> rfl

/-- The bundle of an edge depends on the edge and on the names of its ends. -/
theorem bundle?_congr {s t : Store Γ} {e : Nat} (he : edge? t.graph e = edge? s.graph e)
    (hends : ∀ x, edge? s.graph e = some x →
      (t.at? x.source).map Instance.name = (s.at? x.source).map Instance.name ∧
        (t.at? x.dest).map Instance.name = (s.at? x.dest).map Instance.name) :
    t.bundle? e = s.bundle? e := by
  cases hx : edge? s.graph e with
  | none =>
    rw [bundle?, bundle?, he, hx]
    rfl
  | some x =>
    obtain ⟨hs, hd⟩ := hends x hx
    rw [bundle?_of_edge? hx, bundle?_of_edge? (he.trans hx), hs, hd]

/-! ### The relation -/

/-- A store represents a graph. -/
structure Represents (s : Store Γ) (g : Graph) : Prop where
  wellFormed : g.WellFormed
  keys : s.index.keys = g.names
  /-- The index leads to the instances. -/
  at?_of_get? : ∀ {name n}, s.index.get? name = some n → s.at? n = g.instance? name
  /-- The index has the number of every node. -/
  get?_of_at? : ∀ {n i}, s.at? n = some i → s.index.get? i.name = some n
  /-- The edges are the links of the graph. -/
  bundle_iff : ∀ {l}, (∃ e, s.bundle? e = some l) ↔ ∃ k ∈ g.links, k.toBundle = l
  /-- No two edges have the same ends. -/
  eq_of_ends : ∀ {e f k l}, s.bundle? e = some k → s.bundle? f = some l →
    k.source = l.source → k.dest = l.dest → e = f

variable {s : Store Γ} {g : Graph} {name source dest : String} {bs : List Binding}

namespace Represents

theorem contains_eq (h : s.Represents g) (name : String) :
    s.index.contains name = g.contains name := by
  rw [Bool.eq_iff_iff, OrderedMap.contains_iff_mem_keys, h.keys, Graph.contains_iff]

/-- The index leads to the instance that the graph has under the name. -/
theorem exists_of_get? (h : s.Represents g) {n : Nat} (hn : s.index.get? name = some n) :
    ∃ i, s.at? n = some i ∧ g.instance? name = some i := by
  obtain ⟨i, hi⟩ := Graph.exists_instance? (h.keys ▸ OrderedMap.mem_keys_of_get? hn)
  exact ⟨i, (h.at?_of_get? hn).trans hi, hi⟩

/-- A name is unknown to both, or both find the same instance under it. -/
theorem lookup_cases (h : s.Represents g) (name : String) :
    (s.index.get? name = none ∧ g.instance? name = none) ∨
      ∃ n i, s.index.get? name = some n ∧ s.at? n = some i ∧ g.instance? name = some i := by
  cases hn : s.index.get? name with
  | none =>
    refine Or.inl ⟨rfl, ?_⟩
    rw [OrderedMap.get?_eq_none_iff, h.keys] at hn
    rw [← Option.not_isSome_iff_eq_none, Option.isSome_iff_exists]
    rintro ⟨i, hi⟩
    exact hn (Graph.mem_names_of_instance? hi)
  | some n =>
    obtain ⟨i, hi, hg⟩ := h.exists_of_get? hn
    exact Or.inr ⟨n, i, rfl, hi, hg⟩

/-- The instance under the number of a name has that name. -/
theorem name_of_get? (h : s.Represents g) {n : Nat} {i : Instance}
    (hn : s.index.get? name = some n) (hi : s.at? n = some i) : i.name = name :=
  (Graph.instance?_eq_some ((h.at?_of_get? hn).symm.trans hi)).2

/-- A node has the number of a name if its instance has that name. -/
theorem eq_iff_name (h : s.Represents g) {n m : Nat} {i : Instance}
    (hn : s.index.get? name = some n) (hm : s.at? m = some i) : m = n ↔ i.name = name := by
  refine ⟨fun he => h.name_of_get? hn (he ▸ hm), fun he => ?_⟩
  have hm := h.get?_of_at? hm
  rw [he, hn, Option.some.injEq] at hm
  exact hm.symm

end Represents

theorem Represents.follows_find (h : s.Represents g) (name : String) :
    Follows (fun n i => s.index.get? name = some n ∧ s.at? n = some i ∧ g.instance? name = some i)
      (s.number name) (g.find name) := by
  unfold number Graph.find
  rcases h.lookup_cases name with ⟨hn, hi⟩ | ⟨n, i, hn, hat, hi⟩
  · rw [hn, hi]
    exact .error _
  · rw [hn, hi]
    exact .ok ⟨rfl, hat, rfl⟩

omit [StableDigraph Γ Instance (List Binding)] in
theorem number_eq_ok {n : Nat} (h : s.index.get? name = some n) : s.number name = .ok n := by
  rw [number, h]

theorem get_eq_ok {n : Nat} {i : Instance} (h : s.at? n = some i) : s.get n = .ok i := by
  rw [get, h]

theorem get?_index_put (i : Instance) (name : String) : (s.put i).index.get? name =
    if name = i.name then some (addNode s.graph i).1 else s.index.get? name :=
  OrderedMap.get?_insert s.index i.name _ name

section Lawful

variable [Lawful Γ]

/-- The ends of an edge are instances. -/
theorem exists_ends {e : Nat} {x : Edge (List Binding)} (h : edge? s.graph e = some x) :
    ∃ i j, s.at? x.source = some i ∧ s.at? x.dest = some j ∧
      s.bundle? e = some ⟨i.name, j.name, x.weight⟩ := by
  obtain ⟨hs, hd⟩ := Lawful.ends s.graph e x h
  obtain ⟨i, hi⟩ := Option.isSome_iff_exists.1 hs
  obtain ⟨j, hj⟩ := Option.isSome_iff_exists.1 hd
  have hi : s.at? x.source = some i := hi
  have hj : s.at? x.dest = some j := hj
  refine ⟨i, j, hi, hj, ?_⟩
  rw [bundle?_of_edge? h, hi, hj]
  rfl

theorem bundle?_eq_some_iff {e : Nat} {l : Bundle} : s.bundle? e = some l ↔
    ∃ x i j, edge? s.graph e = some x ∧ s.at? x.source = some i ∧ s.at? x.dest = some j ∧
      l = ⟨i.name, j.name, x.weight⟩ := by
  constructor
  · intro h
    cases hx : edge? s.graph e with
    | none =>
      rw [bundle?, hx] at h
      cases h
    | some x =>
      obtain ⟨i, j, hi, hj, hl⟩ := exists_ends hx
      exact ⟨x, i, j, rfl, hi, hj, Option.some.inj (h.symm.trans hl)⟩
  · rintro ⟨x, i, j, hx, hi, hj, rfl⟩
    rw [bundle?_of_edge? hx, hi, hj]
    rfl

theorem Represents.empty : (Store.empty : Store Γ).Represents .empty := by
  have hat (n : Nat) : (Store.empty : Store Γ).at? n = none := Lawful.node?_empty n
  have hbundle (e : Nat) (l : Bundle) : (Store.empty : Store Γ).bundle? e ≠ some l := by
    intro h
    obtain ⟨x, i, -, -, hi, -⟩ := bundle?_eq_some_iff.1 h
    rw [hat] at hi
    cases hi
  exact
    { wellFormed := .empty
      keys := rfl
      at?_of_get? := fun h => nomatch h
      get?_of_at? := fun h => nomatch (hat _).symm.trans h
      bundle_iff := ⟨fun ⟨e, h⟩ => absurd h (hbundle e _), fun ⟨_, h, _⟩ => nomatch h⟩
      eq_of_ends := fun h => absurd h (hbundle _ _) }

/-! ### Adding and relabelling instances -/

theorem at?_put (i : Instance) (n : Nat) :
    (s.put i).at? n = if n = (addNode s.graph i).1 then some i else s.at? n :=
  Lawful.node?_addNode s.graph i n

/-- A number in use is not given to a new instance. -/
theorem ne_addNode_fst {n : Nat} {j : Instance} (h : s.at? n = some j) (i : Instance) :
    n ≠ (addNode s.graph i).1 := by
  rintro rfl
  cases (Lawful.node?_addNode_fst s.graph i).symm.trans h

theorem bundle?_put (i : Instance) (e : Nat) : (s.put i).bundle? e = s.bundle? e := by
  refine bundle?_congr (Lawful.edge?_addNode s.graph i e) fun x hx => ?_
  obtain ⟨j, k, hj, hk, -⟩ := exists_ends hx
  rw [at?_put, at?_put, if_neg (ne_addNode_fst hj i), if_neg (ne_addNode_fst hk i)]
  exact ⟨rfl, rfl⟩

theorem Represents.put (h : s.Represents g) {i : Instance} (hi : i.name ∉ g.names) :
    (s.put i).Represents (g.push i) where
  wellFormed := h.wellFormed.push hi
  keys := by
    refine (OrderedMap.keys_insert s.index i.name _).trans ?_
    rw [h.keys, if_neg hi, Graph.names_push]
  at?_of_get? {name n} hn := by
    rw [get?_index_put] at hn
    rw [at?_put]
    split_ifs at hn with hname
    · obtain rfl := Option.some.inj hn
      rw [if_pos rfl, hname]
      exact ((h.wellFormed.push hi).instance?_of_mem
        (List.mem_append_right _ List.mem_cons_self)).symm
    · obtain ⟨j, hj, hg⟩ := h.exists_of_get? hn
      rw [if_neg (ne_addNode_fst hj i), hj, Graph.instance?_push hg]
  get?_of_at? {n j} hj := by
    rw [at?_put] at hj
    rw [get?_index_put]
    split_ifs at hj with hn
    · obtain rfl := Option.some.inj hj
      rw [if_pos rfl, hn]
    · have hget := h.get?_of_at? hj
      have hne : j.name ≠ i.name := fun he =>
        hi (h.keys ▸ he ▸ OrderedMap.mem_keys_of_get? hget)
      rw [if_neg hne, hget]
  bundle_iff := by
    simp only [bundle?_put]
    exact h.bundle_iff
  eq_of_ends := by
    simp only [bundle?_put]
    exact h.eq_of_ends

theorem at?_modifyNode (s : Store Γ) (n : Nat) (f : Instance → Instance) (m : Nat) :
    Store.at? { s with graph := modifyNode s.graph n f } m =
      if m = n then (s.at? m).map f else s.at? m :=
  Lawful.node?_modifyNode s.graph n f m

/-- A change of a node that keeps its name changes no bundle. -/
theorem bundle?_modifyNode (s : Store Γ) (n : Nat) {f : Instance → Instance}
    (hf : ∀ i, (f i).name = i.name) (e : Nat) :
    Store.bundle? { s with graph := modifyNode s.graph n f } e = s.bundle? e := by
  have hname (m : Nat) : (Store.at? { s with graph := modifyNode s.graph n f } m).map
      Instance.name = (s.at? m).map Instance.name := by
    rw [at?_modifyNode]
    split_ifs
    · rw [Option.map_map]
      exact congrArg (fun p => (s.at? m).map p) (funext hf)
    · rfl
  exact bundle?_congr (Lawful.edge?_modifyNode s.graph n f e) fun x _ => ⟨hname _, hname _⟩

theorem Represents.modifyNode (h : s.Represents g) {module : String} {role : Role} {n : Nat}
    {g' : Graph} (hn : s.index.get? name = some n) (hg : g.relabel name module role = .ok g') :
    Represents { s with graph := modifyNode s.graph n fun i => { i with module, role } } g' := by
  have hbundle := bundle?_modifyNode s n (f := fun i => { i with module, role }) fun _ => rfl
  refine ⟨h.wellFormed.relabel hg, h.keys.trans (Graph.WellFormed.names_relabel hg).symm,
    fun {k m} hm => ?_, fun {m i} hi => ?_, ?_, ?_⟩
  · obtain ⟨i, hi, hgi⟩ := h.exists_of_get? hm
    rw [at?_modifyNode, Graph.WellFormed.instance?_relabel hg, hi, hgi, Option.map_some,
      Option.map_some]
    simp only [h.eq_iff_name hn hi]
    split_ifs with hname
    · rw [← hname]
    · rfl
  · rw [at?_modifyNode] at hi
    split_ifs at hi
    · obtain ⟨j, hj, rfl⟩ := Option.map_eq_some_iff.1 hi
      exact (h.get?_of_at? hj :)
    · exact h.get?_of_at? hi
  · simp only [hbundle, Graph.WellFormed.links_relabel hg]
    exact h.bundle_iff
  · simp only [hbundle]
    exact h.eq_of_ends

theorem Represents.relabel (h : s.Represents g) (name module : String) (role : Role) :
    Follows Represents (s.relabel name module role) (g.relabel name module role) := by
  rcases h.lookup_cases name with ⟨hn, -⟩ | ⟨n, i, hn, hat, -⟩
  · have hg : g.relabel name module role = .error (.instanceNotFound name) := by
      rw [Graph.relabel, ← h.contains_eq, OrderedMap.contains, hn]
      rfl
    rw [Store.relabel, number, hn, hg]
    exact .error _
  · obtain ⟨g', hg⟩ : ∃ g', g.relabel name module role = .ok g' := by
      rw [Graph.relabel, ← h.contains_eq, OrderedMap.contains, hn]
      exact ⟨_, rfl⟩
    have hs : s.relabel name module role = .ok
        { s with graph := StableDigraph.modifyNode s.graph n fun i => { i with module, role } } :=
      bind_eq_ok_iff.2 ⟨n, number_eq_ok hn, bind_eq_ok_iff.2 ⟨i, get_eq_ok hat, rfl⟩⟩
    rw [hs, hg]
    exact .ok (h.modifyNode hn hg)

/-! ### Removing instances -/

theorem at?_forget (s : Store Γ) (name : String) (n m : Nat) :
    (s.forget name n).at? m = if m = n then none else s.at? m :=
  Lawful.node?_removeNode s.graph n m

omit [Lawful Γ] in
theorem get?_index_forget (s : Store Γ) (name : String) (n : Nat) (k : String) :
    (s.forget name n).index.get? k = if k = name then none else s.index.get? k :=
  OrderedMap.get?_erase s.index name k

namespace Represents

theorem bundle?_forget (h : s.Represents g) {n : Nat} (hn : s.index.get? name = some n) (e : Nat) :
    (s.forget name n).bundle? e =
      (s.bundle? e).filter fun l => l.source ≠ name ∧ l.dest ≠ name := by
  have hedge : edge? (s.forget name n).graph e = _ := Lawful.edge?_removeNode s.graph n e
  cases hx : edge? s.graph e with
  | none =>
    rw [hx] at hedge
    rw [bundle?, bundle?, hedge, hx]
    rfl
  | some x =>
    obtain ⟨i, j, hi, hj, hl⟩ := exists_ends hx
    have hs := h.eq_iff_name hn hi
    have hd := h.eq_iff_name hn hj
    rw [hx, Option.filter_some] at hedge
    rw [hl, Option.filter_some]
    simp only [ne_eq, ← hs, ← hd]
    split_ifs at hedge ⊢ with hne
    · obtain ⟨hns, hnd⟩ := of_decide_eq_true hne
      rw [bundle?_of_edge? hedge, at?_forget, at?_forget, if_neg hns, if_neg hnd, hi, hj]
      rfl
    · rw [bundle?, hedge]
      rfl

theorem forget (h : s.Represents g) {n : Nat} (hn : s.index.get? name = some n) :
    (s.forget name n).Represents (g.without name) := by
  refine ⟨h.wellFormed.without name, ?_, fun {k m} hm => ?_, fun {m i} hi => ?_, fun {l} => ?_,
    fun {e f k l} hk hl => ?_⟩
  · refine (OrderedMap.keys_erase s.index name).trans ?_
    rw [h.keys, Graph.names_without]
  · rw [get?_index_forget] at hm
    split_ifs at hm with hne
    obtain ⟨i, hi, hgi⟩ := h.exists_of_get? hm
    obtain ⟨hmem, hname⟩ := Graph.instance?_eq_some hgi
    have hi' : i ∈ (g.without name).instances :=
      List.mem_filter.2 ⟨hmem, decide_eq_true (hname.trans_ne hne)⟩
    rw [at?_forget, if_neg fun he => hne (hname.symm.trans ((h.eq_iff_name hn hi).1 he)), hi]
    exact ((h.wellFormed.without name).instance?_eq_some_iff.2 ⟨hi', hname⟩).symm
  · rw [at?_forget] at hi
    split_ifs at hi with hmn
    rw [get?_index_forget, if_neg fun he => hmn ((h.eq_iff_name hn hi).2 he), h.get?_of_at? hi]
  · simp only [h.bundle?_forget hn, Option.filter_eq_some_iff, decide_eq_true_eq,
      exists_and_right, h.bundle_iff, Graph.mem_links_without]
    constructor
    · rintro ⟨⟨k, hk, rfl⟩, hne⟩
      exact ⟨k, ⟨hk, hne⟩, rfl⟩
    · rintro ⟨k, ⟨hk, hne⟩, rfl⟩
      exact ⟨⟨k, hk, rfl⟩, hne⟩
  · rw [h.bundle?_forget hn, Option.filter_eq_some_iff] at hk hl
    exact h.eq_of_ends hk.1 hl.1

theorem remove (h : s.Represents g) (name : String) :
    ∃ x, ((s.remove name).1.map fun _ => (), (s.remove name).2) = s.settle x ∧
      Follows Represents x ((g.remove name).map Prod.snd) := by
  unfold Store.remove Graph.remove
  rcases h.lookup_cases name with ⟨hn, hi⟩ | ⟨n, i, hn, hat, hi⟩
  · rw [hn, hi]
    exact ⟨_, rfl, .error _⟩
  · have hfound : (removeNode s.graph n).1 = some i := (Lawful.removeNode_fst s.graph n).trans hat
    rw [hn, hi]
    simp only [hfound]
    exact ⟨.ok (s.forget name n), rfl, .ok (h.forget hn)⟩

theorem isolated_eq (h : s.Represents g) {n : Nat} (hn : s.index.get? name = some n) :
    isolated s.graph n = g.isOrphan name := by
  rw [Bool.eq_iff_iff, Lawful.isolated_iff, Graph.isOrphan_iff]
  constructor
  · rintro hiso a b ⟨l, hl, rfl, rfl⟩
    obtain ⟨e, he⟩ := h.bundle_iff.2 ⟨l, hl, rfl⟩
    obtain ⟨x, i, j, hx, hi, hj, hl⟩ := bundle?_eq_some_iff.1 he
    obtain ⟨hs, hd⟩ := hiso e x hx
    rw [ne_eq, h.eq_iff_name hn hi] at hs
    rw [ne_eq, h.eq_iff_name hn hj] at hd
    exact ⟨congrArg Bundle.source hl ▸ hs, congrArg Bundle.dest hl ▸ hd⟩
  · intro horphan e x hx
    obtain ⟨i, j, hi, hj, he⟩ := exists_ends hx
    obtain ⟨k, hk, hl⟩ := h.bundle_iff.1 ⟨e, he⟩
    rw [ne_eq, h.eq_iff_name hn hi, ne_eq, h.eq_iff_name hn hj]
    exact horphan _ _ ⟨k, hk, congrArg Bundle.source hl, congrArg Bundle.dest hl⟩

omit [Lawful Γ] in
/-- The index lists the instances of the graph in order. -/
theorem map_entries (h : s.Represents g) : s.index.entries.map (fun e => (e.1, s.at? e.2)) =
    g.instances.map fun i => (i.name, some i) := by
  calc s.index.entries.map (fun e => (e.1, s.at? e.2))
      = s.index.entries.map fun e => (e.1, g.instance? e.1) :=
        List.map_congr_left fun e he => by
          rw [h.at?_of_get? (OrderedMap.get?_eq_some_iff.2 he)]
    _ = g.names.map fun n => (n, g.instance? n) := by
        rw [← h.keys, OrderedMap.keys, List.map_map]
        rfl
    _ = g.instances.map fun i => (i.name, some i) := by
        rw [Graph.names, List.map_map]
        refine List.map_congr_left fun i hi => ?_
        rw [Function.comp_apply, h.wellFormed.instance?_of_mem hi]

theorem orphans_eq (h : s.Represents g) (eligible : Instance → Bool) :
    s.orphans eligible = .ok ((g.orphans eligible).map Instance.name) := by
  have hfilter : s.index.entries.filter (fun e => isolated s.graph e.2) =
      s.index.entries.filter fun e => g.isOrphan e.1 :=
    List.filter_congr fun e he => h.isolated_eq (OrderedMap.get?_eq_some_iff.2 he)
  have hmap : (s.index.entries.filter fun e => g.isOrphan e.1).map (fun e => (e.1, s.at? e.2)) =
      (g.instances.filter fun i => g.isOrphan i.name).map fun i => (i.name, some i) := by
    have hfst := congrArg (List.filter fun e => g.isOrphan e.1) h.map_entries
    rwa [List.filter_map, List.filter_map] at hfst
  have hfound : ((s.index.entries.filter fun e => g.isOrphan e.1).mapM fun e => do
      return (e.1, ← s.get e.2)) =
        .ok ((g.instances.filter fun i => g.isOrphan i.name).map fun i => (i.name, i)) := by
    refine mapM_eq_pure_map hmap fun e i he => ?_
    obtain ⟨hname, hi⟩ := Prod.mk.inj he
    rw [get_eq_ok hi, hname]
    rfl
  have hnames : s.orphans eligible = .ok
      ((((g.instances.filter fun i => g.isOrphan i.name).map fun i => (i.name, i)).filter
        fun e => eligible e.2).map Prod.fst) := by
    rw [orphans, hfilter, hfound]
    rfl
  rw [hnames, List.filter_map, List.map_map, List.filter_filter, Graph.orphans]
  simp only [Function.comp_def, Bool.and_comm]

theorem drop (h : s.Represents g) (name : String) : (s.drop name).Represents (g.without name) := by
  unfold Store.drop
  rcases h.lookup_cases name with ⟨hn, hi⟩ | ⟨n, i, hn, -, -⟩
  · rw [hn, h.wellFormed.without_of_notMem]
    · exact h
    · intro hm
      obtain ⟨i, hi'⟩ := Graph.exists_instance? hm
      cases hi.symm.trans hi'
  · rw [hn]
    exact h.forget hn

theorem foldl_drop (h : s.Represents g) (names : List String) :
    (names.foldl Store.drop s).Represents (names.foldl Graph.without g) := by
  induction names generalizing s g with
  | nil => exact h
  | cons n ns ih => exact ih (h.drop n)

theorem removeOrphans (h : s.Represents g) (eligible : Instance → Bool) :
    Follows Represents (s.removeOrphans eligible) (.ok (g.removeOrphans eligible)) := by
  have hs : s.removeOrphans eligible = .ok (((g.orphans eligible).map Instance.name).foldl
      Store.drop s) := bind_eq_ok_iff.2 ⟨_, h.orphans_eq eligible, rfl⟩
  rw [hs, h.wellFormed.removeOrphans_eq_foldl]
  exact .ok (h.foldl_drop _)

end Represents

end Lawful

end Netlist.Store
