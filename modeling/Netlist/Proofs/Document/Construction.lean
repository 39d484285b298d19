import Netlist.Flatten.Construction
import Netlist.Proofs.Document.Catalog
import Netlist.Proofs.Flatten.Run

/-!
# Saving graphs that were constructed

Every graph that was constructed is well formed. Its text is read back as a graph that agrees with
it, unless the graph has a link without bindings: such a link can be made and written, but reading
refuses it.

## Main definitions

* `Netlist.Step.Binds`: a step makes no link without bindings.

## Main results

* `Netlist.Graph.build_wellFormed`, `Netlist.Graph.build_filled`: what steps preserve.
* `Netlist.Graph.ofText_toText_of_build`: what is read back after steps.
* `Netlist.Graph.not_ofText_toText_of_unbound`: a graph that is not read back.
-/

namespace Netlist

/-- A step makes no link without bindings: it connects ports if it connects instances, and
the composites it inlines have no such link. -/
def Step.Binds : Step → Prop
  | .call (.connect _ _ _ bs) => bs ≠ []
  | .call _ => True
  | .flatten c _ => ∀ m B, c.body? m = some B → B.Filled

namespace Graph

variable {g g' : Graph}

theorem instantiateWith_eq_ok {load : Loader} {c : Catalog} {name module : String}
    (h : g.instantiateWith load c name module = .ok g') :
    ∃ c', g.instantiate c' name module = .ok g' := by
  unfold instantiateWith at h
  split_ifs at h
  · cases h
  · obtain ⟨c', -, h⟩ := bind_eq_ok_iff.1 h
    exact ⟨c', h⟩

/-! ### Well-formed graphs -/

theorem call_wellFormed (hg : g.WellFormed) {x : Call} (h : g.call x = .ok g') :
    g'.WellFormed := by
  cases x with
  | instantiate c name module => exact instantiate_wellFormed hg h
  | instantiateWith load c name module =>
    obtain ⟨c', h⟩ := instantiateWith_eq_ok h
    exact instantiate_wellFormed hg h
  | relabel name module role => exact hg.relabel h
  | connect c source dest bs => exact connect_wellFormed hg h
  | remove name =>
    obtain ⟨⟨i, g₁⟩, h₁, rfl⟩ := map_eq_ok_iff.1 h
    exact remove_wellFormed hg h₁
  | removeOrphans eligible =>
    cases h
    exact hg.removeOrphans eligible

theorem step_wellFormed (hg : g.WellFormed) {x : Step} (h : g.step x = .ok g') :
    g'.WellFormed := by
  cases x with
  | call x => exact call_wellFormed hg h
  | flatten c b => exact Flatten.flattenGraph_wellFormed hg h

/-- A graph that was constructed is well formed. -/
theorem build_wellFormed {steps : List Step} (h : build steps = .ok g) : g.WellFormed :=
  foldlM_keeps (fun _ _ _ _ hg h => step_wellFormed hg h) .empty h

/-! ### Links without bindings -/

theorem call_filled (hg : g.Filled) {x : Call} (hx : (Step.call x).Binds)
    (h : g.call x = .ok g') : g'.Filled := by
  cases x with
  | instantiate c name module =>
    obtain ⟨-, -, rfl⟩ := instantiate_eq_ok_iff.1 h
    exact hg.push _
  | instantiateWith load c name module =>
    obtain ⟨c', h⟩ := instantiateWith_eq_ok h
    obtain ⟨-, -, rfl⟩ := instantiate_eq_ok_iff.1 h
    exact hg.push _
  | relabel name module role => exact hg.relabel h
  | connect c source dest bs => exact connect_filled hg hx h
  | remove name =>
    obtain ⟨⟨i, g₁⟩, h₁, rfl⟩ := map_eq_ok_iff.1 h
    unfold remove at h₁
    split at h₁
    · cases h₁
      exact hg.without name
    · cases h₁
  | removeOrphans eligible =>
    cases h
    exact hg.removeOrphans eligible

theorem step_filled (hg : g.Filled) {x : Step} (hx : x.Binds) (h : g.step x = .ok g') :
    g'.Filled := by
  cases x with
  | call x => exact call_filled hg hx h
  | flatten c b => exact Flatten.flattenGraph_filled hx hg h

/-- Steps that bind ports construct a graph all of whose links have bindings. -/
theorem build_filled {steps : List Step} (hsteps : ∀ x ∈ steps, x.Binds)
    (h : build steps = .ok g) : g.Filled :=
  foldlM_keeps (fun x hx _ _ hg h => step_filled hg (hsteps x hx) h) .empty h

/-! ### What is read back -/

/-- A graph that was constructed is read back with its instances and its links in order, or it has a
link without bindings. Then reading fails with that link, and some step made such a link. -/
theorem ofText_toText_of_build {steps : List Step} (h : build steps = .ok g) :
    (∃ g', ofText g.toText = .ok g' ∧ g.Agree g' ∧ g'.instances = g.instances ∧
      g'.connections.map Link.toBundle = g.connections.map Link.toBundle) ∨
    (∃ l ∈ g.connections.map Link.toBundle, l.bindings = [] ∧
      ofText g.toText = .error (.malformedDocument (.emptyLink l.source l.dest))) ∧
      ∃ x ∈ steps, ¬x.Binds := by
  have hg := build_wellFormed h
  rw [ofText_toText, ofDocument_toDocument hg]
  cases hfirst : g.firstEmpty? with
  | none =>
    exact .inl ⟨g.packed, rfl, hg.agree_packed, instances_packed g,
      map_toBundle_connections_packed g⟩
  | some l =>
    refine .inr ⟨⟨l, List.mem_of_find?_eq_some hfirst, ?_, rfl⟩, ?_⟩
    · simpa using List.find?_some hfirst
    · by_contra hno
      have hsteps : ∀ x ∈ steps, x.Binds := fun x hx => by_contra fun hn => hno ⟨x, hx, hn⟩
      rw [firstEmpty?_eq_none_iff.2 (build_filled hsteps h)] at hfirst
      cases hfirst

end Graph

/-! ### Sample constructions -/

namespace Sample

/-- Two leaves in a row, of which the last was another one before, are put behind a composite that
is then inlined. -/
def replacement : List Step :=
  [.call (.instantiate stages "α" "stage"), .call (.instantiate stages "β \"1\"" "leaf"),
    .call (.instantiate stages "γ" "leaf"), .call (.connect stages "α" "γ" [⟨"o", "i"⟩]),
    .call (.remove "γ"), .call (.instantiate stages "δ" "leaf"),
    .call (.connect stages "β \"1\"" "δ" [⟨"o", "i"⟩]),
    .call (.connect stages "α" "β \"1\"" [⟨"o", "i"⟩]), .flatten stages .standard]

theorem binds_replacement : ∀ x ∈ replacement, x.Binds := by
  have hstages : ∀ p ∈ stages.bodies, p.2.Filled := by decide
  simp only [replacement, List.forall_mem_cons, Step.Binds, ne_eq, List.cons_ne_nil,
    not_false_eq_true, true_and]
  exact ⟨fun m B h => hstages (m, B) (Catalog.mem_bodies.2 h), fun _ h => nomatch h⟩

/-- Two leaves are connected, but no ports of them. -/
def unbound : List Step :=
  [.call (.instantiate leaves "a" "leaf"), .call (.instantiate leaves "b" "leaf"),
    .call (.connect leaves "a" "b" [])]

end Sample

namespace Graph

theorem ofText_toText_of_replacement : ∃ g, build Sample.replacement = .ok g ∧
    ∃ g', ofText g.toText = .ok g' ∧ g.Agree g' ∧ g'.instances = g.instances ∧
      g'.connections.map Link.toBundle = g.connections.map Link.toBundle := by
  obtain ⟨g, hg⟩ := exists_eq_ok_of_isOk (x := build Sample.replacement) (by decide_cbv)
  refine ⟨g, hg, (ofText_toText_of_build hg).resolve_right ?_⟩
  rintro ⟨-, x, hx, hn⟩
  exact hn (Sample.binds_replacement x hx)

/-- A graph that can be constructed and written, but not read back. -/
theorem not_ofText_toText_of_unbound :
    ∃ g, build Sample.unbound = .ok g ∧ ¬∃ g', ofText g.toText = .ok g' := by
  refine ⟨⟨[⟨"a", "leaf", .cell⟩, ⟨"b", "leaf", .cell⟩], [⟨⟨"a", "b", []⟩, 0⟩], []⟩,
    by decide_cbv, ?_⟩
  rw [ofText_toText]
  exact not_exists_eq_ok_of_isOk (by decide_cbv)

end Graph

end Netlist
