import Mathlib.Logic.Relation
import Netlist.Flatten.Terminals
import Netlist.Proofs.Graph.Framed
import Netlist.Proofs.OrderedMap

/-!
# What drives the outputs of a composite, and what its inputs drive

The terminals of the graph inside a composite list its wires at the boundary. Seen from a graph
that an instance of the composite belongs to, an output is driven by a port inside, or by the
driver of an input that is handed through to it. The driver may be an output of the same instance.

## Main definitions

* `Netlist.Terminals.Traced`: the port that drives an output in the end.
* `Netlist.Terminals.Around`: an output that hands through what another output drives.

## Main results

* `Netlist.Terminals.drivers_ofGraph`, `Netlist.Terminals.sinksOf_ofGraph`: the terminals in terms
  of the wires inside.
* `Netlist.Terminals.source?_eq_some_iff`: the search for the driver of an output finds the port
  that drives it in the end, if there is one, although it stops at ports that it has seen.
-/

namespace Netlist.Terminals

/-! ### The terminals of a graph -/

/-- The driver that a wire to the boundary of the outputs stands for. -/
def driverOf (input : String) (e : Endpoint) : Driver :=
  if e.owner = input then .input e.port else .inside e

variable {input output : String}

private theorem drivers_addWire (t : Terminals) (w : Wire) (o : String) :
    (addWire (some input) (some output) t w).drivers.get? o =
      if w.dest = ⟨output, o⟩ then some (driverOf input w.source) else t.drivers.get? o := by
  simp only [Endpoint.eq_mk_iff, eq_comm (a := w.dest.port)]
  unfold addWire driverOf
  by_cases hd : w.dest.owner = output
  · by_cases hs : w.source.owner = input <;> simp [hs, hd, OrderedMap.get?_insert]
  · by_cases hs : w.source.owner = input <;> simp [hs, hd]

private theorem sinksOf_addWire (t : Terminals) (w : Wire) (p : String) :
    (addWire (some input) (some output) t w).sinksOf p =
      t.sinksOf p ++ if w.source = ⟨input, p⟩ ∧ w.dest.owner ≠ output then [w.dest] else [] := by
  simp only [Endpoint.eq_mk_iff, eq_comm (a := w.source.port)]
  unfold addWire sinksOf
  by_cases hd : w.dest.owner = output
  · by_cases hs : w.source.owner = input <;> simp [hs, hd]
  · by_cases hs : w.source.owner = input
    · by_cases hp : p = w.source.port <;> simp [hs, hd, hp, OrderedMap.get?_insert]
    · simp [hs, hd]

private theorem drivers_foldl_addWire {ws : List Wire} (hws : (ws.map Wire.dest).Nodup)
    {t : Terminals} {o : String} {d : Driver} :
    (ws.foldl (addWire (some input) (some output)) t).drivers.get? o = some d ↔
      (∃ e, ⟨e, ⟨output, o⟩⟩ ∈ ws ∧ d = driverOf input e) ∨
        ((∀ w ∈ ws, w.dest ≠ ⟨output, o⟩) ∧ t.drivers.get? o = some d) := by
  induction ws generalizing t with
  | nil => simp
  | cons w ws ih =>
    obtain ⟨hw, hws⟩ := List.nodup_cons.1 hws
    rw [List.foldl_cons, ih hws, drivers_addWire, List.forall_mem_cons]
    constructor
    · rintro (⟨e, he, rfl⟩ | ⟨hnot, h⟩)
      · exact Or.inl ⟨e, List.mem_cons_of_mem _ he, rfl⟩
      · split_ifs at h with hd
        · cases h
          exact Or.inl ⟨w.source, hd ▸ List.mem_cons_self, rfl⟩
        · exact Or.inr ⟨⟨hd, hnot⟩, h⟩
    · rintro (⟨e, he, rfl⟩ | ⟨⟨hd, hnot⟩, h⟩)
      · rcases List.mem_cons.1 he with rfl | he
        · refine Or.inr ⟨fun v hv hvd => hw (List.mem_map.2 ⟨v, hv, hvd⟩), ?_⟩
          rw [if_pos rfl]
        · exact Or.inl ⟨e, he, rfl⟩
      · exact Or.inr ⟨hnot, by rw [if_neg hd, h]⟩

private theorem sinksOf_foldl_addWire (ws : List Wire) (t : Terminals) (p : String) :
    (ws.foldl (addWire (some input) (some output)) t).sinksOf p =
      t.sinksOf p ++
        (ws.filter fun w => w.source = ⟨input, p⟩ ∧ w.dest.owner ≠ output).map Wire.dest := by
  induction ws generalizing t with
  | nil => simp
  | cons w ws ih =>
    rw [List.foldl_cons, ih, sinksOf_addWire, List.append_assoc]
    congr 1
    by_cases hw : w.source = ⟨input, p⟩ ∧ w.dest.owner ≠ output
    · rw [if_pos hw, List.filter_cons_of_pos (by simpa using hw)]
      rfl
    · rw [if_neg hw, List.filter_cons_of_neg (by simpa using hw)]
      rfl

section OfGraph

variable {module : String} {g : Graph}

private theorem ofGraph_eq (h : g.Framed module input output) :
    ofGraph g = g.wires.foldl (addWire (some input) (some output)) ⟨.empty, .empty⟩ := by
  rw [ofGraph, h.withRole?_input, h.withRole?_output]
  rfl

/-- The driver of an output is the source of the wire that ends there. -/
theorem drivers_ofGraph (h : g.Framed module input output) (hg : g.WellFormed) {o : String}
    {d : Driver} :
    (ofGraph g).drivers.get? o = some d ↔
      ∃ e, ⟨e, ⟨output, o⟩⟩ ∈ g.wires ∧ d = driverOf input e := by
  rw [ofGraph_eq h, drivers_foldl_addWire hg.nodup_dests]
  exact or_iff_left fun hd => by simp at hd

theorem drivers_ofGraph_inside (h : g.Framed module input output) (hg : g.WellFormed)
    {o : String} {e : Endpoint} :
    (ofGraph g).drivers.get? o = some (.inside e) ↔
      ⟨e, ⟨output, o⟩⟩ ∈ g.wires ∧ e.owner ≠ input := by
  rw [drivers_ofGraph h hg]
  constructor
  · rintro ⟨e', he, hd⟩
    unfold driverOf at hd
    split_ifs at hd with hi
    cases hd
    exact ⟨he, hi⟩
  · rintro ⟨he, hi⟩
    exact ⟨e, he, by rw [driverOf, if_neg hi]⟩

theorem drivers_ofGraph_input (h : g.Framed module input output) (hg : g.WellFormed)
    {o i : String} :
    (ofGraph g).drivers.get? o = some (.input i) ↔ ⟨⟨input, i⟩, ⟨output, o⟩⟩ ∈ g.wires := by
  rw [drivers_ofGraph h hg]
  constructor
  · rintro ⟨e, he, hd⟩
    unfold driverOf at hd
    split_ifs at hd with hi
    cases hd
    exact hi ▸ he
  · intro he
    exact ⟨_, he, by rw [driverOf, if_pos rfl]⟩

/-- The sinks of an input are the ends of the wires that begin there, those at the boundary of the
outputs apart. -/
theorem sinksOf_ofGraph (h : g.Framed module input output) (p : String) :
    (ofGraph g).sinksOf p =
      (g.wires.filter fun w => w.source = ⟨input, p⟩ ∧ w.dest.owner ≠ output).map Wire.dest := by
  rw [ofGraph_eq h, sinksOf_foldl_addWire]
  rfl

theorem mem_sinksOf_ofGraph (h : g.Framed module input output) {p : String} {e : Endpoint} :
    e ∈ (ofGraph g).sinksOf p ↔ ⟨⟨input, p⟩, e⟩ ∈ g.wires ∧ e.owner ≠ output := by
  simp only [sinksOf_ofGraph h, List.mem_map, List.mem_filter, decide_eq_true_eq]
  constructor
  · rintro ⟨⟨s, d⟩, ⟨hw, rfl, hd⟩, rfl⟩
    exact ⟨hw, hd⟩
  · rintro ⟨hw, hd⟩
    exact ⟨_, ⟨hw, rfl, hd⟩, rfl⟩

theorem nodup_sinksOf_ofGraph (h : g.Framed module input output) (hg : g.WellFormed) (p : String) :
    ((ofGraph g).sinksOf p).Nodup := by
  rw [sinksOf_ofGraph h]
  exact hg.nodup_dests.sublist (List.filter_sublist.map _)

/-- No port is a sink of two inputs. -/
theorem eq_of_mem_sinksOf (h : g.Framed module input output) (hg : g.WellFormed) {p q : String}
    {e : Endpoint} (hp : e ∈ (ofGraph g).sinksOf p) (hq : e ∈ (ofGraph g).sinksOf q) : p = q := by
  have hw := hg.eq_of_dest_eq ((mem_sinksOf_ofGraph h).1 hp).1 ((mem_sinksOf_ofGraph h).1 hq).1 rfl
  cases hw
  rfl

end OfGraph

/-! ### Drivers of outputs, followed to the end -/

section Trace

variable {t : Terminals} {g : Graph} {name : String} {inner : Endpoint → Endpoint}

/-- The port that drives an output of the instance `name` in the end: a port inside, under its
outer name, or the driver of an input that is handed through. If the latter is an output of the
instance itself, it is what drives that output. -/
inductive Traced (t : Terminals) (g : Graph) (name : String) (inner : Endpoint → Endpoint) :
    String → Endpoint → Prop
  | inside {o : String} {e : Endpoint} (ho : t.drivers.get? o = some (.inside e)) :
      Traced t g name inner o (inner e)
  | through {o i : String} {e : Endpoint} (ho : t.drivers.get? o = some (.input i))
      (hi : g.driver? name i = some e) (he : e.owner ≠ name) : Traced t g name inner o e
  | around {o i o' : String} {e : Endpoint} (ho : t.drivers.get? o = some (.input i))
      (hi : g.driver? name i = some ⟨name, o'⟩) (h : Traced t g name inner o' e) :
      Traced t g name inner o e

/-- An output hands through what another output of the instance drives. -/
def Around (t : Terminals) (g : Graph) (name o o' : String) : Prop :=
  ∃ i, t.drivers.get? o = some (.input i) ∧ g.driver? name i = some ⟨name, o'⟩

/-- Each output hands through at most one other. -/
theorem Around.unique {o o' o'' : String} (h : Around t g name o o')
    (h' : Around t g name o o'') : o' = o'' := by
  obtain ⟨i, ho, hi⟩ := h
  obtain ⟨j, ho', hj⟩ := h'
  cases ho.symm.trans ho'
  cases hi.symm.trans hj
  rfl

/-- An output that is driven in the end does not lead back to itself. -/
theorem Traced.not_transGen {o : String} {e : Endpoint} (h : Traced t g name inner o e) :
    ¬Relation.TransGen (Around t g name) o o := by
  induction h with
  | inside ho =>
    intro hloop
    obtain ⟨_, ⟨i, ho', -⟩, -⟩ := Relation.TransGen.head'_iff.1 hloop
    cases ho.symm.trans ho'
  | through ho hi he =>
    intro hloop
    obtain ⟨o', ⟨i, ho', hi'⟩, -⟩ := Relation.TransGen.head'_iff.1 hloop
    cases ho.symm.trans ho'
    cases hi.symm.trans hi'
    exact he rfl
  | @around o i o' e ho hi _ ih =>
    intro hloop
    -- the way from `o` back to `o` begins with the step to `o'`
    obtain ⟨o'', hstep, hback⟩ := Relation.TransGen.head'_iff.1 hloop
    have hone : Around t g name o o' := ⟨i, ho, hi⟩
    rw [hstep.unique hone] at hback
    exact ih (Relation.TransGen.tail' hback hone)

private theorem traced_of_source? {seen : List String} {o : String} {e : Endpoint}
    (h : t.source? g name inner seen o = some e) : Traced t g name inner o e := by
  fun_induction source? t g name inner seen o with
  | case1 => cases h
  | case2 seen o source ho =>
    cases h
    exact .inside ho
  | case3 => cases h
  | case4 seen o i ho producer hi hne =>
    cases h
    exact .through ho hi hne
  | case5 => cases h
  | case6 seen o i ho producer hi hown hseen ih =>
    have hown : producer.owner = name := not_not.1 hown
    have hp : producer = ⟨name, producer.port⟩ := Endpoint.eq_mk_iff.2 ⟨hown, rfl⟩
    exact .around ho (hp ▸ hi) (ih h)

private theorem source?_of_traced {o : String} {e : Endpoint} (h : Traced t g name inner o e)
    {seen : List String} (hseen : ∀ s ∈ seen, ¬Relation.TransGen (Around t g name) o s) :
    t.source? g name inner seen o = some e := by
  induction h generalizing seen with
  | inside ho =>
    rw [source?]
    split <;> rename_i ho' <;> cases ho.symm.trans ho'
    rfl
  | through ho hi he =>
    rw [source?]
    split <;> rename_i ho' <;> cases ho.symm.trans ho'
    simp only [hi, if_pos he]
  | @around o i o' e ho hi h ih =>
    have hone : Around t g name o o' := ⟨i, ho, hi⟩
    have hnew : o' ∉ seen := fun hs => hseen o' hs (.single hone)
    rw [source?]
    split <;> rename_i ho' <;> cases ho.symm.trans ho'
    simp only [hi, ne_eq, not_true_eq_false, if_false, if_neg hnew]
    refine ih fun s hs hreach => ?_
    rcases List.mem_append.1 hs with hs | hs
    · exact hseen s hs (.head hone hreach)
    · exact h.not_transGen (List.mem_singleton.1 hs ▸ hreach)

/-- The search finds the port that drives an output in the end, if there is one. -/
theorem source?_eq_some_iff {o : String} {e : Endpoint} :
    t.source? g name inner [] o = some e ↔ Traced t g name inner o e :=
  ⟨traced_of_source?, fun h => source?_of_traced h fun _ hs => (nomatch hs)⟩

end Trace

end Netlist.Terminals
