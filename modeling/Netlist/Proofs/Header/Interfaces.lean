import Netlist.Proofs.Catalog.Leaves
import Netlist.Proofs.Header.Slices

/-!
# Interfaces of header texts

What is cut out of a text as a name is an identifier, a range has one bit at least, and no port is
declared twice. So the interfaces that a text declares are legal as far as this can be told without
a catalog: if one of them is refused by a catalog, then for its name or for a type that it refers
to.

## Main definitions

* `Netlist.Interface.Legal`: an interface is legal but for the types that it refers to.
* `Netlist.Header.Gives`: an interface has the ports that a header declares.

## Main results

* `Netlist.Header.toInterface_eq_ok_iff`: the interface of a header.
* `Netlist.Header.legal_of_readInterfaces`: the interfaces of a text.
* `Netlist.Catalog.registerHeaders_legal`: what comes of registering the leaves of a text.
-/

namespace Netlist

/-- An interface is legal but for the types that it refers to: it is named by an identifier, and so
are its ports, none of which has no width or two directions. -/
structure Interface.Legal (i : Interface) : Prop where
  name : isIdentifier i.name = true
  port : ∀ d, ∀ p ∈ (i.ports d).entries, isIdentifier p.1 = true ∧ p.2 ≠ .bits 0
  disjoint : ∀ port ∈ i.inputs.keys, port ∉ i.outputs.keys

namespace Header

variable {ts : List Token} {inherited : Option Direction} {p : Port} {ps : List Port}
  {header : Header} {hs : List Header} {i : Interface} {is : List Interface}

/-! ### Names and widths -/

/-- A port has an identifier as its name, and a width that is not zero or a named type. -/
def Port.Legal (p : Port) : Prop :=
  isIdentifier p.name = true ∧ p.type ≠ .bits 0

/-- The highest bit of a range is bit zero at least. -/
theorem IsType.ne_zero {type : PortType} (h : IsType ts type) : type ≠ .bits 0 := by
  cases h with
  | @range _ _ _ _ _ n _ _ _ _ _ _ _ hwidth =>
    intro heq
    have hvalue : (UInt32.ofNat (n + 1)).toNat = n + 1 := UInt32.toNat_ofNat_of_lt hwidth
    rw [PortType.bits.inj heq] at hvalue
    cases hvalue
  | named => exact nofun
  | none => exact nofun

theorem IsPort.legal (h : IsPort inherited ts p) (hts : ∀ t ∈ ts, t.kind.Spells t.text) :
    p.Legal := by
  cases h with
  | @mk _ _ _ name _ _ _ _ hty hname =>
    have hspells := hts name (by simp)
    rw [hname] at hspells
    exact ⟨hspells.1, hty.ne_zero⟩

theorem IsPorts.legal (h : IsPorts inherited ts ps) (hts : ∀ t ∈ ts, t.kind.Spells t.text) :
    ∀ p ∈ ps, p.Legal := by
  induction h with
  | last hp => exact List.forall_mem_singleton.2 (hp.legal hts)
  | cons hp _ _ ih =>
    obtain ⟨hport, hrest⟩ := List.forall_mem_append.1 hts
    exact List.forall_mem_cons.2 ⟨hp.legal hport, ih (List.forall_mem_cons.1 hrest).2⟩

/-- A header and its ports are named by identifiers, and no port is without width. -/
theorem IsHeader.legal (h : IsHeader ts header) (hts : ∀ t ∈ ts, t.kind.Spells t.text) :
    isIdentifier header.name = true ∧ ∀ p ∈ header.ports, p.Legal := by
  cases h with
  | @mk _ name _ _ _ ts _ _ _ hname _ hps =>
    have hspells := hts name (by simp)
    rw [hname] at hspells
    refine ⟨hspells.1, ?_⟩
    cases hps with
    | empty => exact nofun
    | ports hps => exact hps.legal fun t ht => hts t (by simp [ht])

/-- The headers of a text. -/
theorem legal_of_readAll {source : String} (h : readAll source = .ok hs) :
    ∀ header ∈ hs, isIdentifier header.name = true ∧ ∀ p ∈ header.ports, p.Legal := by
  obtain ⟨body, stop, htokens, hfile⟩ := readAll_eq_ok_iff.1 h
  have hspells := fun t ht => (isLayout_of_tokens htokens).spells (t := t) ht
  obtain ⟨tss, rfl, htss⟩ := hfile.exists_segments
  intro header hheader
  obtain ⟨ts, hts, hheader⟩ := exists_mem_of_forall₂ htss hheader
  exact hheader.legal fun t ht =>
    hspells t (List.mem_append_left _ (List.mem_flatten_of_mem hts ht))

/-! ### Interfaces -/

/-- An interface has the ports that a header declares, each of them once: those of a direction in
the order in which the header declares them. -/
structure Gives (header : Header) (i : Interface) : Prop where
  name : i.name = header.name
  distinct : (header.ports.map Port.name).Nodup
  entries : ∀ d, (i.ports d).entries = (header.portsWith d).map fun p => (p.name, p.type)

theorem entries_portMap (h : (header.ports.map Port.name).Nodup) (d : Direction) :
    (header.portMap d).entries = (header.portsWith d).map fun p => (p.name, p.type) := by
  refine OrderedMap.entries_ofList ?_
  rw [List.map_map]
  exact h.sublist (List.filter_sublist.map _)

/-- A header that declares no port twice gives an interface. -/
theorem toInterface_eq_ok_iff : header.toInterface = .ok i ↔ header.Gives i := by
  unfold toInterface
  cases hrepeat : firstRepeat [] (header.ports.map Port.name) with
  | some port =>
    refine iff_of_false (by simp) fun h => ?_
    rw [firstRepeat_eq_none_iff.2 ⟨h.distinct, fun _ _ => List.not_mem_nil⟩] at hrepeat
    cases hrepeat
  | none =>
    have hdistinct := (firstRepeat_eq_none_iff.1 hrepeat).1
    constructor
    · rintro h
      cases h
      exact ⟨rfl, hdistinct, fun d => by cases d <;> exact entries_portMap hdistinct _⟩
    · rintro ⟨hname, -, hentries⟩
      obtain ⟨name, inputs, outputs⟩ := i
      obtain rfl : name = header.name := hname
      obtain rfl : inputs = header.portMap .input :=
        OrderedMap.ext_entries ((hentries .input).trans (entries_portMap hdistinct _).symm)
      obtain rfl : outputs = header.portMap .output :=
        OrderedMap.ext_entries ((hentries .output).trans (entries_portMap hdistinct _).symm)
      rfl

/-- No port of a header is an input and an output. -/
theorem Gives.disjoint (h : header.Gives i) : ∀ port ∈ i.inputs.keys, port ∉ i.outputs.keys := by
  have hkeys (d : Direction) :
      (i.ports d).keys = (header.portsWith d).map Port.name := by
    rw [OrderedMap.keys, h.entries, List.map_map]
    rfl
  intro port hin hout
  change port ∈ (i.ports .input).keys at hin
  change port ∈ (i.ports .output).keys at hout
  rw [hkeys] at hin hout
  obtain ⟨p, hp, rfl⟩ := List.mem_map.1 hin
  obtain ⟨q, hq, hname⟩ := List.mem_map.1 hout
  obtain ⟨hp, hinput⟩ := List.mem_filter.1 hp
  obtain ⟨hq, houtput⟩ := List.mem_filter.1 hq
  rw [List.inj_on_of_nodup_map h.distinct hq hp hname] at houtput
  rw [decide_eq_true_iff] at hinput houtput
  cases hinput.symm.trans houtput

theorem Gives.legal (h : header.Gives i) (hname : isIdentifier header.name = true)
    (hports : ∀ p ∈ header.ports, p.Legal) : i.Legal where
  name := h.name ▸ hname
  port d e he := by
    rw [h.entries] at he
    obtain ⟨p, hp, rfl⟩ := List.mem_map.1 he
    exact hports p (List.mem_of_mem_filter hp)
  disjoint := h.disjoint

/-- The interfaces that a text declares are those of its headers. -/
theorem readInterfaces_eq_ok_iff {source : String} : readInterfaces source = .ok is ↔
    ∃ hs, readAll source = .ok hs ∧ List.Forall₂ Gives hs is := by
  unfold readInterfaces
  simp only [bind_eq_ok_iff, mapM_eq_ok_iff, toInterface_eq_ok_iff]

/-- The interfaces that a text declares are legal but for the types that they refer to. -/
theorem legal_of_readInterfaces {source : String} (h : readInterfaces source = .ok is) :
    ∀ i ∈ is, i.Legal := by
  obtain ⟨hs, hread, hgives⟩ := readInterfaces_eq_ok_iff.1 h
  intro i hi
  obtain ⟨header, hheader, hgives⟩ := exists_mem_of_forall₂ hgives hi
  obtain ⟨hname, hports⟩ := legal_of_readAll hread header hheader
  exact hgives.legal hname hports

end Header

/-! ### Registering -/

namespace Catalog

variable {c d : Catalog} {types : TypeTable} {e : Error} {i : Interface}

/-- If the ports of a legal interface are refused, then for a type that is not known. -/
theorem IllegalPorts.eq_unknownType (h : IllegalPorts types i.name i.inputs i.outputs e)
    (hi : i.Legal) : ∃ port type, e = .unknownType i.name port type := by
  have hport : ∀ p ∈ i.inputs.entries ++ i.outputs.entries,
      isIdentifier p.1 = true ∧ p.2 ≠ .bits 0 :=
    List.forall_mem_append.2 ⟨hi.port .input, hi.port .output⟩
  cases h with
  | @port front back p _ hentries _ hp =>
    obtain ⟨hname, hwidth⟩ := hport p (by rw [hentries]; simp)
    cases hp with
    | name h => exact absurd hname h
    | width => exact absurd rfl hwidth
    | type => exact ⟨_, _, rfl⟩
  | @twofold front back port _ hkeys _ hout =>
    exact absurd hout (hi.disjoint port (by rw [hkeys]; simp))

/-- The leaves of a text are read and then registered. -/
theorem runOn_registerHeaders (source text : String) (c : Catalog) :
    (registerHeaders source text).runOn c = match interfacesOf source text with
      | .ok is => (registerLeaves is).runOn c
      | .error e => (.error e, c) := by
  unfold registerHeaders
  rw [Edit.runOn_bind, Edit.runOn_query]
  cases interfacesOf source text <;> rfl

/-- The interfaces that a text declares are those of its headers and legal but for the types that
they refer to. So the leaves of any text are registered, or they are refused because nothing is
read from the text, a name is known already or a type is not known; and if they are refused, the
catalog is left as it was. -/
theorem registerHeaders_legal (text : String) :
    (∀ is, Header.readInterfaces text = .ok is →
      (∃ hs, Header.readAll text = .ok hs ∧ List.Forall₂ Header.Gives hs is) ∧
        ∀ i ∈ is, i.Legal) ∧
    ∀ source c, (∃ n d, (registerHeaders source text).runOn c = (.ok n, d)) ∨
      ∃ e, (registerHeaders source text).runOn c = (.error e, c) ∧
        ((∃ cause, e = .descriptorLoadFailure source cause) ∨ (∃ name, e = .duplicateModule name) ∨
          ∃ name port type, e = .unknownType name port type) := by
  refine ⟨fun is h => ⟨Header.readInterfaces_eq_ok_iff.1 h, Header.legal_of_readInterfaces h⟩,
    fun source c => ?_⟩
  rw [runOn_registerHeaders]
  cases hread : interfacesOf source text with
  | error e =>
    obtain ⟨cause, -, rfl⟩ := mapError_eq_error_iff.1 hread
    exact .inr ⟨_, rfl, .inl ⟨_, rfl⟩⟩
  | ok is =>
    have hlegal := Header.legal_of_readInterfaces (mapError_eq_ok_iff.1 hread)
    dsimp only
    rw [runOn_registerLeaves]
    cases hadd : c.addLeaves is with
    | ok d => exact .inl ⟨_, d, rfl⟩
    | error e =>
      refine .inr ⟨e, rfl, .inr ?_⟩
      obtain ⟨front, i, back, rfl, -, hi⟩ := addLeaves_eq_error_iff.1 hadd
      cases hi with
      | known => exact .inl ⟨_, rfl⟩
      | illegal _ hports => exact .inr ⟨_, hports.eq_unknownType (hlegal i (by simp))⟩

/-- One port inherits its direction and another one refers to a type that is not known. -/
theorem registerHeaders_legal_bus :
    Header.readInterfaces "module m(input [7:0] a, b, output bus c);" =
      .ok [⟨"m", .ofList [("a", .bits 8), ("b", .bits 1)], .ofList [("c", .named "bus")]⟩] ∧
    (∀ i ∈ [(⟨"m", .ofList [("a", .bits 8), ("b", .bits 1)], .ofList [("c", .named "bus")]⟩ :
      Interface)], i.Legal) ∧
    (registerHeaders "m.v" "module m(input [7:0] a, b, output bus c);").runOn .empty =
      (.error (.unknownType "m" "c" "bus"), .empty) := by
  have hread : Header.readInterfaces "module m(input [7:0] a, b, output bus c);" =
      .ok [⟨"m", .ofList [("a", .bits 8), ("b", .bits 1)], .ofList [("c", .named "bus")]⟩] := by
    decide_cbv
  exact ⟨hread, ((registerHeaders_legal _).1 _ hread).2, by decide_cbv⟩

end Catalog

end Netlist
