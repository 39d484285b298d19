import Netlist.Document.Catalog
import Netlist.Proofs.Json.RoundTrip
import Netlist.Proofs.OrderedMap
import Netlist.Proofs.Sequencing

/-!
# Documents as values

A document is written as a value with a member for each field, and the value tells the document.

## Main results

* `Netlist.Json.record?_ofMembers`: the fields of a record are found where they were written.
* `Netlist.OrderedMap.ofJson?_toJson`: a map is read back in its order.
* `Netlist.GraphDocument.ofJson?_toJson`, `Netlist.CatalogDocument.ofJson?_toJson`: documents are
  read back.
-/

namespace Netlist

/-! ### Records and maps -/

namespace Json

@[simp] theorem members?_ofMembers (ms : List (String × Json)) :
    (ofMembers ms).members? = some ms :=
  mapM_map_eq_some_self (f := fun m : Option String × Json => m.1.map (·, m.2)) fun _ _ => rfl

private theorem filter_name_eq {m : String × Json} : {ms : List (String × Json)} →
    (ms.map Prod.fst).Nodup → m ∈ ms → (ms.filter fun k => k.1 = m.1) = [m]
  | k :: ms, hms, hm => by
    obtain ⟨hk, hms⟩ := List.nodup_cons.1 hms
    rcases List.mem_cons.1 hm with rfl | hm
    · rw [List.filter_cons_of_pos (by simp), List.filter_eq_nil_iff.2]
      intro k' hk' he
      exact hk (List.mem_map.2 ⟨k', hk', by simpa using he⟩)
    · have hne : k.1 ≠ m.1 := fun he => hk (List.mem_map.2 ⟨m, hm, he.symm⟩)
      rw [List.filter_cons_of_neg (by simpa using hne), filter_name_eq hms hm]

/-- The fields of a record are found where they were written. -/
theorem record?_ofMembers (fields : List String) (values : List Json) (hfields : fields.Nodup)
    (hlength : fields.length = values.length) :
    (ofMembers (fields.zip values)).record? fields = some (values.map some) := by
  have hfst : (fields.zip values).map Prod.fst = fields := List.map_fst_zip hlength.le
  have hsnd : (fields.zip values).map Prod.snd = values := List.map_snd_zip hlength.ge
  have hrecord : (ofMembers (fields.zip values)).record? fields =
      (ofMembers (fields.zip values)).members?.bind (fieldsOfMembers? fields) := rfl
  have hmaps : fieldsOfMembers? ((fields.zip values).map Prod.fst) (fields.zip values) =
      some ((fields.zip values).map fun m => some m.2) :=
    mapM_map_eq_some fun m hm => by rw [filter_name_eq (hfst.symm ▸ hfields) hm]
  rw [hfst] at hmaps
  rw [hrecord, members?_ofMembers, Option.bind_some, hmaps]
  exact congrArg some ((List.map_map (g := some)).symm.trans (congrArg (List.map some) hsnd))

end Json

namespace OrderedMap

variable {α : Type}

/-- A map is read back in its order, if its values are read back. -/
theorem ofJson?_toJson {f : Json → Option α} {g : α → Json} {m : OrderedMap α}
    (hfg : ∀ e ∈ m.entries, f (g e.2) = some e.2) : ofJson? f (m.toJson g) = some m := by
  have hes : (m.entries.map fun e => (e.1, g e.2)).mapM (fun e => (f e.2).map (e.1, ·)) =
      some m.entries :=
    mapM_map_eq_some_self fun e he => congrArg (Option.map (e.1, ·)) (hfg e he)
  rw [ofJson?, toJson, Json.members?_ofMembers, Option.bind_eq_bind, Option.bind_some, hes,
    Option.bind_eq_bind, Option.bind_some, ofList_entries]
  rfl

end OrderedMap

/-! ### Graphs -/

theorem Role.ofJson?_text (r : Role) : ofJson? (.text r.text) = some r := by
  cases r <;> decide

namespace GraphDocument

private theorem nodeOfJson?_nodeToJson (i : Instance) : nodeOfJson? (nodeToJson i) = some i := by
  have hfields : (nodeToJson i).record? ["id", "module_name", "role"] =
      some [some (.text i.name), some (.text i.module), some (.text i.role.text)] :=
    Json.record?_ofMembers ["id", "module_name", "role"]
      [.text i.name, .text i.module, .text i.role.text] (by decide) rfl
  simp only [nodeOfJson?, hfields, Role.ofJson?_text, Option.bind_eq_bind, Option.bind_some]
  rfl

private theorem linkOfJson?_linkToJson (l : Bundle) : linkOfJson? (linkToJson l) = some l := by
  have hfields : (linkToJson l).record? ["source", "target", "port_connections"] =
      some [some (.text l.source), some (.text l.dest), some (bindingsToJson l.bindings)] :=
    Json.record?_ofMembers ["source", "target", "port_connections"]
      [.text l.source, .text l.dest, bindingsToJson l.bindings] (by decide) rfl
  have hbindings : (l.bindings.map fun b => Json.array [.text b.source, .text b.dest]).mapM
      bindingOfJson? = some l.bindings :=
    mapM_map_eq_some_self fun _ _ => rfl
  simp only [linkOfJson?, hfields, bindingsToJson, Json.elements?, hbindings, Option.bind_eq_bind,
    Option.bind_some]
  rfl

/-- The document of a graph is read back. -/
theorem ofJson?_toJson (d : GraphDocument) : ofJson? d.toJson = some d := by
  have hfields : d.toJson.record? ["directed", "nodes", "links"] =
      some [some (.bool d.directed), some (.array (d.nodes.map nodeToJson)),
        some (.array (d.links.map linkToJson))] :=
    Json.record?_ofMembers ["directed", "nodes", "links"] [.bool d.directed,
      .array (d.nodes.map nodeToJson), .array (d.links.map linkToJson)] (by decide) rfl
  have hnodes : (d.nodes.map nodeToJson).mapM nodeOfJson? = some d.nodes :=
    mapM_map_eq_some_self fun i _ => nodeOfJson?_nodeToJson i
  have hlinks : (d.links.map linkToJson).mapM linkOfJson? = some d.links :=
    mapM_map_eq_some_self fun l _ => linkOfJson?_linkToJson l
  simp only [ofJson?, hfields, Json.elements?, hnodes, hlinks, Option.bind_eq_bind,
    Option.bind_some]
  rfl

end GraphDocument

/-! ### Catalogs -/

theorem PortType.ofJson?_toJson (t : PortType) : ofJson? t.toJson = some t := by
  cases t with
  | bits width =>
    rw [toJson, ofJson?, if_pos width.toNat_lt_size, UInt32.ofNat_toNat]
  | named name => rfl

namespace CatalogDocument

theorem portsOfJson?_portsToJson (ports : Ports) : portsOfJson? (portsToJson ports) = some ports :=
  OrderedMap.ofJson?_toJson fun e _ => PortType.ofJson?_toJson e.2

private theorem typesOfJson?_typesToJson (types : TypeTable) :
    typesOfJson? (typesToJson types) = some types :=
  OrderedMap.ofJson?_toJson fun e _ => portsOfJson?_portsToJson e.2

private theorem moduleOfJson?_moduleToJson (r : ModuleRecord) :
    moduleOfJson? (moduleToJson r) = some r := by
  obtain ⟨inputs, outputs, isLeaf, body⟩ := r
  have hfields (j : Json) : (Json.ofMembers [("input_ports", portsToJson inputs),
      ("output_ports", portsToJson outputs), ("is_leaf", .bool isLeaf),
      ("internal_graph", j)]).record? ["input_ports", "output_ports", "is_leaf", "internal_graph"] =
        some [some (portsToJson inputs), some (portsToJson outputs), some (.bool isLeaf), some j] :=
    Json.record?_ofMembers ["input_ports", "output_ports", "is_leaf", "internal_graph"]
      [portsToJson inputs, portsToJson outputs, .bool isLeaf, j] (by decide) rfl
  cases body with
  | none =>
    simp only [moduleOfJson?, moduleToJson, hfields, portsOfJson?_portsToJson,
      Option.bind_eq_bind, Option.bind_some]
    rfl
  | some d =>
    have hd := GraphDocument.ofJson?_toJson d
    -- an object, so not mistaken for the value of a missing inside
    obtain ⟨ms, hms⟩ : ∃ ms, d.toJson = .object ms := ⟨_, rfl⟩
    rw [hms] at hd
    simp only [moduleOfJson?, moduleToJson, hfields, portsOfJson?_portsToJson, hms, hd,
      Option.bind_eq_bind, Option.bind_some, Option.map_some]
    rfl

/-- The document of a catalog is read back. -/
theorem ofJson?_toJson (d : CatalogDocument) : ofJson? d.toJson = some d := by
  have hfields : d.toJson.record? ["types", "modules"] =
      some [some (typesToJson d.types), some (d.modules.toJson moduleToJson)] :=
    Json.record?_ofMembers ["types", "modules"]
      [typesToJson d.types, d.modules.toJson moduleToJson] (by decide) rfl
  have hmodules : OrderedMap.ofJson? moduleOfJson? (d.modules.toJson moduleToJson) =
      some d.modules :=
    OrderedMap.ofJson?_toJson fun e _ => moduleOfJson?_moduleToJson e.2
  simp only [ofJson?, hfields, typesOfJson?_typesToJson, hmodules, Option.bind_eq_bind,
    Option.bind_some]
  rfl

end CatalogDocument

end Netlist
