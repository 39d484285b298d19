import Mathlib.Data.List.Induction
import Netlist.Graph.Call
import Netlist.Proofs.Wiring
import Netlist.Sample

/-!
# Requests for bindings

A request names two instances and the bindings to be made between them. The bindings are checked
one after the other, each against the graph and the bindings before it, and they are made together
if none of them is at fault.

## Main definitions

* `Netlist.Instance.Offers`, `Netlist.Instance.Withholds`: an instance offers a port for a use, or
  does not.
* `Netlist.Graph.Acceptable`: bindings that can be made between two instances.
* `Netlist.Graph.Faulty`: a binding is at fault.
* `Netlist.Graph.Refused`: a request is refused.
* `Netlist.Graph.Joined`: what becomes of the links when bindings are made.

## Main results

* `Netlist.Graph.connect_eq_error_iff`: which error a refused request gives.
* `Netlist.Graph.joined_bind`: all bindings go to the end of one link.
* `Netlist.Graph.connect_joins_or_refuses`: which requests are met, and what becomes of the others.
-/

namespace Netlist

/-! ### Ports as instances offer them -/

namespace Instance

/-- An instance offers a port of a type for a use: its module declares the port with this type, in
the direction that the role of the instance turns into the use. -/
def Offers (c : Catalog) (i : Instance) (port : String) (used : Direction) (type : PortType) :
    Prop :=
  ∃ m d, c.module? i.module = some m ∧ i.role.declared? used = some d ∧ m.port? port d = some type

/-- An instance does not offer a port for a use, and this error tells why. -/
inductive Withholds (c : Catalog) (i : Instance) (port : String) (used : Direction) :
    Error → Prop where
  | noModule (h : c.module? i.module = none) : Withholds c i port used (.moduleNotFound i.module)
  | noPort {m : Module} (hm : c.module? i.module = some m)
      (h : ∀ d, i.role.declared? used = some d → m.port? port d = none) :
      Withholds c i port used (.portNotFound ⟨i.name, port⟩ i.module used)

end Instance

namespace Graph

variable {c : Catalog} {g g' : Graph} {i j : Instance} {s d : String} {seen bs : List Binding}
  {b : Binding} {e : Error}

theorem portType_eq_ok_iff_offers {port : String} {used : Direction} {type : PortType} :
    portType c i port used = .ok type ↔ i.Offers c port used type :=
  portType_eq_ok_iff

theorem portType_eq_error_iff {port : String} {used : Direction} :
    portType c i port used = .error e ↔ i.Withholds c port used e := by
  unfold portType
  constructor
  · intro h
    split at h
    · rename_i hm
      cases h
      exact .noModule hm
    · rename_i m hm
      split at h
      · cases h
      · rename_i hp
        cases h
        exact .noPort hm fun d hd => by rwa [hd, Option.bind_some] at hp
  · rintro (hm | ⟨hm, h⟩)
    · rw [hm]
    · rw [hm]
      cases hd : i.role.declared? used with
      | none => rfl
      | some d => simp only [Option.bind_some, h d hd]

/-! ### Requests that can be met -/

/-- Bindings that can be made between two instances: the ports at their ends are offered there with
types of the same shape, and no wire of the graph and no other binding ends where one of them
does. -/
structure Acceptable (c : Catalog) (g : Graph) (i j : Instance) (bs : List Binding) : Prop where
  offered : ∀ b ∈ bs, ∃ s t, i.Offers c b.source .output s ∧ j.Offers c b.dest .input t ∧
    c.types.Alike s t
  free : ∀ b ∈ bs, ∀ w ∈ g.wires, w.dest ≠ ⟨j.name, b.dest⟩
  distinct : (bs.map Binding.dest).Nodup

theorem fits_iff_offers : Fits c i j b ↔ ∃ s t, i.Offers c b.source .output s ∧
    j.Offers c b.dest .input t ∧ c.types.Alike s t := by
  simp only [Fits, portType_eq_ok_iff_offers]

theorem acceptable_iff : Acceptable c g i j bs ↔ (∀ b ∈ bs, Fits c i j b) ∧
    (bs.map Binding.dest).Nodup ∧ ∀ b ∈ bs, g.driver? j.name b.dest = none := by
  simp only [fits_iff_offers, driver?_eq_none_iff]
  exact ⟨fun h => ⟨h.offered, h.distinct, h.free⟩, fun ⟨h, hd, hf⟩ => ⟨h, hf, hd⟩⟩

theorem checkBindings_eq_ok_iff_acceptable :
    checkBindings c g i j [] bs = .ok () ↔ Acceptable c g i j bs := by
  simp [checkBindings_eq_ok_iff, acceptable_iff]

theorem connect_eq_ok_iff_acceptable : g.connect c s d bs = .ok g' ↔
    ∃ i j, g.instance? s = some i ∧ g.instance? d = some j ∧ Acceptable c g i j bs ∧
      g' = g.bind s d bs := by
  rw [connect_eq_ok_iff]
  refine exists₂_congr fun i j => and_congr_right fun _ => and_congr_right fun hj => ?_
  rw [acceptable_iff, (instance?_eq_some hj).2, and_assoc, and_assoc]

/-! ### Bindings at fault -/

/-- The ports at the ends of a binding do not go together, and this error tells why. -/
inductive Unfit (c : Catalog) (i j : Instance) (b : Binding) : Error → Prop where
  | source {e : Error} (h : i.Withholds c b.source .output e) : Unfit c i j b e
  | dest {s : PortType} {e : Error} (hs : i.Offers c b.source .output s)
      (h : j.Withholds c b.dest .input e) : Unfit c i j b e
  | mismatch {s t : PortType} (hs : i.Offers c b.source .output s) (ht : j.Offers c b.dest .input t)
      (h : ¬c.types.Alike s t) :
      Unfit c i j b (.portTypeMismatch ⟨i.name, b.source⟩ s ⟨j.name, b.dest⟩ t)

/-- A binding is at fault, given the graph and the bindings before it, and this error tells why. -/
inductive Faulty (c : Catalog) (g : Graph) (i j : Instance) (before : List Binding) (b : Binding) :
    Error → Prop where
  | unfit {e : Error} (h : Unfit c i j b e) : Faulty c g i j before b e
  | driven {w : Wire} (hfit : Fits c i j b) (hw : w ∈ g.wires) (hd : w.dest = ⟨j.name, b.dest⟩) :
      Faulty c g i j before b (.portAlreadyDriven ⟨j.name, b.dest⟩ w.source)
  | repeated {k : Binding} (hfit : Fits c i j b) (hfree : ∀ w ∈ g.wires, w.dest ≠ ⟨j.name, b.dest⟩)
      (hk : k ∈ before) (hd : k.dest = b.dest) :
      Faulty c g i j before b (.portAlreadyDriven ⟨j.name, b.dest⟩ ⟨i.name, k.source⟩)

theorem checkBinding_eq_error_iff : checkBinding c i j b = .error e ↔ Unfit c i j b e := by
  unfold checkBinding
  simp only [bind_eq_error_iff, portType_eq_error_iff, portType_eq_ok_iff_offers]
  constructor
  · rintro (h | ⟨s, hs, h | ⟨t, ht, h⟩⟩)
    · exact .source h
    · exact .dest hs h
    · split_ifs at h with hst
      cases h
      exact .mismatch hs ht hst
  · rintro (h | ⟨hs, h⟩ | ⟨hs, ht, hst⟩)
    · exact .inl h
    · exact .inr ⟨_, hs, .inl h⟩
    · exact .inr ⟨_, hs, .inr ⟨_, ht, if_neg hst⟩⟩

/-- Bindings are checked one after the other. -/
theorem checkBindings_append (as bs : List Binding) : checkBindings c g i j seen (as ++ bs) =
    (checkBindings c g i j seen as >>= fun _ => checkBindings c g i j (seen ++ as) bs) := by
  induction as generalizing seen with
  | nil => rw [List.append_nil]; rfl
  | cons a as ih =>
    simp only [List.cons_append, checkBindings, bind_assoc]
    refine bind_congr fun _ => ?_
    cases g.driver? j.name a.dest with
    | some e => rfl
    | none =>
      cases seen.find? fun s => s.dest = a.dest with
      | some s => rfl
      | none => rw [ih, List.append_assoc, List.singleton_append]

/-- Among bindings with distinct destinations, one is found under its destination. -/
theorem find?_dest_eq_some_iff (hseen : (seen.map Binding.dest).Nodup) {k : Binding}
    {port : String} :
    seen.find? (fun s => s.dest = port) = some k ↔ k ∈ seen ∧ k.dest = port := by
  constructor
  · exact fun h => ⟨List.mem_of_find?_eq_some h, by simpa using List.find?_some h⟩
  · rintro ⟨hk, rfl⟩
    obtain ⟨l, hl⟩ := Option.isSome_iff_exists.1
      (List.find?_isSome (p := fun s : Binding => s.dest = k.dest).2 ⟨k, hk, by simp⟩)
    have hd : l.dest = k.dest := by simpa using List.find?_some hl
    rw [hl, List.inj_on_of_nodup_map hseen (List.mem_of_find?_eq_some hl) hk hd]

/-- The check of one binding tells its fault. -/
theorem checkBindings_singleton_eq_error_iff (hg : g.WellFormed)
    (hseen : (seen.map Binding.dest).Nodup) :
    checkBindings c g i j seen [b] = .error e ↔ Faulty c g i j seen b e := by
  rw [checkBindings, bind_eq_error_iff, checkBinding_eq_error_iff]
  constructor
  · rintro (h | ⟨⟨⟩, hfit, h⟩)
    · exact .unfit h
    have hfit := checkBinding_eq_ok_iff.1 hfit
    split at h
    · rename_i hdriver
      cases h
      exact .driven hfit (hg.driver?_eq_some_iff.1 hdriver) rfl
    · rename_i hfree
      split at h
      · rename_i k hfind
        cases h
        obtain ⟨hk, hd⟩ := (find?_dest_eq_some_iff hseen).1 hfind
        exact .repeated hfit (driver?_eq_none_iff.1 hfree) hk hd
      · cases h
  · intro h
    cases h with
    | unfit h => exact .inl h
    | @driven w hfit hw hd =>
      have hdriver : g.driver? j.name b.dest = some w.source :=
        hg.driver?_eq_some_iff.2 (hd ▸ hw)
      exact .inr ⟨⟨⟩, checkBinding_eq_ok_iff.2 hfit, by rw [hdriver]⟩
    | @repeated k hfit hfree hk hd =>
      have hdriver : g.driver? j.name b.dest = none := driver?_eq_none_iff.2 hfree
      have hfind : seen.find? (fun s => s.dest = b.dest) = some k :=
        (find?_dest_eq_some_iff hseen).2 ⟨hk, hd⟩
      exact .inr ⟨⟨⟩, checkBinding_eq_ok_iff.2 hfit, by rw [hdriver, hfind]⟩

/-- Bindings are refused for the first one that is at fault. -/
theorem checkBindings_eq_error_iff (hg : g.WellFormed) :
    checkBindings c g i j [] bs = .error e ↔ ∃ before b after, bs = before ++ b :: after ∧
      Acceptable c g i j before ∧ Faulty c g i j before b e := by
  constructor
  · intro h
    -- from the end: either the bindings before the last one are refused, or they can be made
    induction bs using List.reverseRecOn with
    | nil => cases h
    | append_singleton bs b ih =>
      rw [checkBindings_append, bind_eq_error_iff] at h
      rcases h with h | ⟨⟨⟩, hok, h⟩
      · obtain ⟨before, b', after, rfl, hbefore, hb'⟩ := ih h
        exact ⟨before, b', after ++ [b], by simp, hbefore, hb'⟩
      · have hbs := checkBindings_eq_ok_iff_acceptable.1 hok
        exact ⟨bs, b, [], rfl, hbs, (checkBindings_singleton_eq_error_iff hg hbs.distinct).1 h⟩
  · rintro ⟨before, b, after, rfl, hbefore, hb⟩
    have herror := (checkBindings_singleton_eq_error_iff hg hbefore.distinct).2 hb
    rw [checkBindings_append, checkBindings_eq_ok_iff_acceptable.2 hbefore, ok_bind,
      List.nil_append, ← List.singleton_append, checkBindings_append, herror]
    rfl

/-- A request for bindings is refused, and this error tells why: an instance is missing, or one of
the bindings is at fault although those before it could be made. -/
inductive Refused (c : Catalog) (g : Graph) (s d : String) (bs : List Binding) :
    Error → Prop where
  | source (h : g.instance? s = none) : Refused c g s d bs (.instanceNotFound s)
  | dest {i : Instance} (hi : g.instance? s = some i) (h : g.instance? d = none) :
      Refused c g s d bs (.instanceNotFound d)
  | binding {i j : Instance} {before after : List Binding} {b : Binding} {e : Error}
      (hi : g.instance? s = some i) (hj : g.instance? d = some j)
      (hbs : bs = before ++ b :: after) (hbefore : Acceptable c g i j before)
      (hb : Faulty c g i j before b e) : Refused c g s d bs e

theorem find_eq_error_iff {name : String} :
    g.find name = .error e ↔ g.instance? name = none ∧ e = .instanceNotFound name := by
  unfold find
  cases g.instance? name <;> simp [eq_comm]

/-- A request that is refused gives the error that tells why. -/
theorem connect_eq_error_iff (hg : g.WellFormed) :
    g.connect c s d bs = .error e ↔ Refused c g s d bs e := by
  unfold connect
  simp only [bind_eq_error_iff, find_eq_error_iff, find_eq_ok_iff, checkBindings_eq_error_iff hg]
  constructor
  · rintro (⟨h, rfl⟩ | ⟨i, hi, ⟨h, rfl⟩ | ⟨j, hj, ⟨before, b, after, hbs, hbefore, hb⟩ | h⟩⟩)
    · exact .source h
    · exact .dest hi h
    · exact .binding hi hj hbs hbefore hb
    · obtain ⟨-, -, h⟩ := h
      cases h
  · rintro (h | ⟨hi, h⟩ | ⟨hi, hj, hbs, hbefore, hb⟩)
    · exact .inl ⟨h, rfl⟩
    · exact .inr ⟨_, hi, .inl ⟨h, rfl⟩⟩
    · exact .inr ⟨_, hi, .inr ⟨_, hj, .inl ⟨_, _, _, hbs, hbefore, hb⟩⟩⟩

/-! ### The one link between two instances -/

/-- What becomes of links when bindings are made from one instance to another: the one link between
them gets the bindings at its end, or there was none and a link with these bindings comes in
somewhere. All other links stay where and as they were. -/
inductive Joined (s d : String) (bs : List Binding) : List Link → List Link → Prop where
  | extended {ks ls : List Link} {l : Link} (hs : l.source = s) (hd : l.dest = d)
      (hone : ∀ k ∈ ks ++ ls, ¬(k.source = s ∧ k.dest = d)) :
      Joined s d bs (ks ++ l :: ls) (ks ++ { l with bindings := l.bindings ++ bs } :: ls)
  | added {ks ls : List Link} (slot : Nat) (hnone : ∀ k ∈ ks ++ ls, ¬(k.source = s ∧ k.dest = d)) :
      Joined s d bs (ks ++ ls) (ks ++ ⟨⟨s, d, bs⟩, slot⟩ :: ls)

/-- All bindings go to the end of one link. -/
theorem joined_bind (hone : OneLink g.links) (s d : String) (bs : List Binding) :
    Joined s d bs g.connections (g.bind s d bs).connections := by
  by_cases h : g.Linked s d
  · obtain ⟨l, hl, hs, hd⟩ := h
    obtain ⟨ks, ls, hsplit⟩ := List.append_of_mem (mem_connections.2 hl)
    have hothers : ∀ k ∈ ks ++ ls, ¬(k.source = s ∧ k.dest = d) := by
      have hone := hone.connections
      rw [hsplit, OneLink, List.pairwise_middle fun h he => h ⟨he.1.symm, he.2.symm⟩] at hone
      exact fun k hk he => (List.pairwise_cons.1 hone).1 k hk
        ⟨hs.trans he.1.symm, hd.trans he.2.symm⟩
    obtain ⟨hks, hls⟩ := List.forall_mem_append.1 hothers
    have hconnections : (g.bind s d bs).connections =
        ks ++ { l with bindings := l.bindings ++ bs } :: ls := by
      calc (g.bind s d bs).connections
          = Link.sortBySlot (g.links.map (Link.extend s d bs)) :=
            congrArg Link.sortBySlot (links_bind_of_linked ⟨l, hl, hs, hd⟩ bs)
        _ = (ks ++ l :: ls).map (Link.extend s d bs) := by
            rw [Link.sortBySlot_map (f := Link.extend s d bs) fun _ => rfl, ← hsplit, connections]
        _ = ks ++ { l with bindings := l.bindings ++ bs } :: ls := by
            rw [List.map_append, List.map_cons, map_extend_of_unlinked hks,
              map_extend_of_unlinked hls, Link.extend_of_ends_eq hs hd]
    rw [hsplit, hconnections]
    exact .extended hs hd hothers
  · obtain ⟨slot, hlinks⟩ := links_bind_of_not_linked h bs
    obtain ⟨ks, ls, hsplit, hinsert⟩ :=
      Link.exists_insertBySlot_eq ⟨⟨s, d, bs⟩, slot⟩ g.connections
    have hnone : ∀ k ∈ ks ++ ls, ¬(k.source = s ∧ k.dest = d) :=
      fun k hk he => h ⟨k, mem_connections.1 (hsplit ▸ hk), he⟩
    have hconnections : (g.bind s d bs).connections = ks ++ ⟨⟨s, d, bs⟩, slot⟩ :: ls := by
      rw [← hinsert, connections, hlinks]
      rfl
    rw [hsplit, hconnections]
    exact .added slot hnone

/-- Bindings can be made between two instances of the graph if each leads from an output of the one
to an input of the other, as they offer them, of a type of the same shape, and ends where no wire
and no other binding ends. Then the wires are the old ones and those of the bindings, which are at
the end of the one link between the instances, in order, and all instances and all other links are
as they were. If not, the error tells what is wrong with the first binding that cannot be made after
those before it, or which instance is missing, and the graph is as it was. -/
theorem connect_joins_or_refuses (hg : g.WellFormed) (c : Catalog) (s d : String)
    (bs : List Binding) :
    ((∃ g', g.connect c s d bs = .ok g') ↔ ∃ i j, g.instance? s = some i ∧
      g.instance? d = some j ∧ Acceptable c g i j bs) ∧
    (∀ g', g.connect c s d bs = .ok g' → g'.instances = g.instances ∧
      g'.wires.Perm (g.wires ++ (⟨s, d, bs⟩ : Bundle).wires) ∧
      Joined s d bs g.connections g'.connections) ∧
    (∀ e, g.connect c s d bs = .error e ↔ Refused c g s d bs e) ∧
    ∀ e, g.connect c s d bs = .error e → g.after [.connect c s d bs] = g := by
  refine ⟨⟨?_, ?_⟩, fun g' h => ?_, fun e => connect_eq_error_iff hg, fun e h => ?_⟩
  · rintro ⟨g', h⟩
    obtain ⟨i, j, hi, hj, hbs, -⟩ := connect_eq_ok_iff_acceptable.1 h
    exact ⟨i, j, hi, hj, hbs⟩
  · rintro ⟨i, j, hi, hj, hbs⟩
    exact ⟨_, connect_eq_ok_iff_acceptable.2 ⟨i, j, hi, hj, hbs, rfl⟩⟩
  · obtain ⟨_, _, _, _, _, rfl⟩ := connect_eq_ok_iff_acceptable.1 h
    exact ⟨instances_bind g s d bs, wires_bind_perm hg.oneLink s d bs,
      joined_bind hg.oneLink s d bs⟩
  · rw [after, List.foldl_cons, List.foldl_nil, call, h]

end Graph

namespace Sample

/-- A leaf with more ports than one for each direction. -/
def mixer : Module :=
  ⟨.ofList [("a", .bits 8), ("b", .bits 8), ("c", .bits 8)],
    .ofList [("x", .bits 8), ("y", .bits 8)], none⟩

/-- The catalog with this leaf alone. -/
def mixers : Catalog :=
  ⟨.empty, .ofList [("mixer", mixer)]⟩

/-- Two such leaves that drive each other, and a boundary. -/
def mixed : Graph where
  instances := [⟨"p", "mixer", .cell⟩, ⟨"q", "mixer", .cell⟩, ⟨"in", "mixer", .inputBoundary⟩]
  links := [⟨⟨"q", "p", [⟨"y", "a"⟩]⟩, 1⟩, ⟨⟨"p", "q", [⟨"x", "a"⟩]⟩, 0⟩]
  freed := []

theorem mixed_wellFormed : mixed.WellFormed where
  nodup_names := by decide
  ends_mem := by
    rintro s d ⟨l, hl, rfl, rfl⟩
    revert l
    decide
  oneLink := by
    refine List.pairwise_pair.2 ?_
    decide
  nodup_dests := by decide

end Sample

namespace Graph

theorem connect_joins_or_refuses_mixed : Sample.mixed.WellFormed ∧
    (∃ g', Sample.mixed.connect Sample.mixers "p" "q" [⟨"x", "b"⟩, ⟨"y", "c"⟩] = .ok g' ∧
      g'.instances = Sample.mixed.instances ∧
      Joined "p" "q" [⟨"x", "b"⟩, ⟨"y", "c"⟩] Sample.mixed.connections g'.connections) ∧
    Refused Sample.mixers Sample.mixed "in" "q" [⟨"b", "b"⟩, ⟨"c", "a"⟩, ⟨"z", "c"⟩]
      (.portAlreadyDriven ⟨"q", "a"⟩ ⟨"p", "x"⟩) := by
  have hg := Sample.mixed_wellFormed
  obtain ⟨-, hok, -, -⟩ :=
    connect_joins_or_refuses hg Sample.mixers "p" "q" [⟨"x", "b"⟩, ⟨"y", "c"⟩]
  obtain ⟨-, -, herror, -⟩ :=
    connect_joins_or_refuses hg Sample.mixers "in" "q" [⟨"b", "b"⟩, ⟨"c", "a"⟩, ⟨"z", "c"⟩]
  obtain ⟨g', h⟩ : ∃ g', Sample.mixed.connect Sample.mixers "p" "q"
    [⟨"x", "b"⟩, ⟨"y", "c"⟩] = .ok g' := exists_eq_ok_of_isOk (by decide)
  obtain ⟨hinstances, -, hjoined⟩ := hok g' h
  exact ⟨hg, ⟨g', h, hinstances, hjoined⟩, (herror _).1 (by decide)⟩

end Graph

end Netlist
