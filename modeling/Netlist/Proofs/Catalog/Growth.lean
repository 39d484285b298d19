import Netlist.Proofs.Catalog.Modules
import Netlist.Proofs.Wiring

/-!
# Catalogs that grow

New types and new modules leave what was known of the others. Types that were alike stay alike, so
graphs that were sound stay sound.

## Main definitions

* `Netlist.Catalog.Grows`: a catalog knows at least what another one knows.

## Main results

* `Netlist.TypeTable.shapeWithin?_mono`: an expansion stays when types are added.
* `Netlist.Catalog.Grows.put`, `Netlist.Catalog.Grows.addType`: single steps.
* `Netlist.Graph.Sound.mono`: graphs stay sound.
-/

namespace Netlist

namespace TypeTable

private theorem mapM_option_mono {α β : Type} {f f' : α → Option β} {as : List α} {bs : List β}
    (h : as.mapM f = some bs) (hf : ∀ a ∈ as, ∀ y, f a = some y → f' a = some y) :
    as.mapM f' = some bs := by
  induction as generalizing bs with
  | nil => exact h
  | cons a as ih =>
    obtain ⟨hhead, htail⟩ := List.forall_mem_cons.1 hf
    rw [List.mapM_cons, Option.bind_eq_bind, Option.bind_eq_some_iff] at h ⊢
    obtain ⟨y, hy, h⟩ := h
    rw [Option.bind_eq_bind, Option.bind_eq_some_iff] at h
    obtain ⟨ys, hys, h⟩ := h
    refine ⟨y, hhead y hy, ?_⟩
    rw [Option.bind_eq_bind, Option.bind_eq_some_iff]
    exact ⟨ys, ih hys htail, h⟩

/-- An expansion stays when types are added and longer chains of references are allowed. -/
theorem shapeWithin?_mono {t u : TypeTable}
    (htu : ∀ name fields, t.get? name = some fields → u.get? name = some fields) {n k : Nat}
    (hnk : n ≤ k) {type : PortType} {s : Shape} (h : t.shapeWithin? n type = some s) :
    u.shapeWithin? k type = some s := by
  induction n generalizing k type s with
  | zero =>
    cases type with
    | bits width =>
      rw [shapeWithin?] at h ⊢
      exact h
    | named name =>
      rw [shapeWithin?] at h
      cases h
  | succ n ih =>
    cases type with
    | bits width =>
      rw [shapeWithin?] at h ⊢
      exact h
    | named name =>
      obtain ⟨k, rfl⟩ := Nat.exists_eq_add_of_le' (Nat.le_of_lt_succ (Nat.lt_succ_of_le hnk))
      rw [shapeWithin?, Option.bind_eq_bind, Option.bind_eq_some_iff] at h
      obtain ⟨fields, hfields, h⟩ := h
      rw [Option.bind_eq_bind, Option.bind_eq_some_iff] at h
      obtain ⟨shapes, hshapes, h⟩ := h
      rw [← Nat.add_assoc, shapeWithin?, Option.bind_eq_bind, Option.bind_eq_some_iff]
      refine ⟨fields, htu name fields hfields, ?_⟩
      rw [Option.bind_eq_bind, Option.bind_eq_some_iff]
      refine ⟨shapes, mapM_option_mono hshapes fun f _ y hy => ?_, h⟩
      obtain ⟨s', hs', rfl⟩ := Option.map_eq_some_iff.1 hy
      exact Option.map_eq_some_iff.2 ⟨s', ih (Nat.le_add_left n k) hs', rfl⟩

/-- Types that are alike stay alike when types are added. -/
theorem Alike.mono {t u : TypeTable}
    (htu : ∀ name fields, t.get? name = some fields → u.get? name = some fields)
    (hsize : t.size ≤ u.size) {x y : PortType} (h : t.Alike x y) : u.Alike x y := by
  obtain ⟨s, hs⟩ := Option.isSome_iff_exists.1 h.1
  have hx : u.shape? x = some s := shapeWithin?_mono htu hsize hs
  have hy : u.shape? y = some s := shapeWithin?_mono htu hsize (h.2.symm.trans hs)
  exact ⟨hx ▸ rfl, hx.trans hy.symm⟩

end TypeTable

namespace Catalog

variable {c d e : Catalog} {name : String}

/-- A catalog knows at least the modules that another one knows, and its types are alike where the
other's are. -/
structure Grows (c d : Catalog) : Prop where
  module? : ∀ n m, c.module? n = some m → d.module? n = some m
  alike : ∀ x y, c.types.Alike x y → d.types.Alike x y

theorem Grows.refl : c.Grows c :=
  ⟨fun _ _ h => h, fun _ _ h => h⟩

theorem Grows.trans (h : c.Grows d) (h' : d.Grows e) : c.Grows e :=
  ⟨fun n m hm => h'.module? n m (h.module? n m hm), fun x y hxy => h'.alike x y (h.alike x y hxy)⟩

theorem Grows.contains (h : c.Grows d) (hc : c.contains name = true) : d.contains name = true := by
  obtain ⟨m, hm⟩ := OrderedMap.contains_iff.1 hc
  exact OrderedMap.contains_iff.2 ⟨m, h.module? name m hm⟩

/-- A new module leaves the others. -/
theorem Grows.put (h : ¬c.contains name = true) (m : Module) : c.Grows (c.put name m) where
  module? n m' hm := by
    rw [module?_put, if_neg, hm]
    rintro rfl
    rw [module?_eq_none_of_not_contains h] at hm
    cases hm
  alike _ _ h := h

/-- A new type leaves the modules and the other types. -/
theorem Grows.addType {fields : Ports} (h : c.addType name fields = .ok d) : c.Grows d := by
  obtain ⟨hname, -, rfl⟩ := addType_eq_ok_iff.1 h
  have hnew : name ∉ c.types.keys := fun hm => hname (OrderedMap.contains_iff_mem_keys.2 hm)
  refine ⟨fun _ _ hm => hm, fun x y hxy => hxy.mono (fun n fs hn => ?_) ?_⟩
  · rw [OrderedMap.get?_insert, if_neg, hn]
    rintro rfl
    exact hnew (OrderedMap.mem_keys_of_get? hn)
  · simp only [OrderedMap.size, OrderedMap.entries_insert_of_notMem fields hnew,
      List.length_append]
    exact Nat.le_add_right _ _

end Catalog

namespace Graph

variable {c d : Catalog} {g : Graph}

theorem portType_mono (h : c.Grows d) {i : Instance} {port : String} {used : Direction}
    {type : PortType} (ht : portType c i port used = .ok type) :
    portType d i port used = .ok type := by
  obtain ⟨m, dir, hm, hd, ht⟩ := portType_eq_ok_iff.1 ht
  exact portType_eq_ok_iff.2 ⟨m, dir, h.module? _ _ hm, hd, ht⟩

/-- Graphs stay sound when a catalog grows. -/
theorem Sound.mono (hs : g.Sound c) (h : c.Grows d) : g.Sound d where
  registered i hi := h.contains (hs.registered i hi)
  fits w hw := by
    obtain ⟨i, j, hi, hj, s, t, hs, ht, hst⟩ := hs.fits w hw
    exact ⟨i, j, hi, hj, s, t, portType_mono h hs, portType_mono h ht, h.alike s t hst⟩

end Graph

end Netlist
