import Netlist.Catalog.Edit
import Netlist.Proofs.Sequencing

/-!
# Runs of edits

An edit that is made of steps succeeds if each step does, on the catalog that the steps before it
leave. If one of them fails, its catalog is the one that is left behind.

## Main results

* `Netlist.Catalog.Edit.runOn_bind_eq_ok_iff`: one edit after the other.
* `Netlist.Catalog.Edit.runOn_bind_eq_error_iff`: where an edit of two steps fails.
* `Netlist.Catalog.Edit.runOn_add`, `Netlist.Catalog.Edit.runOn_delete`: single steps.
* `Netlist.Catalog.Edit.runOn_tryCatch`: an edit with a handler for its failure.
-/

namespace Netlist.Catalog.Edit

variable {α β : Type} {x : Edit α} {f : α → Edit β} {c d : Catalog}

theorem runOn_bind (x : Edit α) (f : α → Edit β) (c : Catalog) :
    (x >>= f).runOn c = match x.runOn c with
      | (.ok a, c') => (f a).runOn c'
      | (.error e, c') => (.error e, c') := by
  simp only [runOn, ExceptT.run, bind, ExceptT.bind, ExceptT.mk, StateT.run, StateT.bind,
    ExceptT.bindCont]
  rcases x c with ⟨_ | _, _⟩ <;> rfl

/-- An edit for each of several things is made for the first of them and then for the others. -/
theorem runOn_forM_cons {γ : Type} (f : γ → Edit PUnit) (a : γ) (as : List γ) (c : Catalog) :
    ((a :: as).forM f).runOn c = (f a >>= fun _ => as.forM f).runOn c :=
  rfl

/-- An edit that looks at the catalog first. -/
theorem runOn_get_bind (f : Catalog → Edit β) (c : Catalog) :
    (get >>= f).runOn c = (f c).runOn c :=
  rfl

/-- Two edits succeed one after the other if the first does, and the second on the catalog that it
leaves. -/
theorem runOn_bind_eq_ok_iff {r : β} : (x >>= f).runOn c = (.ok r, d) ↔
    ∃ a c', x.runOn c = (.ok a, c') ∧ (f a).runOn c' = (.ok r, d) := by
  rw [runOn_bind]
  rcases x.runOn c with ⟨_ | a, c'⟩ <;> simp

theorem runOn_liftExcept (y : Except Error α) (c : Catalog) :
    (liftExcept y : Edit α).runOn c = (y, c) := by
  cases y <;> rfl

theorem runOn_liftExcept_eq_ok_iff {y : Except Error α} {r : α} :
    (liftExcept y : Edit α).runOn c = (.ok r, d) ↔ y = .ok r ∧ d = c := by
  rw [runOn_liftExcept, Prod.mk.injEq, eq_comm (a := c)]

theorem runOn_query_eq_ok_iff {q : Catalog → Except Error α} {r : α} :
    (query q).runOn c = (.ok r, d) ↔ q c = .ok r ∧ d = c := by
  unfold query
  rw [runOn_bind_eq_ok_iff]
  constructor
  · rintro ⟨c', c'', hget, h⟩
    cases hget
    exact runOn_liftExcept_eq_ok_iff.1 h
  · exact fun h => ⟨c, c, rfl, runOn_liftExcept_eq_ok_iff.2 h⟩

theorem runOn_tryCatch (x : Edit α) (handler : Error → Edit α) (c : Catalog) :
    (tryCatch x handler).runOn c = match x.runOn c with
      | (.ok a, c') => (.ok a, c')
      | (.error e, c') => (handler e).runOn c' := by
  simp only [tryCatch, tryCatchThe, MonadExceptOf.tryCatch, ExceptT.tryCatch, runOn, ExceptT.run,
    StateT.run, ExceptT.mk, bind, StateT.bind]
  rcases x c with ⟨_ | _, _⟩ <;> rfl

/-! ### What is left behind -/

/-- What an edit keeps holds of the catalog that it leaves. -/
theorem of_keeps {I : Catalog → Prop} {r : Except Error α} (hx : Keeps I x) (hc : I c)
    (hrun : x.runOn c = (r, d)) : I d := by
  have hd : I (x.runOn c).2 := hx c hc
  rwa [hrun] at hd

/-- An edit keeps what holds of every catalog that it can leave. -/
theorem keeps_of_runOn {I : Catalog → Prop}
    (hx : ∀ c r d, I c → x.runOn c = (r, d) → I d) : Keeps I x :=
  fun c hc => hx c _ _ hc rfl

theorem runOn_query (q : Catalog → Except Error α) (c : Catalog) :
    (query q).runOn c = (q c, c) :=
  runOn_liftExcept (q c) c

/-- If the replacement fails, the catalog stays as it is. -/
theorem runOn_replace (f : Catalog → Except Error Catalog) (c : Catalog) :
    (replace f).runOn c = match f c with
      | .ok d => (.ok (), d)
      | .error e => (.error e, c) := by
  unfold replace
  rw [runOn_bind, runOn_query]
  cases f c <;> rfl

/-- If a module cannot be registered, the catalog stays as it is. -/
theorem runOn_add (name : String) (m : Module) (c : Catalog) :
    (add name m).runOn c = match c.add name m with
      | .ok d => (.ok (), d)
      | .error e => (.error e, c) :=
  runOn_replace (fun c => c.add name m) c

/-- If there is no module to take out, the catalog stays as it is. -/
theorem runOn_delete (name : String) (c : Catalog) :
    (delete name).runOn c = match c.delete name with
      | .ok (m, d) => (.ok m, d)
      | .error e => (.error e, c) := by
  unfold delete
  rw [runOn_bind, runOn_query]
  rcases c.delete name with _ | ⟨_, _⟩ <;> rfl

/-- Two edits fail one after the other if the first does, or the second on the catalog that the
first leaves. -/
theorem runOn_bind_eq_error_iff {e : Error} : (x >>= f).runOn c = (.error e, d) ↔
    x.runOn c = (.error e, d) ∨
      ∃ a c', x.runOn c = (.ok a, c') ∧ (f a).runOn c' = (.error e, d) := by
  rw [runOn_bind]
  rcases x.runOn c with ⟨_ | a, c'⟩ <;> simp

theorem runOn_query_eq_error_iff {q : Catalog → Except Error α} {e : Error} :
    (query q).runOn c = (.error e, d) ↔ q c = .error e ∧ d = c := by
  rw [runOn_query, Prod.mk.injEq, eq_comm (a := c)]

/-- An edit for each of several things fails with one of them. -/
theorem exists_of_runOn_forM_eq_error {γ : Type} {f : γ → Edit PUnit} {as : List γ} {e : Error}
    (h : (as.forM f).runOn c = (.error e, d)) :
    ∃ a ∈ as, ∃ c', (f a).runOn c' = (.error e, d) := by
  induction as generalizing c with
  | nil => cases h
  | cons a as ih =>
    rw [runOn_forM_cons, runOn_bind_eq_error_iff] at h
    rcases h with h | ⟨_, c', -, h⟩
    · exact ⟨a, List.mem_cons_self, c, h⟩
    · obtain ⟨a', ha', h⟩ := ih h
      exact ⟨a', List.mem_cons_of_mem _ ha', h⟩

/-- An edit for each of several things that succeeds has succeeded for each of them, and then for
those that come after it. -/
theorem exists_of_runOn_forM_eq_ok {γ : Type} {f : γ → Edit PUnit} {as : List γ} {u : PUnit}
    (h : (as.forM f).runOn c = (.ok u, d)) {a : γ} (ha : a ∈ as) :
    ∃ c₁ c₂, ∃ rest : List γ, (f a).runOn c₁ = (.ok ⟨⟩, c₂) ∧
      (rest.forM f).runOn c₂ = (.ok u, d) := by
  induction as generalizing c with
  | nil => cases ha
  | cons b as ih =>
    rw [runOn_forM_cons] at h
    obtain ⟨_, c', hfirst, hothers⟩ := runOn_bind_eq_ok_iff.1 h
    rcases List.mem_cons.1 ha with rfl | ha
    · exact ⟨c, c', as, hfirst, hothers⟩
    · exact ih hothers ha

/-- Asking keeps everything. -/
theorem query_keeps (I : Catalog → Prop) (q : Catalog → Except Error α) : Keeps I (query q) :=
  Keeps.get_bind fun c _ => .liftExcept (q c)

/-- A replacement keeps what the new catalog has if the old one has it. -/
theorem replace_keeps {I : Catalog → Prop} {f : Catalog → Except Error Catalog}
    (hf : ∀ c d, I c → f c = .ok d → I d) : Keeps I (replace f) := by
  intro c hc
  change I ((replace f).runOn c).2
  rw [runOn_replace]
  cases hd : f c with
  | error e => exact hc
  | ok d => exact hf c d hc hd

/-- Registering several leaves keeps what registering each of them keeps. -/
theorem registerLeaves_keeps_of {I : Catalog → Prop} {leaves : List Interface}
    (h : ∀ i ∈ leaves, Keeps I (add i.name (leaf i))) : Keeps I (registerLeaves leaves) :=
  (query_keeps _ _).bind fun _ => (Keeps.forM h).bind fun _ => .pure _

end Netlist.Catalog.Edit
