import Mathlib.Data.List.Forall2
import Mathlib.Tactic.Common

/-!
# Sequences of steps that may fail

A sequence of steps succeeds if each step does.

## Main definitions

* `Netlist.Keeps`: a computation on a state keeps a property of it, also where it fails.

## Main results

* `Netlist.bind_eq_ok_iff`, `Netlist.bind_eq_error_iff`: two steps.
* `Netlist.forM_eq_ok_iff`, `Netlist.forM_eq_error_iff`: one step for each member of a list.
* `Netlist.foldlM_eq_error_iff`: where a fold fails.
* `Netlist.foldlM_keeps`: a fold keeps what its steps keep.
* `Netlist.bind_congr_of_ok`, `Netlist.foldlM_congr_of_keeps`: equal sequences.
* `Netlist.mapM_eq_ok_iff`, `Netlist.exists_mem_of_forall₂`: results for each member of a list.
* `Netlist.mapM_map_eq_some`: what is made of each member of a list is looked at again.
* `Netlist.Keeps.bind`, `Netlist.Keeps.forM`: steps on a state that keep a property of it, whether
  they succeed or fail.
-/

namespace Netlist

universe u v

variable {ε : Type u} {α β : Type v}

theorem ok_bind (a : α) (f : α → Except ε β) : (Except.ok a >>= f) = f a :=
  rfl

theorem bind_eq_ok_iff {x : Except ε α} {f : α → Except ε β} {b : β} :
    x >>= f = .ok b ↔ ∃ a, x = .ok a ∧ f a = .ok b := by
  cases x with
  | error e => exact ⟨fun h => (nomatch h), fun ⟨_, h, _⟩ => (nomatch h)⟩
  | ok a => exact ⟨fun h => ⟨a, rfl, h⟩, fun ⟨_, ha, h⟩ => Except.ok.inj ha ▸ h⟩

theorem bind_eq_error_iff {x : Except ε α} {f : α → Except ε β} {e : ε} :
    x >>= f = .error e ↔ x = .error e ∨ ∃ a, x = .ok a ∧ f a = .error e := by
  cases x with
  | error e' =>
    change Except.error e' = Except.error e ↔ _
    simp
  | ok a =>
    refine ⟨fun h => .inr ⟨a, rfl, h⟩, ?_⟩
    rintro (h | ⟨_, ha, h⟩)
    · cases h
    · exact Except.ok.inj ha ▸ h

theorem ite_error_eq_ok_iff {p : Prop} [Decidable p] {e : ε} {x : Except ε α} {a : α} :
    (if p then .error e else x) = .ok a ↔ ¬p ∧ x = .ok a := by
  split_ifs with h
  · exact ⟨fun h => (nomatch h), fun hx => absurd h hx.1⟩
  · exact ⟨fun hx => ⟨h, hx⟩, And.right⟩

/-- What follows a step matters only for what the step can give. -/
theorem bind_congr_of_ok {x : Except ε α} {f f' : α → Except ε β}
    (h : ∀ a, x = .ok a → f a = f' a) : x >>= f = x >>= f' := by
  cases x with
  | error e => rfl
  | ok a => exact h a rfl

theorem forM_eq_ok_iff {f : α → Except ε PUnit} {as : List α} :
    as.forM f = .ok ⟨⟩ ↔ ∀ a ∈ as, f a = .ok ⟨⟩ := by
  induction as with
  | nil => exact ⟨fun _ _ h => (nomatch h), fun _ => rfl⟩
  | cons a as ih =>
    change (f a >>= fun _ => as.forM f) = .ok ⟨⟩ ↔ _
    rw [bind_eq_ok_iff, List.forall_mem_cons, ← ih]
    exact ⟨fun ⟨_, ha, h⟩ => ⟨ha, h⟩, fun ⟨ha, h⟩ => ⟨_, ha, h⟩⟩

/-- A sequence of steps fails where one of them does and those before it succeed. -/
theorem forM_eq_error_iff {f : α → Except ε PUnit} {as : List α} {e : ε} :
    as.forM f = .error e ↔ ∃ front a back, as = front ++ a :: back ∧
      (∀ b ∈ front, f b = .ok ⟨⟩) ∧ f a = .error e := by
  induction as with
  | nil =>
    refine ⟨fun h => (nomatch h), ?_⟩
    rintro ⟨front, a, back, heq, -⟩
    exact absurd heq.symm (by simp)
  | cons a as ih =>
    change (f a >>= fun _ => as.forM f) = .error e ↔ _
    rw [bind_eq_error_iff]
    constructor
    · rintro (ha | ⟨⟨⟩, ha, h⟩)
      · exact ⟨[], a, as, rfl, nofun, ha⟩
      · obtain ⟨front, a', back, rfl, hfront, ha'⟩ := ih.1 h
        exact ⟨a :: front, a', back, rfl, List.forall_mem_cons.2 ⟨ha, hfront⟩, ha'⟩
    · rintro ⟨_ | ⟨b, front⟩, a', back, heq, hfront, ha'⟩
      · obtain ⟨rfl, rfl⟩ := List.cons.inj heq
        exact .inl ha'
      · obtain ⟨rfl, rfl⟩ := List.cons.inj heq
        obtain ⟨ha, hfront⟩ := List.forall_mem_cons.1 hfront
        exact .inr ⟨⟨⟩, ha, ih.2 ⟨front, a', back, rfl, hfront, ha'⟩⟩

/-- A sequence of steps that does not succeed fails with one of the steps. -/
theorem exists_forM_eq_error {f : α → Except ε PUnit} {as : List α} (h : as.forM f ≠ .ok ⟨⟩) :
    ∃ a ∈ as, ∃ e, f a = .error e ∧ as.forM f = .error e := by
  cases hall : as.forM f with
  | ok u => exact absurd hall h
  | error e =>
    obtain ⟨front, a, back, rfl, -, ha⟩ := forM_eq_error_iff.1 hall
    exact ⟨a, by simp, e, ha, rfl⟩

/-- A fold fails where one of its steps does and those before it succeed. -/
theorem foldlM_eq_error_iff {γ : Type*} {f : α → γ → Except ε α} {as : List γ} {x : α} {e : ε} :
    as.foldlM f x = .error e ↔ ∃ front a back y, as = front ++ a :: back ∧
      front.foldlM f x = .ok y ∧ f y a = .error e := by
  constructor
  · intro h
    induction as generalizing x with
    | nil => cases h
    | cons a as ih =>
      rw [List.foldlM_cons, bind_eq_error_iff] at h
      rcases h with ha | ⟨y, hy, h⟩
      · exact ⟨[], a, as, x, rfl, rfl, ha⟩
      · obtain ⟨front, a', back, z, rfl, hz, ha'⟩ := ih h
        exact ⟨a :: front, a', back, z, rfl, bind_eq_ok_iff.2 ⟨y, hy, hz⟩, ha'⟩
  · rintro ⟨front, a, back, y, rfl, hy, ha⟩
    rw [List.foldlM_append, hy, ok_bind, List.foldlM_cons, ha]
    rfl

/-- What each step of a fold keeps, the fold keeps. -/
theorem foldlM_keeps {I : α → Prop} {γ : Type*} {f : α → γ → Except ε α} {as : List γ} {x y : α}
    (hf : ∀ a ∈ as, ∀ x y, I x → f x a = .ok y → I y) (hx : I x)
    (h : as.foldlM f x = .ok y) : I y := by
  induction as generalizing x with
  | nil =>
    cases h
    exact hx
  | cons a as ih =>
    obtain ⟨ha, has⟩ := List.forall_mem_cons.1 hf
    rw [List.foldlM_cons, bind_eq_ok_iff] at h
    obtain ⟨x₁, h₁, h⟩ := h
    exact ih has (ha x x₁ hx h₁) h

/-- Folds with steps that are equal where a property holds which these steps keep. -/
theorem foldlM_congr_of_keeps {I : α → Prop} {γ : Type*} {f f' : α → γ → Except ε α} {as : List γ}
    {x : α} (hf : ∀ a ∈ as, ∀ x y, I x → f x a = .ok y → I y)
    (heq : ∀ a ∈ as, ∀ x, I x → f x a = f' x a) (hx : I x) : as.foldlM f x = as.foldlM f' x := by
  induction as generalizing x with
  | nil => rfl
  | cons a as ih =>
    obtain ⟨hfa, hf⟩ := List.forall_mem_cons.1 hf
    obtain ⟨ha, heq⟩ := List.forall_mem_cons.1 heq
    rw [List.foldlM_cons, List.foldlM_cons, ← ha x hx]
    exact bind_congr_of_ok fun y hy => ih hf heq (hfa x y hx hy)

/-- Something succeeds for each member of a list, with results that another list has too. -/
theorem mapM_eq_pure_map {m : Type u → Type*} [Monad m] [LawfulMonad m] {δ : Type u}
    {κ ι : Type*} {f : α → m δ} {p : α → κ} {q : ι → κ} {h : ι → δ} {as : List α} {is : List ι}
    (hmap : as.map p = is.map q) (hf : ∀ a i, p a = q i → f a = pure (h i)) :
    as.mapM f = pure (is.map h) := by
  induction as generalizing is with
  | nil => rw [List.map_eq_nil_iff.1 hmap.symm]; rfl
  | cons a as ih =>
    obtain ⟨i, is, rfl, hi, his⟩ := List.map_eq_cons_iff.1 hmap.symm
    rw [List.mapM_cons, hf a i hi.symm, pure_bind, ih his.symm, pure_bind, List.map_cons]

/-- Something succeeds for a list if it does for each member of it. -/
theorem mapM_eq_ok_iff {f : α → Except ε β} {as : List α} {bs : List β} :
    as.mapM f = .ok bs ↔ List.Forall₂ (fun a b => f a = .ok b) as bs := by
  induction as generalizing bs with
  | nil =>
    rw [List.mapM_nil, List.forall₂_nil_left_iff]
    exact ⟨fun h => (Except.ok.inj h).symm, fun h => h ▸ rfl⟩
  | cons a as ih =>
    simp only [List.mapM_cons, bind_eq_ok_iff, List.forall₂_cons_left_iff, ih]
    constructor
    · rintro ⟨b, hb, bs, hbs, h⟩
      cases h
      exact ⟨b, bs, hb, hbs, rfl⟩
    · rintro ⟨b, bs, hb, hbs, rfl⟩
      exact ⟨b, hb, bs, hbs, rfl⟩

/-- Something succeeds for a list, with results that correspond to its members, if it does for each
of them. -/
theorem exists_mapM_eq_ok {f : α → Except ε β} {P : α → β → Prop} {as : List α}
    (h : ∀ a ∈ as, ∃ b, f a = .ok b ∧ P a b) :
    ∃ bs, as.mapM f = .ok bs ∧ List.Forall₂ P as bs := by
  induction as with
  | nil => exact ⟨[], rfl, .nil⟩
  | cons a as ih =>
    obtain ⟨⟨b, hb, hP⟩, has⟩ := List.forall_mem_cons.1 h
    obtain ⟨bs, hbs, hall⟩ := ih has
    exact ⟨b :: bs, by rw [List.mapM_cons, hb, hbs]; rfl, .cons hP hall⟩

/-- Each of two lists that correspond has a partner for what is in the other. -/
theorem exists_mem_of_forall₂ {α : Type u} {β : Type v} {R : α → β → Prop} {as : List α}
    {bs : List β} {b : β} (h : List.Forall₂ R as bs) (hb : b ∈ bs) : ∃ a ∈ as, R a b := by
  induction h with
  | nil => exact absurd hb List.not_mem_nil
  | cons hR _ ih =>
    rcases List.mem_cons.1 hb with rfl | hb
    · exact ⟨_, List.mem_cons_self, hR⟩
    · obtain ⟨a, ha, hR⟩ := ih hb
      exact ⟨a, List.mem_cons_of_mem _ ha, hR⟩

/-- What is made of each member of a list is looked at again, each time with success. -/
theorem mapM_map_eq_some {γ : Type*} {f : β → Option γ} {g : α → β} {h : α → γ} {as : List α}
    (hfg : ∀ a ∈ as, f (g a) = some (h a)) : (as.map g).mapM f = some (as.map h) := by
  induction as with
  | nil => rfl
  | cons a as ih =>
    obtain ⟨ha, has⟩ := List.forall_mem_cons.1 hfg
    rw [List.map_cons, List.mapM_cons, ha, ih has]
    rfl

theorem mapM_eq_some_map {γ : Type v} {f : α → Option γ} {h : α → γ} {as : List α}
    (hf : ∀ a ∈ as, f a = some (h a)) : as.mapM f = some (as.map h) := by
  simpa using mapM_map_eq_some (g := id) hf

/-- Something that succeeds for a list succeeds for each member of it. -/
theorem exists_of_mapM_eq_some {γ : Type v} {f : α → Option γ} {as : List α} {bs : List γ}
    (h : as.mapM f = some bs) : ∀ a ∈ as, ∃ b, f a = some b := by
  induction as generalizing bs with
  | nil => exact fun _ ha => nomatch ha
  | cons a as ih =>
    rw [List.mapM_cons, Option.bind_eq_bind, Option.bind_eq_some_iff] at h
    obtain ⟨b, hb, h⟩ := h
    rw [Option.bind_eq_bind, Option.bind_eq_some_iff] at h
    obtain ⟨bs, hbs, -⟩ := h
    exact List.forall_mem_cons.2 ⟨⟨b, hb⟩, ih hbs⟩

theorem mapM_map_eq_some_self {f : β → Option α} {g : α → β} {as : List α}
    (hfg : ∀ a ∈ as, f (g a) = some a) : (as.map g).mapM f = some as :=
  (mapM_map_eq_some (h := id) hfg).trans (congrArg some (List.map_id as))

theorem map_eq_ok_iff {f : α → β} {x : Except ε α} {b : β} :
    x.map f = .ok b ↔ ∃ a, x = .ok a ∧ f a = b := by
  cases x <;> simp [Except.map]

theorem mapError_eq_ok_iff {δ : Type*} {f : ε → δ} {x : Except ε α} {a : α} :
    x.mapError f = .ok a ↔ x = .ok a := by
  cases x <;> simp [Except.mapError]

theorem map_eq_error_iff {f : α → β} {x : Except ε α} {e : ε} :
    x.map f = .error e ↔ x = .error e := by
  cases x <;> simp [Except.map]

theorem mapError_eq_error_iff {δ : Type*} {f : ε → δ} {x : Except ε α} {e : δ} :
    x.mapError f = .error e ↔ ∃ e', x = .error e' ∧ f e' = e := by
  cases x <;> simp [Except.mapError]

theorem exists_eq_ok_of_isOk {x : Except ε α} (h : x.isOk = true) : ∃ a, x = .ok a := by
  cases x with
  | error e => cases h
  | ok a => exact ⟨a, rfl⟩

theorem not_exists_eq_ok_of_isOk {x : Except ε α} (h : x.isOk = false) : ¬∃ a, x = .ok a := by
  rintro ⟨a, rfl⟩
  cases h

/-! ### Steps on a state -/

/-- A computation on a state keeps a property of states, whether it succeeds or fails. -/
def Keeps {σ : Type} {α ε : Type} (I : σ → Prop) (x : ExceptT ε (StateM σ) α) : Prop :=
  ∀ s, I s → I (StateT.run (ExceptT.run x) s).2

namespace Keeps

variable {σ α β ε : Type} {I : σ → Prop} {x : ExceptT ε (StateM σ) α}
  {f : α → ExceptT ε (StateM σ) β}

theorem pure (a : α) : Keeps I (Pure.pure a : ExceptT ε (StateM σ) α) :=
  fun _ h => h

theorem throw (e : ε) : Keeps I (MonadExcept.throw e : ExceptT ε (StateM σ) α) :=
  fun _ h => h

/-- What comes after a failure does not matter. -/
theorem throw_bind (e : ε) (f : α → ExceptT ε (StateM σ) β) :
    Keeps I (MonadExcept.throw e >>= f) :=
  fun _ h => h

theorem liftExcept (y : Except ε α) : Keeps I (liftExcept y : ExceptT ε (StateM σ) α) := by
  cases y with
  | error e => exact throw e
  | ok a => exact pure a

theorem set_bind {s' : σ} (hs' : I s') {f : PUnit → ExceptT ε (StateM σ) β}
    (hf : Keeps I (f ⟨⟩)) : Keeps I (MonadStateOf.set s' >>= f) :=
  fun _ _ => hf s' hs'

/-- The state that a computation starts from has the property. -/
theorem get_bind {f : σ → ExceptT ε (StateM σ) β} (hf : ∀ s, I s → Keeps I (f s)) :
    Keeps I (MonadState.get >>= f) :=
  fun s h => hf s h s h

/-- Two steps keep what each of them keeps. -/
theorem bind (hx : Keeps I x) (hf : ∀ a, Keeps I (f a)) : Keeps I (x >>= f) := by
  intro s h
  have hs := hx s h
  simp only [ExceptT.run, Bind.bind, ExceptT.bind, ExceptT.mk, StateT.run, StateT.bind,
    ExceptT.bindCont] at hs ⊢
  rcases hrun : x s with ⟨_ | a, s'⟩ <;> rw [hrun] at hs
  · exact hs
  · exact hf a s' hs

theorem forM {as : List α} {k : α → ExceptT ε (StateM σ) PUnit} (hk : ∀ a ∈ as, Keeps I (k a)) :
    Keeps I (as.forM k) := by
  induction as with
  | nil => exact pure _
  | cons a as ih =>
    obtain ⟨ha, has⟩ := List.forall_mem_cons.1 hk
    exact ha.bind fun _ => ih has

end Keeps

end Netlist
