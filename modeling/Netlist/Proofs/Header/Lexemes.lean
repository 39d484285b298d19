import Mathlib
import Netlist.Header.Lexeme
import Netlist.Proofs.Sequencing

/-!
# The classes of lexemes

A lexeme that is cut off a text belongs to one of a few classes and is as long as the class allows.
The classes begin with different characters, so the text decides which of them comes. Since only the
character behind a lexeme matters for where it ends, a text that is cut between lexemes falls into
the same ones.

## Main definitions

* `Netlist.Header.Run`: the lexemes that go on as long as their characters are in a class.
* `Netlist.Header.IsCut`: a lexeme at the beginning of a text.
* `Netlist.Header.IsLexed`: the lexemes of a text.

## Main results

* `Netlist.Header.first_eq_ok_iff`, `Netlist.Header.lexemes_eq_ok_iff`: what is cut off a text.
* `Netlist.Header.of_first_eq_error`: why nothing is cut off.
* `Netlist.Header.IsLexed.split`: the lexemes of two parts of a text.
-/

namespace Netlist.Header

variable {c : Char} {cs rest text : List Char} {l : Lexeme} {ls ms : List Lexeme} {offset : Nat}
  {kind : List Char → Option TokenKind} {begin run : List Char} {part : Char → Bool}

/-! ### Elements of a class -/

section Stops

variable {α : Type} {part : α → Bool} {run rest : List α}

/-- A list ends, or goes on with an element that is not in a class. -/
def Stops (part : α → Bool) (rest : List α) : Prop :=
  ∀ a, rest.head? = some a → part a = false

theorem stops_dropWhile (part : α → Bool) (as : List α) : Stops part (as.dropWhile part) := by
  intro a ha
  have hne : as.dropWhile part ≠ [] := by
    intro hnil
    rw [hnil] at ha
    cases ha
  rw [List.head?_eq_some_head hne, Option.some.injEq] at ha
  exact ha ▸ List.head_dropWhile_not part hne

/-- Where a list stops, a first part of it stops as well. -/
theorem Stops.of_append (h : Stops part (run ++ rest)) : Stops part run := by
  cases run with
  | nil => exact nofun
  | cons a run => exact h

theorem takeWhile_append_of_stops (hrun : ∀ a ∈ run, part a = true) (hrest : Stops part rest) :
    (run ++ rest).takeWhile part = run := by
  rw [List.takeWhile_append_of_pos hrun]
  cases rest with
  | nil => exact List.append_nil run
  | cons a rest => rw [List.takeWhile_cons_of_neg (by simp [hrest a rfl]), List.append_nil]

theorem dropWhile_append_of_stops (hrun : ∀ a ∈ run, part a = true) (hrest : Stops part rest) :
    (run ++ rest).dropWhile part = rest := by
  rw [List.dropWhile_append_of_pos hrun]
  cases rest with
  | nil => rfl
  | cons a rest => rw [List.dropWhile_cons_of_neg (by simp [hrest a rfl])]

end Stops

theorem cutRun_eq_iff : cutRun kind begin part cs = (l, rest) ↔
    ∃ run, cs = run ++ rest ∧ (∀ d ∈ run, part d = true) ∧ Stops part rest ∧
      l = ⟨kind (begin ++ run), begin ++ run⟩ := by
  constructor
  · intro h
    obtain ⟨rfl, rfl⟩ := Prod.mk.inj h
    exact ⟨cs.takeWhile part, List.takeWhile_append_dropWhile.symm,
      List.all_eq_true.1 List.all_takeWhile, stops_dropWhile part cs, rfl⟩
  · rintro ⟨run, rfl, hrun, hrest, rfl⟩
    rw [cutRun, takeWhile_append_of_stops hrun hrest, dropWhile_append_of_stops hrun hrest]

/-! ### Comments -/

/-- A comment goes on behind a character with which it does not end. -/
theorem cutComment_cons (h : ¬(c = '*' ∧ cs.head? = some '/')) :
    cutComment (c :: cs) = (cutComment cs).map fun r => (c :: r.1, r.2) := by
  rw [cutComment]
  intro ds hc hcs
  exact h ⟨hc, hcs ▸ rfl⟩

/-- A block comment is cut at the first end of a comment. -/
theorem cutComment_eq_some_iff {body : List Char} : cutComment cs = some (body, rest) ↔
    ∃ inner, body = inner ++ ['*', '/'] ∧ cs = inner ++ '*' :: '/' :: rest ∧
      ¬['*', '/'] <:+: inner := by
  induction cs generalizing body with
  | nil => simp [cutComment]
  | cons c cs ih =>
    by_cases hend : c = '*' ∧ cs.head? = some '/'
    · obtain ⟨rfl, hhead⟩ := hend
      obtain ⟨ds, rfl⟩ := List.head?_eq_some_iff.1 hhead
      rw [cutComment, Option.some.injEq, Prod.mk.injEq]
      constructor
      · rintro ⟨rfl, rfl⟩
        exact ⟨[], rfl, rfl, by decide⟩
      · rintro ⟨inner, rfl, hcs, hinner⟩
        rcases inner with _ | ⟨x, _ | ⟨y, inner⟩⟩
        · exact ⟨rfl, (List.cons.inj (List.cons.inj hcs).2).2⟩
        · simp at hcs
        · simp only [List.cons_append, List.cons.injEq] at hcs
          obtain ⟨rfl, rfl, -⟩ := hcs
          exact absurd (List.prefix_append ['*', '/'] inner).isInfix hinner
    · rw [cutComment_cons hend, Option.map_eq_some_iff]
      constructor
      · rintro ⟨⟨body', rest'⟩, h, heq⟩
        obtain ⟨rfl, rfl⟩ := Prod.mk.inj heq
        obtain ⟨inner, rfl, rfl, hinner⟩ := ih.1 h
        refine ⟨c :: inner, rfl, rfl, fun hinfix => ?_⟩
        rcases List.infix_cons_iff.1 hinfix with ⟨ds, hds⟩ | hinfix
        · obtain ⟨rfl, rfl⟩ := List.cons.inj hds
          exact hend ⟨rfl, rfl⟩
        · exact hinner hinfix
      · rintro ⟨inner, rfl, hcs, hinner⟩
        cases inner with
        | nil =>
          obtain ⟨rfl, rfl⟩ := List.cons.inj hcs
          exact absurd ⟨rfl, rfl⟩ hend
        | cons x inner =>
          obtain ⟨rfl, rfl⟩ := List.cons.inj hcs
          exact ⟨_, ih.2 ⟨inner, rfl, rfl, fun h => hinner (List.infix_cons h)⟩, rfl⟩

theorem cutComment_append {inner : List Char} (h : ¬['*', '/'] <:+: inner) :
    cutComment (inner ++ '*' :: '/' :: rest) = some (inner ++ ['*', '/'], rest) :=
  cutComment_eq_some_iff.2 ⟨inner, rfl, rfl, h⟩

/-! ### Lexemes -/

/-- The lexemes that begin in a certain way and go on as long as their characters are in a class. -/
inductive Run : (List Char → Option TokenKind) → List Char → (Char → Bool) → Prop
  | blank {c : Char} : isBlank c = true → Run (fun _ => none) [c] isBlank
  | word {c : Char} : Identifier.isStart c = true →
      Run (fun word => some (wordKind word)) [c] Identifier.isPart
  | number {c : Char} : c.isDigit = true → Run (fun _ => some .number) [c] isNumberPart
  | line : Run (fun _ => none) ['/', '/'] (· ≠ '\n')

/-- A lexeme stands at the beginning of a text, and is as long as its class allows. -/
inductive IsCut : List Char → Lexeme → List Char → Prop
  | run {kind : List Char → Option TokenKind} {begin run rest : List Char} {part : Char → Bool} :
      Run kind begin part → (∀ d ∈ run, part d = true) → Stops part rest →
      IsCut (begin ++ (run ++ rest)) ⟨kind (begin ++ run), begin ++ run⟩ rest
  | mark (m : Mark) {rest : List Char} : IsCut (m.char :: rest) ⟨some (.mark m), [m.char]⟩ rest
  | block {inner rest : List Char} : ¬['*', '/'] <:+: inner →
      IsCut ('/' :: '*' :: (inner ++ '*' :: '/' :: rest))
        ⟨none, '/' :: '*' :: (inner ++ ['*', '/'])⟩ rest

theorem ofChar?_char (m : Mark) : Mark.ofChar? m.char = some m := by
  cases m <;> decide

theorem char_of_ofChar? {m : Mark} (h : Mark.ofChar? c = some m) : m.char = c := by
  simpa using List.find?_some h

/-- No character of a name is white space. -/
theorem isBlank_of_isPart (h : Identifier.isPart c = true) : isBlank c = false := by
  refine Bool.eq_false_iff.2 fun hblank => ?_
  simp only [isBlank, Bool.or_eq_true, beq_iff_eq] at hblank
  rcases hblank with (((rfl | rfl) | rfl) | rfl) | rfl <;> exact absurd h (by decide)

theorem isPart_of_isDigit (h : c.isDigit = true) : Identifier.isPart c = true := by
  rw [Identifier.isPart, Char.isAlphanum, h, Bool.or_true, Bool.true_or, Bool.true_or]

/-- No name begins with a digit. -/
theorem isStart_of_isDigit (h : c.isDigit = true) : Identifier.isStart c = false := by
  refine Bool.eq_false_iff.2 fun hstart => ?_
  rw [Identifier.isStart, Bool.or_eq_true, beq_iff_eq] at hstart
  rcases hstart with hstart | rfl
  · simp only [Char.isAlpha, Char.isUpper, Char.isLower, Char.isDigit, UInt32.le_iff_toNat_le,
      ge_iff_le, Bool.or_eq_true, Bool.and_eq_true, decide_eq_true_eq, Char.reduceVal,
      UInt32.reduceToNat] at h hstart
    omega
  · exact absurd h (by decide)

/-- What is cut off a text is one of these lexemes. -/
theorem isCut_of_first (h : Lexeme.first c cs = .ok (l, rest)) : IsCut (c :: cs) l rest := by
  have run {kind begin part ds} (hrun : Run kind begin part) (hcs : c :: cs = begin ++ ds)
      (h : cutRun kind begin part ds = (l, rest)) : IsCut (c :: cs) l rest := by
    obtain ⟨run, rfl, hall, hstops, rfl⟩ := cutRun_eq_iff.1 h
    exact hcs ▸ .run hrun hall hstops
  unfold Lexeme.first at h
  split at h
  · exact run (.blank ‹_›) rfl (Except.ok.inj h)
  split at h
  · exact run (.word ‹_›) rfl (Except.ok.inj h)
  split at h
  · exact run (.number ‹_›) rfl (Except.ok.inj h)
  split at h
  · rename_i m hm
    obtain ⟨rfl, rfl⟩ := Prod.mk.inj (Except.ok.inj h)
    obtain rfl := char_of_ofChar? hm
    exact .mark m
  split at h
  · rename_i hc
    subst hc
    split at h
    · exact run .line rfl (Except.ok.inj h)
    · split at h
      · rename_i hcut
        obtain ⟨rfl, rfl⟩ := Prod.mk.inj (Except.ok.inj h)
        obtain ⟨inner, rfl, rfl, hinner⟩ := cutComment_eq_some_iff.1 hcut
        exact .block hinner
      · cases h
    · cases h
  · cases h

/-- A lexeme that goes on as long as its class allows is cut off. -/
theorem Run.first_eq_ok (hrun : Run kind begin part) (hall : ∀ d ∈ run, part d = true)
    (hstops : Stops part rest) (hcs : c :: cs = begin ++ (run ++ rest)) :
    Lexeme.first c cs = .ok (⟨kind (begin ++ run), begin ++ run⟩, rest) := by
  have hcut : cutRun kind begin part (run ++ rest) =
      (⟨kind (begin ++ run), begin ++ run⟩, rest) :=
    cutRun_eq_iff.2 ⟨run, rfl, hall, hstops, rfl⟩
  rw [← hcut]
  cases hrun with
  | blank hc =>
    obtain ⟨rfl, rfl⟩ := List.cons.inj hcs
    exact if_pos hc
  | word hc =>
    obtain ⟨rfl, rfl⟩ := List.cons.inj hcs
    have hblank := isBlank_of_isPart (Identifier.isPart_of_isStart hc)
    unfold Lexeme.first
    rw [if_neg (by simp [hblank]), if_pos hc]
    rfl
  | number hc =>
    obtain ⟨rfl, rfl⟩ := List.cons.inj hcs
    have hblank := isBlank_of_isPart (isPart_of_isDigit hc)
    have hstart := isStart_of_isDigit hc
    unfold Lexeme.first
    rw [if_neg (by simp [hblank]), if_neg (by simp [hstart]), if_pos hc]
    rfl
  | line =>
    obtain ⟨rfl, rfl⟩ := List.cons.inj hcs
    rfl

/-- What is cut off a text are exactly these lexemes. -/
theorem first_eq_ok_iff : Lexeme.first c cs = .ok (l, rest) ↔ IsCut (c :: cs) l rest := by
  refine ⟨isCut_of_first, fun h => ?_⟩
  generalize hsource : c :: cs = source at h
  cases h with
  | run hrun hall hstops => exact hrun.first_eq_ok hall hstops hsource
  | mark m =>
    obtain ⟨rfl, rfl⟩ := List.cons.inj hsource
    cases m <;> rfl
  | block hinner =>
    obtain ⟨rfl, rfl⟩ := List.cons.inj hsource
    have hblank : isBlank '/' = false := rfl
    have hstart : Identifier.isStart '/' = false := rfl
    have hdigit : '/'.isDigit = false := rfl
    have hmark : Mark.ofChar? '/' = none := rfl
    simp [Lexeme.first, hblank, hstart, hdigit, hmark, cutComment_append hinner]

/-- Nothing begins with a character, or a comment has no end. -/
theorem of_first_eq_error {cause : LexicalCause} (h : Lexeme.first c cs = .error cause) :
    isBlank c = false ∧ (
      (c = '/' ∧ (∃ ds, cs = '*' :: ds ∧ cutComment ds = none) ∧ cause = .openComment) ∨
      (¬(c = '/' ∧ cs.head? = some '/') ∧ ¬(c = '/' ∧ cs.head? = some '*') ∧
        Identifier.isStart c = false ∧ c.isDigit = false ∧ Mark.ofChar? c = none ∧
        cause = .unexpected c)) := by
  unfold Lexeme.first at h
  split at h
  · cases h
  rename_i hblank
  refine ⟨Bool.eq_false_iff.2 hblank, ?_⟩
  split at h
  · cases h
  rename_i hstart
  split at h
  · cases h
  rename_i hdigit
  split at h
  · cases h
  rename_i hmark
  split at h
  · rename_i hc
    split at h
    · cases h
    · split at h
      · cases h
      · rename_i hcut
        cases h
        exact .inl ⟨hc, ⟨_, rfl, hcut⟩, rfl⟩
    · rename_i hline hblock
      cases h
      refine .inr ⟨fun h => ?_, fun h => ?_, Bool.eq_false_iff.2 hstart,
        Bool.eq_false_iff.2 hdigit, hmark, rfl⟩
      · obtain ⟨ds, rfl⟩ := List.head?_eq_some_iff.1 h.2
        exact hline ds rfl
      · obtain ⟨ds, rfl⟩ := List.head?_eq_some_iff.1 h.2
        exact hblock ds rfl
  · rename_i hc
    cases h
    exact .inr ⟨fun h => hc h.1, fun h => hc h.1, Bool.eq_false_iff.2 hstart,
      Bool.eq_false_iff.2 hdigit, hmark, rfl⟩

theorem IsCut.append (h : IsCut text l rest) : l.text ++ rest = text := by
  cases h with
  | run => exact List.append_assoc ..
  | mark => rfl
  | block => simp

theorem IsCut.text_ne_nil (h : IsCut text l rest) : l.text ≠ [] := by
  cases h with
  | run hrun => cases hrun <;> simp
  | mark => simp
  | block => simp

/-- A lexeme is cut off in the same way if less text is behind it. -/
theorem IsCut.of_append {more : List Char} (h : IsCut text l (rest ++ more)) :
    IsCut (l.text ++ rest) l rest := by
  generalize hbehind : rest ++ more = behind at h
  cases h with
  | run hrun hall hstops =>
    subst hbehind
    rw [List.append_assoc]
    exact .run hrun hall hstops.of_append
  | mark m => exact .mark m
  | @block inner _ hinner =>
    have h : IsCut ('/' :: '*' :: (inner ++ '*' :: '/' :: rest)) _ rest := .block hinner
    simpa using h

/-! ### Tokens among lexemes -/

theorem tokensOfLexemes_of_none (h : l.kind = none) : tokensOfLexemes offset (l :: ls) =
    tokensOfLexemes (offset + byteLength l.text) ls := by
  rw [tokensOfLexemes, h]

theorem tokensOfLexemes_of_some {k : TokenKind} (h : l.kind = some k) :
    tokensOfLexemes offset (l :: ls) =
      ⟨k, String.ofList l.text, ⟨offset, offset + byteLength l.text⟩⟩ ::
        tokensOfLexemes (offset + byteLength l.text) ls := by
  rw [tokensOfLexemes, h]

/-! ### Whole texts -/

/-- A text falls into lexemes. -/
inductive IsLexed : List Char → List Lexeme → Prop
  | nil : IsLexed [] []
  | cons {text rest : List Char} {l : Lexeme} {ls : List Lexeme} :
      IsCut text l rest → IsLexed rest ls → IsLexed text (l :: ls)

theorem lexemes_eq_ok_iff : lexemes offset text = .ok ls ↔ IsLexed text ls := by
  constructor
  · intro h
    fun_induction lexemes offset text generalizing ls with
    | case1 =>
      cases h
      exact .nil
    | case2 => cases h
    | case3 offset c cs l rest hfirst ih =>
      obtain ⟨ls, hls, rfl⟩ := map_eq_ok_iff.1 h
      exact .cons (first_eq_ok_iff.1 hfirst) (ih hls)
  · intro h
    induction h generalizing offset with
    | nil => rw [lexemes]
    | @cons text rest l ls hcut _ ih =>
      obtain ⟨c, cs, rfl⟩ : ∃ c cs, text = c :: cs := by
        refine List.exists_cons_of_ne_nil fun hnil => ?_
        exact hcut.text_ne_nil (List.append_eq_nil_iff.1 (hcut.append.trans hnil)).1
      have hfirst := first_eq_ok_iff.2 hcut
      rw [lexemes]
      split
      · rename_i heq
        cases hfirst.symm.trans heq
      · rename_i heq
        cases hfirst.symm.trans heq
        rw [ih]
        rfl

/-- If a text falls into lexemes, then each part of it does that ends between two of them. -/
theorem IsLexed.split (h : IsLexed text (ls ++ ms)) :
    ∃ rest, text = ls.flatMap Lexeme.text ++ rest ∧ IsLexed (ls.flatMap Lexeme.text) ls ∧
      IsLexed rest ms := by
  induction ls generalizing text with
  | nil => exact ⟨text, rfl, .nil, h⟩
  | cons l ls ih =>
    cases h with
    | cons hcut h =>
      obtain ⟨rest, rfl, hls, hms⟩ := ih h
      refine ⟨rest, ?_, .cons hcut.of_append hls, hms⟩
      rw [List.flatMap_cons, List.append_assoc, hcut.append]

end Netlist.Header
