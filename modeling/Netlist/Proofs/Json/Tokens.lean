import Mathlib.Data.List.TakeWhile
import Mathlib.Tactic.Common
import Netlist.Json.Printer
import Netlist.Json.Reader

/-!
# The tokens of printed values

A value is printed as the texts of its tokens with white space between some of them. Reading a
printed value gives these tokens back. What follows a value in a printed text is a comma, a line
feed or nothing, so a number ends where its digits do.

## Main definitions

* `Netlist.Json.tokensOf`: the tokens of a value.
* `Netlist.Json.EndsNumber`: a text does not go on with a number that stands before it.

## Main results

* `Netlist.Json.exists_cutString?_renderString`: a printed string is read to its closing quote.
* `Netlist.Json.cutNumber?_toDigits`: a printed number is read to its last digit.
* `Netlist.Json.tokens?_render`: the tokens of a printed value are those of the value.
-/

namespace Netlist.Json

/-! ### The tokens of a value -/

mutual

/-- The tokens of a value. -/
def tokensOf : Json → List Token
  | null => [.null]
  | bool b => [.bool b]
  | number value => [.number value]
  | string content => [.string content]
  | array [] => [.openArray, .closeArray]
  | array (e :: es) => .openArray :: (tokensOf e ++ tokensOfElements es)
  | object [] => [.openObject, .closeObject]
  | object ((name, value) :: ms) =>
    .openObject :: .string name :: .colon :: (tokensOf value ++ tokensOfMembers ms)

/-- The tokens of an array behind its first element. -/
def tokensOfElements : List Json → List Token
  | [] => [.closeArray]
  | e :: es => .comma :: (tokensOf e ++ tokensOfElements es)

/-- The tokens of an object behind its first member. -/
def tokensOfMembers : List (Option String × Json) → List Token
  | [] => [.closeObject]
  | (name, value) :: ms =>
    .comma :: .string name :: .colon :: (tokensOf value ++ tokensOfMembers ms)

end

/-! ### Strings -/

/-- A piece of a string literal stands for a character: it is the character, or gives the code of a
control character. -/
def Piece.StandsFor (p : Piece) (c : Char) : Prop :=
  p = .char c ∨ (p = .unit c.toNat ∧ c.toNat < 0x20)

/-- Pieces that stand for characters have these for their text. -/
private theorem textOfPieces?_eq_some {ps : List Piece} {cs : List Char}
    (h : List.Forall₂ Piece.StandsFor ps cs) : textOfPieces? ps = some cs := by
  induction h with
  | nil => rfl
  | @cons p c ps cs hp hps ih =>
    rcases hp with rfl | ⟨rfl, hc⟩
    · rw [textOfPieces?, ih, Option.map_some]
    -- a control character is no half of a surrogate pair, whatever the next piece is
    · have hhigh : ¬(0xD800 ≤ c.toNat ∧ c.toNat < 0xDC00) := by omega
      have hlow : ¬(0xDC00 ≤ c.toNat ∧ c.toNat < 0xE000) := by omega
      have hsurrogate : ¬(0xD800 ≤ c.toNat ∧ c.toNat < 0xE000) := by omega
      cases ps with
      | nil =>
        rw [textOfPieces?, if_neg hsurrogate, ih, Option.map_some, Char.ofNat_toNat]
        exact fun _ _ h => nomatch h
      | cons q qs =>
        cases q with
        | char d =>
          rw [textOfPieces?, if_neg hsurrogate, ih, Option.map_some, Char.ofNat_toNat]
          exact fun _ _ h => nomatch h
        | unit low =>
          rw [textOfPieces?, if_neg hhigh, if_neg hlow, ih, Option.map_some, Char.ofNat_toNat]

private theorem digit?_hexDigit : ∀ n < 16, digit? 16 (hexDigit n) = some n := by
  decide

private theorem unit?_hexDigit {n : Nat} (h : n < 0x20) :
    unit? '0' '0' (hexDigit (n / 16)) (hexDigit (n % 16)) = some n := by
  have hzero : digit? 16 '0' = some 0 := by decide
  rw [unit?, hzero, digit?_hexDigit _ (by omega), digit?_hexDigit _ (by omega)]
  refine congrArg some ?_
  omega

private theorem cutString?_backslash {e c : Char} (he : escaped? e = some c) (cs : List Char) :
    cutString? ('\\' :: e :: cs) = (cutString? cs).map fun r => (.char c :: r.1, r.2) := by
  have hu : e ≠ 'u' := by
    rintro rfl
    cases he
  rw [cutString?]
  · rw [he]
    cases cutString? cs <;> rfl
  · rintro a b c d cs' rfl
    exact absurd rfl hu

private theorem cutString?_self {c : Char} (hquote : c ≠ '"') (hslash : c ≠ '\\')
    (hc : ¬c.toNat < 0x20) (cs : List Char) :
    cutString? (c :: cs) = (cutString? cs).map fun r => (.char c :: r.1, r.2) := by
  rw [cutString?, if_neg (not_or.2 ⟨hc, hslash⟩)]
  · exact hquote
  · exact fun _ _ _ _ _ h => absurd h hslash
  · exact fun _ _ h => absurd h hslash

/-- What a character is printed as is read as one piece that stands for it. -/
private theorem exists_cutString?_escape (c : Char) : ∃ p : Piece, p.StandsFor c ∧
    ∀ cs, cutString? (escape c ++ cs) = (cutString? cs).map fun r => (p :: r.1, r.2) := by
  have short {e : Char} (he : escaped? e = some c) (hesc : escape c = ['\\', e]) :
      ∃ p : Piece, p.StandsFor c ∧
        ∀ cs, cutString? (escape c ++ cs) = (cutString? cs).map fun r => (p :: r.1, r.2) :=
    ⟨.char c, Or.inl rfl, fun cs => hesc ▸ cutString?_backslash he cs⟩
  by_cases h₁ : c = '"'
  · subst h₁
    exact short (e := '"') rfl rfl
  by_cases h₂ : c = '\\'
  · subst h₂
    exact short (e := '\\') rfl rfl
  by_cases h₃ : c = '\x08'
  · subst h₃
    exact short (e := 'b') rfl rfl
  by_cases h₄ : c = '\x0c'
  · subst h₄
    exact short (e := 'f') rfl rfl
  by_cases h₅ : c = '\n'
  · subst h₅
    exact short (e := 'n') rfl rfl
  by_cases h₆ : c = '\r'
  · subst h₆
    exact short (e := 'r') rfl rfl
  by_cases h₇ : c = '\t'
  · subst h₇
    exact short (e := 't') rfl rfl
  by_cases h₈ : c.toNat < 0x20
  · refine ⟨.unit c.toNat, Or.inr ⟨rfl, h₈⟩, fun cs => ?_⟩
    rw [escape, if_neg h₁, if_neg h₂, if_neg h₃, if_neg h₄, if_neg h₅, if_neg h₆, if_neg h₇,
      if_pos h₈]
    simp only [List.cons_append, List.nil_append]
    rw [cutString?, unit?_hexDigit h₈]
    cases cutString? cs <;> rfl
  · refine ⟨.char c, Or.inl rfl, fun cs => ?_⟩
    rw [escape, if_neg h₁, if_neg h₂, if_neg h₃, if_neg h₄, if_neg h₅, if_neg h₆, if_neg h₇,
      if_neg h₈]
    exact cutString?_self h₁ h₂ h₈ cs

/-- A printed string is read to its closing quote. -/
theorem exists_cutString?_renderString (s : Option String) : ∃ ps, ∃ cs,
    renderString s = '"' :: cs ∧ (textOfPieces? ps).map String.ofList = s ∧
      ∀ rest, cutString? (cs ++ rest) = some (ps, rest) := by
  cases s with
  | none =>
    refine ⟨[.unit 0xD800], _, rfl, rfl, fun rest => ?_⟩
    have hunit : unit? 'd' '8' '0' '0' = some 0xD800 := by decide
    simp only [List.cons_append, List.nil_append]
    rw [cutString?, hunit, cutString?]
    rfl
  | some s =>
    have hpieces (cs : List Char) : ∃ ps, List.Forall₂ Piece.StandsFor ps cs ∧
        ∀ rest, cutString? (cs.flatMap escape ++ '"' :: rest) = some (ps, rest) := by
      induction cs with
      | nil => exact ⟨[], .nil, fun rest => by rw [List.flatMap_nil, List.nil_append, cutString?]⟩
      | cons c cs ih =>
        obtain ⟨ps, hps, hcut⟩ := ih
        obtain ⟨p, hp, hesc⟩ := exists_cutString?_escape c
        refine ⟨p :: ps, .cons hp hps, fun rest => ?_⟩
        rw [List.flatMap_cons, List.append_assoc, hesc, hcut, Option.map_some]
    obtain ⟨ps, hps, hcut⟩ := hpieces s.toList
    refine ⟨ps, _, rfl, ?_, fun rest => ?_⟩
    · rw [textOfPieces?_eq_some hps, Option.map_some, String.ofList_toList]
    · exact (congrArg cutString? (List.append_assoc _ _ _)).trans (hcut rest)

/-! ### Numbers -/

/-- A text does not go on with a number that stands before it. -/
def EndsNumber (rest : List Char) : Prop :=
  ∀ c ∈ rest.head?, c.isDigit = false ∧ c ≠ '.' ∧ c ≠ 'e' ∧ c ≠ 'E'

private theorem takeWhile_isDigit_append {ds rest : List Char} (hds : ∀ d ∈ ds, d.isDigit = true)
    (hrest : EndsNumber rest) : (ds ++ rest).takeWhile Char.isDigit = ds ∧
      (ds ++ rest).dropWhile Char.isDigit = rest := by
  rw [List.takeWhile_append_of_pos hds, List.dropWhile_append_of_pos hds]
  cases rest with
  | nil => exact ⟨List.append_nil ds, rfl⟩
  | cons c cs =>
    have hc := (hrest c rfl).1
    rw [List.takeWhile_cons_of_neg (by simp [hc]), List.dropWhile_cons_of_neg (by simp [hc])]
    exact ⟨List.append_nil ds, rfl⟩

/-- Only zero is printed with a leading zero. -/
private theorem eq_zero_of_toDigits (n : Nat) {ds : List Char}
    (h : Nat.toDigits 10 n = '0' :: ds) : n = 0 := by
  induction n using Nat.strongRecOn generalizing ds with
  | _ n ih =>
    by_cases hn : n < 10
    · rw [Nat.toDigits_of_lt_base hn] at h
      exact Nat.digitChar_eq_zero.1 (List.cons.inj h).1
    · rw [Nat.toDigits_of_base_le (by decide) (Nat.le_of_not_lt hn)] at h
      obtain ⟨e, es, he⟩ := List.exists_cons_of_ne_nil (Nat.toDigits_ne_nil (n := n / 10) (b := 10))
      rw [he, List.cons_append] at h
      have hzero := ih (n / 10) (by omega) (he.trans (congrArg (· :: es) (List.cons.inj h).1))
      omega

private theorem cutInteger?_toDigits (n : Nat) {rest : List Char} (hrest : EndsNumber rest) :
    cutInteger? (Nat.toDigits 10 n ++ rest) = some (Nat.toDigits 10 n, rest) := by
  have hdigits : ∀ d ∈ Nat.toDigits 10 n, d.isDigit = true :=
    fun d hd => Nat.isDigit_of_mem_toDigits (by decide) (by decide) hd
  obtain ⟨htake, hdrop⟩ := takeWhile_isDigit_append hdigits hrest
  unfold cutInteger?
  split
  · rename_i cs hcs
    obtain ⟨d, ds, hds⟩ := List.exists_cons_of_ne_nil (Nat.toDigits_ne_nil (n := n) (b := 10))
    rw [hds, List.cons_append] at hcs
    obtain ⟨rfl, rfl⟩ := List.cons.inj hcs
    obtain rfl := eq_zero_of_toDigits n hds
    cases hds
    rfl
  · rw [cutDigits?, htake, hdrop, if_neg Nat.toDigits_ne_nil]

private theorem cutFraction?_of_endsNumber {rest : List Char} (hrest : EndsNumber rest) :
    cutFraction? rest = some (false, rest) := by
  cases rest with
  | nil => rfl
  | cons c cs =>
    rw [cutFraction?]
    rintro cs' h
    exact (hrest c rfl).2.1 (List.cons.inj h).1

private theorem cutExponent?_of_endsNumber {rest : List Char} (hrest : EndsNumber rest) :
    cutExponent? rest = some (false, rest) := by
  cases rest with
  | nil => rfl
  | cons c cs =>
    obtain ⟨-, -, he, hE⟩ := hrest c rfl
    unfold cutExponent?
    exact if_neg (not_or.2 ⟨he, hE⟩)

/-- A printed number is read to its last digit. -/
theorem cutNumber?_toDigits (n : Nat) {rest : List Char} (hrest : EndsNumber rest) :
    cutNumber? (Nat.toDigits 10 n ++ rest) = some (some n, rest) := by
  have hvalue : Nat.ofDigitChars 10 (Nat.toDigits 10 n) 0 = n :=
    Nat.ofDigitChars_toDigits (by decide) (by decide)
  unfold cutNumber?
  split
  rename_i negative cs hmatch
  split at hmatch
  · rename_i ds hds
    obtain ⟨d, es, hes⟩ := List.exists_cons_of_ne_nil (Nat.toDigits_ne_nil (n := n) (b := 10))
    have hd : d.isDigit = true := Nat.isDigit_of_mem_toDigits (b := 10) (n := n) (by decide)
      (by decide) (hes ▸ List.mem_cons_self)
    rw [hes, List.cons_append] at hds
    rw [(List.cons.inj hds).1] at hd
    cases hd
  · cases hmatch
    simp only [cutInteger?_toDigits n hrest, cutFraction?_of_endsNumber hrest,
      cutExponent?_of_endsNumber hrest, Option.bind_eq_bind, Option.bind_some, Bool.or_self,
      Bool.false_eq_true, if_false, hvalue]
    rfl

/-- The text for a number that is not natural is read as such a number. -/
private theorem cutNumber?_negativeZero {rest : List Char} (hrest : EndsNumber rest) :
    cutNumber? ('-' :: '0' :: rest) = some (none, rest) := by
  simp only [cutNumber?, cutInteger?, cutFraction?_of_endsNumber hrest,
    cutExponent?_of_endsNumber hrest, Option.bind_eq_bind, Option.bind_some, Bool.true_or, if_true]
  rfl

/-! ### Tokens -/

private theorem tokens?_of_cutToken? {c : Char} {cs rest : List Char} {t : Token}
    (hc : isBlank c = false) (h : cutToken? (c :: cs) = some (t, rest)) :
    tokens? (c :: cs) = (tokens? rest).map (t :: ·) := by
  rw [tokens?, hc, if_neg Bool.false_ne_true]
  split
  · rename_i hnone
    cases h.symm.trans hnone
  · rename_i t' rest' hsome
    cases h.symm.trans hsome
    rfl

private theorem tokens?_newline (depth : Nat) (cs : List Char) :
    tokens? (newline depth ++ cs) = tokens? cs := by
  have hblanks (n : Nat) : tokens? (List.replicate n ' ' ++ cs) = tokens? cs := by
    induction n with
    | zero => rw [List.replicate_zero, List.nil_append]
    | succ n ih =>
      rw [List.replicate_succ, List.cons_append, tokens?, if_pos (by decide), ih]
  rw [newline, List.cons_append, tokens?, if_pos (by decide), hblanks]

/-- A name is followed by a colon and a blank. -/
private theorem tokens?_colon (cs : List Char) :
    tokens? (':' :: ' ' :: cs) = (tokens? cs).map (.colon :: ·) := by
  rw [tokens?_of_cutToken? (by decide) rfl, tokens?, if_pos (by decide)]

private theorem tokens?_renderString (s : Option String) (rest : List Char) :
    tokens? (renderString s ++ rest) = (tokens? rest).map (.string s :: ·) := by
  obtain ⟨ps, cs, hs, htext, hcut⟩ := exists_cutString?_renderString s
  rw [hs, List.cons_append]
  refine tokens?_of_cutToken? (by decide) ?_
  rw [cutToken?, hcut, Option.map_some, htext]

private theorem isBlank_of_digit {d : Char} (hd : d.isDigit = true ∨ d = '-') :
    isBlank d = false := by
  simp only [isBlank, Bool.or_eq_false_iff, beq_eq_false_iff_ne]
  refine ⟨⟨⟨?_, ?_⟩, ?_⟩, ?_⟩ <;>
  · rintro rfl
    exact absurd hd (by decide)

private theorem cutToken?_number {cs rest : List Char} {n : Option Nat} {d : Char}
    (hd : d.isDigit = true ∨ d = '-') (h : cutNumber? (d :: cs) = some (n, rest)) :
    cutToken? (d :: cs) = some (.number n, rest) := by
  unfold cutToken?
  split
  case h_11 => rw [h, Option.map_some]
  all_goals
    rename_i hcons
    rw [(List.cons.inj hcons).1] at hd
    exact absurd hd (by decide)

private theorem tokens?_number (value : Option Nat) {rest : List Char} (hrest : EndsNumber rest)
    (depth : Nat) : tokens? (render depth (.number value) ++ rest) =
      (tokens? rest).map (.number value :: ·) := by
  have hcut : ∃ d cs, (d.isDigit = true ∨ d = '-') ∧ render depth (.number value) = d :: cs ∧
      cutNumber? (d :: (cs ++ rest)) = some (value, rest) := by
    cases value with
    | none => exact ⟨'-', ['0'], Or.inr rfl, rfl, cutNumber?_negativeZero hrest⟩
    | some n =>
      obtain ⟨d, ds, hds⟩ := List.exists_cons_of_ne_nil (Nat.toDigits_ne_nil (n := n) (b := 10))
      have hd : d.isDigit = true := Nat.isDigit_of_mem_toDigits (b := 10) (n := n) (by decide)
        (by decide) (hds ▸ List.mem_cons_self)
      refine ⟨d, ds, Or.inl hd, by rw [render, hds], ?_⟩
      rw [← List.cons_append, ← hds]
      exact cutNumber?_toDigits n hrest
  obtain ⟨d, cs, hd, hrender, hcut⟩ := hcut
  rw [hrender, List.cons_append]
  exact tokens?_of_cutToken? (isBlank_of_digit hd) (cutToken?_number hd hcut)

/-! ### Values -/

private theorem endsNumber_cons {c : Char} (hc : c.isDigit = false ∧ c ≠ '.' ∧ c ≠ 'e' ∧ c ≠ 'E')
    (cs : List Char) : EndsNumber (c :: cs) := by
  rintro _ ⟨⟩
  exact hc

theorem EndsNumber.nil : EndsNumber [] :=
  fun _ h => nomatch h

private theorem endsNumber_newline (depth : Nat) (cs : List Char) :
    EndsNumber (newline depth ++ cs) :=
  endsNumber_cons (by decide) _

private theorem endsNumber_renderElements (depth : Nat) (es : List Json) {cs : List Char}
    (hcs : EndsNumber cs) : EndsNumber (renderElements depth es ++ cs) := by
  cases es with
  | nil => rwa [renderElements, List.nil_append]
  | cons e es =>
    rw [renderElements]
    exact endsNumber_cons (by decide) _

private theorem endsNumber_renderMembers (depth : Nat) (ms : List (Option String × Json))
    {cs : List Char} (hcs : EndsNumber cs) : EndsNumber (renderMembers depth ms ++ cs) := by
  cases ms with
  | nil => rwa [renderMembers, List.nil_append]
  | cons m ms =>
    obtain ⟨name, value⟩ := m
    rw [renderMembers]
    exact endsNumber_cons (by decide) _

mutual

/-- The tokens of a printed value are those of the value, whatever stands behind it. -/
theorem tokens?_render (depth : Nat) (j : Json) {rest : List Char} (hrest : EndsNumber rest) :
    tokens? (render depth j ++ rest) = (tokens? rest).map (tokensOf j ++ ·) :=
  match j with
  | .null => tokens?_of_cutToken? (by decide) rfl
  | .bool true => tokens?_of_cutToken? (by decide) rfl
  | .bool false => tokens?_of_cutToken? (by decide) rfl
  | .number value => tokens?_number value hrest depth
  | .string content => tokens?_renderString content rest
  | .array [] => by
    rw [render, List.cons_append, tokens?_of_cutToken? (by decide) rfl, List.singleton_append,
      tokens?_of_cutToken? (by decide) rfl, Option.map_map]
    rfl
  | .array (e :: es) => by
    rw [render]
    simp only [List.cons_append, List.append_assoc, List.nil_append]
    rw [tokens?_of_cutToken? (by decide) rfl, tokens?_newline,
      tokens?_render (depth + 1) e (endsNumber_renderElements _ es (endsNumber_newline _ _)),
      tokens?_renderElements depth es rest, Option.map_map, Option.map_map]
    refine congrArg (Option.map · _) (funext fun ts => ?_)
    simp only [Function.comp_apply, tokensOf, List.cons_append, List.append_assoc]
  | .object [] => by
    rw [render, List.cons_append, tokens?_of_cutToken? (by decide) rfl, List.singleton_append,
      tokens?_of_cutToken? (by decide) rfl, Option.map_map]
    rfl
  | .object ((name, value) :: ms) => by
    rw [render]
    simp only [List.cons_append, List.append_assoc, List.nil_append]
    rw [tokens?_of_cutToken? (by decide) rfl, tokens?_newline, tokens?_renderString,
      tokens?_colon, tokens?_render (depth + 1) value
        (endsNumber_renderMembers _ ms (endsNumber_newline _ _)),
      tokens?_renderMembers depth ms rest, Option.map_map, Option.map_map, Option.map_map,
      Option.map_map]
    refine congrArg (Option.map · _) (funext fun ts => ?_)
    simp only [Function.comp_apply, tokensOf, List.cons_append, List.append_assoc]

/-- The tokens of a printed array behind its first element. -/
theorem tokens?_renderElements (depth : Nat) (es : List Json) (rest : List Char) :
    tokens? (renderElements (depth + 1) es ++ (newline depth ++ ']' :: rest)) =
      (tokens? rest).map (tokensOfElements es ++ ·) :=
  match es with
  | [] => by
    rw [renderElements, List.nil_append, tokens?_newline, tokens?_of_cutToken? (by decide) rfl]
    rfl
  | e :: es => by
    rw [renderElements]
    simp only [List.cons_append, List.append_assoc]
    rw [tokens?_of_cutToken? (by decide) rfl, tokens?_newline,
      tokens?_render (depth + 1) e (endsNumber_renderElements _ es (endsNumber_newline _ _)),
      tokens?_renderElements depth es rest, Option.map_map, Option.map_map]
    refine congrArg (Option.map · _) (funext fun ts => ?_)
    simp only [Function.comp_apply, tokensOfElements, List.cons_append, List.append_assoc]

/-- The tokens of a printed object behind its first member. -/
theorem tokens?_renderMembers (depth : Nat) (ms : List (Option String × Json))
    (rest : List Char) :
    tokens? (renderMembers (depth + 1) ms ++ (newline depth ++ '}' :: rest)) =
      (tokens? rest).map (tokensOfMembers ms ++ ·) :=
  match ms with
  | [] => by
    rw [renderMembers, List.nil_append, tokens?_newline, tokens?_of_cutToken? (by decide) rfl]
    rfl
  | (name, value) :: ms => by
    rw [renderMembers]
    simp only [List.cons_append, List.append_assoc, List.nil_append]
    rw [tokens?_of_cutToken? (by decide) rfl, tokens?_newline, tokens?_renderString,
      tokens?_colon, tokens?_render (depth + 1) value
        (endsNumber_renderMembers _ ms (endsNumber_newline _ _)),
      tokens?_renderMembers depth ms rest, Option.map_map, Option.map_map, Option.map_map,
      Option.map_map]
    refine congrArg (Option.map · _) (funext fun ts => ?_)
    simp only [Function.comp_apply, tokensOfMembers, List.cons_append, List.append_assoc]

end

end Netlist.Json
