import Netlist.Header.Grammar
import Netlist.Header.Reader
import Netlist.Proofs.Sequencing

/-!
# Numbers in header texts

What a text is cut into ends with a token for its end, and every number token in it is spelled as a
number. The value that is read from such a token is the number that its characters spell.

## Main definitions

* `Netlist.Header.Spelled`: number tokens are spelled as numbers.

## Main results

* `Netlist.Header.value_eq_ok_iff`: the value of a number token.
* `Netlist.Header.spelled_of_tokens`: the tokens of a text.
-/

namespace Netlist.Header

variable {t : Token} {ts us : List Token} {n : UInt32}

/-! ### Values -/

private theorem filter_digit {c : Char} (hc : c.isDigit = true) :
    [c].filter (· ≠ '_') = [c] := by
  have hne : c ≠ '_' := by
    rintro rfl
    exact absurd hc (by decide)
  simp [hne]

/-- Without its underscores, a numeral consists of digits, of which there is one at least, and these
have its value. -/
theorem digits_of_isNumeral {cs : List Char} {m : Nat} (h : IsNumeral cs m) :
    (∃ c ds, cs.filter (· ≠ '_') = c :: ds ∧ (c :: ds).all Char.isDigit = true) ∧
      valueOfDigits (cs.filter (· ≠ '_')) = m := by
  unfold valueOfDigits
  induction h with
  | @digit c hc =>
    rw [filter_digit hc]
    exact ⟨⟨c, [], rfl, by simpa using hc⟩, by simp [Nat.ofDigitChars_cons]⟩
  | @more cs m c _ hc ih =>
    obtain ⟨⟨first, ds, hds, hall⟩, hvalue⟩ := ih
    rw [List.filter_append, filter_digit hc, Nat.ofDigitChars_append, hvalue]
    refine ⟨⟨first, ds ++ [c], by rw [hds, List.cons_append], ?_⟩, by simp [Nat.ofDigitChars_cons]⟩
    rw [← List.cons_append, List.all_append, hall]
    simpa using hc
  | underscore _ ih =>
    rw [List.filter_append]
    simpa using ih

/-- The value of a number token is that of its numeral, if this fits in 32 bits. -/
theorem value_eq_ok_iff {m : Nat} (h : IsNumeral t.text.toList m) :
    t.value = .ok n ↔ n.toNat = m := by
  obtain ⟨⟨c, ds, hds, hall⟩, hvalue⟩ := digits_of_isNumeral h
  have hplus : c ≠ '+' := by
    rintro rfl
    cases hall
  have hword : word32? (digitsOf t.text) =
      if m < UInt32.size then some (UInt32.ofNat m) else none := by
    unfold word32? digitsOf
    rw [hds] at hvalue ⊢
    split
    · rename_i heq
      exact absurd (List.cons.inj heq).1 hplus
    · simp only [hall, hvalue]
      simp
  unfold Token.value
  rw [hword]
  split_ifs with hm
  · simp only [Except.ok.injEq]
    constructor
    · rintro rfl
      exact UInt32.toNat_ofNat_of_lt hm
    · rintro rfl
      exact UInt32.ofNat_toNat
  · refine ⟨fun h => (nomatch h), ?_⟩
    rintro rfl
    exact absurd n.toNat_lt hm

/-! ### Tokens that were cut from a text -/

/-- The number tokens among several tokens are spelled as numbers. -/
def Spelled (ts : List Token) : Prop :=
  ∀ t ∈ ts, t.kind = .number → ∃ m, IsNumeral t.text.toList m

theorem spelled_append : Spelled (ts ++ us) ↔ Spelled ts ∧ Spelled us :=
  List.forall_mem_append

theorem spelled_cons :
    Spelled (t :: ts) ↔ (t.kind = .number → ∃ m, IsNumeral t.text.toList m) ∧ Spelled ts :=
  List.forall_mem_cons

/-- Behind a number, characters of numbers spell another number. -/
theorem exists_isNumeral_append {front : List Char} {m : Nat} (h : IsNumeral front m)
    {cs : List Char} (hcs : ∀ d ∈ cs, isNumberPart d = true) : ∃ m, IsNumeral (front ++ cs) m := by
  induction cs generalizing front m with
  | nil => exact ⟨m, (List.append_nil front).symm ▸ h⟩
  | cons d cs ih =>
    obtain ⟨hd, htail⟩ := List.forall_mem_cons.1 hcs
    simp only [isNumberPart, Bool.or_eq_true, beq_iff_eq] at hd
    rw [List.append_cons]
    rcases hd with hd | rfl
    · exact ih (h.more hd) htail
    · exact ih h.underscore htail

/-- A lexeme that is a number is spelled as one, and none is the end of a text. -/
theorem kind_of_first {c : Char} {cs rest : List Char} {l : Lexeme}
    (h : Lexeme.first c cs = .ok (l, rest)) : l.kind ≠ some .endOfFile ∧
      (l.kind = some .number → ∃ m, IsNumeral l.text m) := by
  unfold Lexeme.first at h
  split at h
  · cases Except.ok.inj h
    exact ⟨nofun, nofun⟩
  split at h
  · cases Except.ok.inj h
    dsimp only [cutRun, wordKind]
    split <;> exact ⟨nofun, nofun⟩
  split at h
  · rename_i hc
    cases Except.ok.inj h
    exact ⟨nofun, fun _ =>
      exists_isNumeral_append (.digit hc) (List.all_eq_true.1 List.all_takeWhile)⟩
  split at h
  · cases Except.ok.inj h
    exact ⟨nofun, nofun⟩
  split at h
  · split at h
    · cases Except.ok.inj h
      exact ⟨nofun, nofun⟩
    · split at h
      · cases Except.ok.inj h
        exact ⟨nofun, nofun⟩
      · cases h
    · cases h
  · cases h

theorem kind_of_mem_lexemes {offset : Nat} {source : List Char} {ls : List Lexeme}
    (h : lexemes offset source = .ok ls) : ∀ l ∈ ls, l.kind ≠ some .endOfFile ∧
      (l.kind = some .number → ∃ m, IsNumeral l.text m) := by
  fun_induction lexemes offset source generalizing ls with
  | case1 =>
    cases h
    exact fun _ hl => absurd hl List.not_mem_nil
  | case2 => cases h
  | case3 offset c cs l rest hfirst ih =>
    obtain ⟨ls', hls', rfl⟩ := map_eq_ok_iff.1 h
    exact List.forall_mem_cons.2 ⟨kind_of_first hfirst, ih hls'⟩

theorem spelled_tokensOfLexemes {ls : List Lexeme} (h : ∀ l ∈ ls, l.kind ≠ some .endOfFile ∧
    (l.kind = some .number → ∃ m, IsNumeral l.text m)) (offset : Nat) :
    ∃ body stop, tokensOfLexemes offset ls = body ++ [stop] ∧ stop.kind = .endOfFile ∧
      (∀ t ∈ body, t.kind ≠ .endOfFile) ∧ Spelled body := by
  induction ls generalizing offset with
  | nil => exact ⟨[], _, rfl, rfl, nofun, nofun⟩
  | cons l ls ih =>
    obtain ⟨⟨hend, hnumber⟩, h⟩ := List.forall_mem_cons.1 h
    obtain ⟨body, stop, heq, hstop, hbody, hspelled⟩ := ih h (offset + byteLength l.text)
    unfold tokensOfLexemes
    dsimp only
    split
    · exact ⟨body, stop, heq, hstop, hbody, hspelled⟩
    · rename_i kind hkind
      refine ⟨_ :: body, stop, congrArg (_ :: ·) heq, hstop, List.forall_mem_cons.2 ⟨?_, hbody⟩,
        spelled_cons.2 ⟨?_, hspelled⟩⟩
      · rintro rfl
        exact hend hkind
      · rintro rfl
        simpa using hnumber hkind

/-- The tokens of a text end with one for its end, which none of the others is, and the numbers
among them are spelled as numbers. -/
theorem spelled_of_tokens {source : List Char} (h : tokens source = .ok ts) :
    ∃ body stop, ts = body ++ [stop] ∧ stop.kind = .endOfFile ∧
      (∀ t ∈ body, t.kind ≠ .endOfFile) ∧ Spelled body := by
  obtain ⟨ls, hls, rfl⟩ := map_eq_ok_iff.1 h
  exact spelled_tokensOfLexemes (kind_of_mem_lexemes hls) 0

end Netlist.Header
