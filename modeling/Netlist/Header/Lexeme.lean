import Netlist.Header.Token
import Netlist.Identifier

/-!
# Cutting a header text into lexemes

A text is cut from the left into lexemes: runs of white space, comments, words, numbers and
marks. Each lexeme is as long as its class allows. White space and comments say nothing; the
others are the tokens.

## Main definitions

* `Netlist.Header.Lexeme`, `Netlist.Header.Lexeme.first`: one lexeme, and how it is cut off.
* `Netlist.Header.lexemes`: the lexemes of a whole text, or the first place where none begins.
* `Netlist.Header.tokens`: the tokens of a text, ended by one for the end of the text.

## Main results

* `Netlist.Header.text_append_of_first`: cutting off a lexeme loses no character.
* `Netlist.Header.flatMap_text_lexemes`: the lexemes of a text spell the text.
-/

namespace Netlist.Header

/-- Space, tab, line feed, form feed and carriage return. -/
def isBlank (c : Char) : Bool :=
  c == ' ' || c == '\t' || c == '\n' || c == '\x0c' || c == '\r'

/-- A character of a number after its first digit; underscores group digits. -/
def isNumberPart (c : Char) : Bool :=
  c.isDigit || c == '_'

/-- A piece of text that stands on its own. -/
structure Lexeme where
  /-- The kind of token, or `none` for white space and comments. -/
  kind : Option TokenKind
  /-- The characters. -/
  text : List Char
deriving DecidableEq, Repr

/-- Why no lexeme begins at a place. -/
inductive LexicalCause where
  /-- The character begins nothing. -/
  | unexpected (c : Char)
  /-- A block comment has no end. -/
  | openComment
deriving DecidableEq, Repr

/-- The wording of a lexical error. -/
def LexicalCause.message : LexicalCause → String
  | unexpected c => s!"unexpected character '{c}'"
  | openComment => "unterminated block comment"

/-- The text up to and including the first end of a block comment, and the text behind it. -/
def cutComment : List Char → Option (List Char × List Char)
  | [] => none
  | '*' :: '/' :: cs => some (['*', '/'], cs)
  | c :: cs => (cutComment cs).map fun r => (c :: r.1, r.2)

theorem append_of_cutComment {cs a b : List Char} (h : cutComment cs = some (a, b)) :
    a ++ b = cs := by
  fun_induction cutComment cs generalizing a with
  | case1 => simp at h
  | case2 cs =>
    simp only [Option.some.injEq, Prod.mk.injEq] at h
    obtain ⟨rfl, rfl⟩ := h
    rfl
  | case3 c cs _ ih =>
    obtain ⟨⟨a', b'⟩, h', he⟩ := Option.map_eq_some_iff.1 h
    simp only [Prod.mk.injEq] at he
    obtain ⟨rfl, rfl⟩ := he
    rw [List.cons_append, ih h']

/-- The longest lexeme of a class: its first characters and those after them that satisfy
`part`; and the text behind it. -/
def cutRun (kind : List Char → Option TokenKind) (first : List Char) (part : Char → Bool)
    (cs : List Char) : Lexeme × List Char :=
  let word := first ++ cs.takeWhile part
  (⟨kind word, word⟩, cs.dropWhile part)

theorem text_append_cutRun (kind : List Char → Option TokenKind) (first : List Char)
    (part : Char → Bool) (cs : List Char) :
    (cutRun kind first part cs).1.text ++ (cutRun kind first part cs).2 = first ++ cs := by
  simp [cutRun, List.takeWhile_append_dropWhile]

/-- A word is a keyword if it is spelled like one, else a name. -/
def wordKind (word : List Char) : TokenKind :=
  match Keyword.ofText? (String.ofList word) with
  | some k => .keyword k
  | none => .name

/-- Cut the first lexeme off a text that begins with the character `c`. -/
def Lexeme.first (c : Char) (cs : List Char) : Except LexicalCause (Lexeme × List Char) :=
  if isBlank c then .ok (cutRun (fun _ => none) [c] isBlank cs)
  else if Identifier.isStart c then
    .ok (cutRun (fun word => some (wordKind word)) [c] Identifier.isPart cs)
  else if c.isDigit then .ok (cutRun (fun _ => some .number) [c] isNumberPart cs)
  else match Mark.ofChar? c with
    | some m => .ok (⟨some (.mark m), [c]⟩, cs)
    | none =>
      if c = '/' then
        match cs with
        | '/' :: ds => .ok (cutRun (fun _ => none) ['/', '/'] (· ≠ '\n') ds)
        | '*' :: ds =>
          match cutComment ds with
          | some (body, rest) => .ok (⟨none, '/' :: '*' :: body⟩, rest)
          | none => .error .openComment
        | _ => .error (.unexpected c)
      else .error (.unexpected c)

/-- Cutting off a lexeme loses no character. -/
theorem text_append_of_first {c : Char} {cs rest : List Char} {l : Lexeme}
    (h : Lexeme.first c cs = .ok (l, rest)) : l.text ++ rest = c :: cs := by
  have run (kind first part ds) (he : first ++ ds = c :: cs)
      (hr : cutRun kind first part ds = (l, rest)) : l.text ++ rest = c :: cs := by
    have := text_append_cutRun kind first part ds
    rw [hr, he] at this
    exact this
  unfold Lexeme.first at h
  split at h
  · exact run _ _ _ _ rfl (Except.ok.inj h)
  split at h
  · exact run _ _ _ _ rfl (Except.ok.inj h)
  split at h
  · exact run _ _ _ _ rfl (Except.ok.inj h)
  split at h
  · obtain ⟨rfl, rfl⟩ := Prod.mk.inj (Except.ok.inj h)
    rfl
  split at h
  · rename_i hc
    subst hc
    split at h
    · exact run _ _ _ _ rfl (Except.ok.inj h)
    · split at h
      · rename_i hb
        obtain ⟨rfl, rfl⟩ := Prod.mk.inj (Except.ok.inj h)
        rw [← append_of_cutComment hb]
        rfl
      · cases h
    · cases h
  · cases h

/-- A lexeme is never empty. -/
theorem text_ne_nil_of_first {c : Char} {cs rest : List Char} {l : Lexeme}
    (h : Lexeme.first c cs = .ok (l, rest)) : l.text ≠ [] := by
  unfold Lexeme.first at h
  split at h
  · cases Except.ok.inj h
    simp
  split at h
  · cases Except.ok.inj h
    simp
  split at h
  · cases Except.ok.inj h
    simp
  split at h
  · cases Except.ok.inj h
    simp
  split at h
  · split at h
    · cases Except.ok.inj h
      simp
    · split at h
      · cases Except.ok.inj h
        simp
      · cases h
    · cases h
  · cases h

private theorem length_lt_of_first {c : Char} {cs rest : List Char} {l : Lexeme}
    (h : Lexeme.first c cs = .ok (l, rest)) : rest.length < (c :: cs).length := by
  rw [← text_append_of_first h, List.length_append]
  have := List.length_pos_iff.2 (text_ne_nil_of_first h)
  omega

/-- A lexical error and the offset at which no lexeme begins. -/
structure LexicalError where
  offset : Nat
  cause : LexicalCause
deriving DecidableEq, Repr

/-- The lexemes of a text that begins at an offset. -/
def lexemes (offset : Nat) (source : List Char) : Except LexicalError (List Lexeme) :=
  match source with
  | [] => .ok []
  | c :: cs =>
    match _h : Lexeme.first c cs with
    | .error cause => .error ⟨offset, cause⟩
    | .ok (l, rest) => (lexemes (offset + byteLength l.text) rest).map (l :: ·)
termination_by source.length
decreasing_by exact length_lt_of_first _h

/-- The lexemes of a text spell the text. -/
theorem flatMap_text_lexemes {offset : Nat} {source : List Char} {ls : List Lexeme}
    (h : lexemes offset source = .ok ls) : ls.flatMap Lexeme.text = source := by
  fun_induction lexemes offset source generalizing ls with
  | case1 =>
    cases h
    rfl
  | case2 => cases h
  | case3 offset c cs l rest hf ih =>
    rw [← text_append_of_first hf]
    cases hr : lexemes (offset + byteLength l.text) rest with
    | error e => rw [hr] at h; cases h
    | ok ls' =>
      rw [hr] at h
      cases h
      rw [List.flatMap_cons, ih hr]

/-- The tokens among lexemes that begin at an offset, and a last one for the end. -/
def tokensOfLexemes (offset : Nat) : List Lexeme → List Token
  | [] => [⟨.endOfFile, "", ⟨offset, offset⟩⟩]
  | l :: ls =>
    let stop := offset + byteLength l.text
    match l.kind with
    | none => tokensOfLexemes stop ls
    | some kind => ⟨kind, String.ofList l.text, ⟨offset, stop⟩⟩ :: tokensOfLexemes stop ls

/-- The tokens of a text, ended by one for the end of the text. -/
def tokens (source : List Char) : Except LexicalError (List Token) :=
  (lexemes 0 source).map (tokensOfLexemes 0)

end Netlist.Header
