import Netlist.Header.Lexeme

/-!
# How tokens lie in a text

A text is filled by its tokens and by the gaps in front of them and behind them. A gap is white
space and comments, each of which comes to its end.

## Main definitions

* `Netlist.Header.TokenKind.Spells`: the texts that are tokens of a kind.
* `Netlist.Header.IsGap`: what may stand between tokens.
* `Netlist.Header.IsLayout`: tokens fill a text, but for gaps.
-/

namespace Netlist.Header

/-- The texts that a kind of token stands for. -/
def TokenKind.Spells : TokenKind → String → Prop
  | keyword k, s => s = k.text
  | name, s => isIdentifier s = true ∧ ∀ k : Keyword, s ≠ k.text
  | number, s => ∃ d ds, s.toList = d :: ds ∧ d.isDigit = true ∧
      ∀ c ∈ ds, c.isDigit = true ∨ c = '_'
  | mark m, s => s.toList = [m.char]
  | endOfFile, s => s = ""

/-- White space and comments, with the text `rest` behind them. A line comment goes on to the end
of its line or of the text, and a block comment to the first end of a comment that comes. -/
inductive IsGap (rest : List Char) : List Char → Prop
  | nil : IsGap rest []
  | blank {c : Char} {gap : List Char} : isBlank c = true → IsGap rest gap → IsGap rest (c :: gap)
  | line {body gap : List Char} : '\n' ∉ body →
      (∀ c, (gap ++ rest).head? = some c → c = '\n') → IsGap rest gap →
      IsGap rest ('/' :: '/' :: body ++ gap)
  | block {body gap : List Char} : ¬['*', '/'] <:+: body → IsGap rest gap →
      IsGap rest ('/' :: '*' :: body ++ '*' :: '/' :: gap)

/-- Tokens lie in a text that begins at an offset. Behind a gap, the first token covers its text,
and the others lie in the text behind it. The last token stands for the end of the text. -/
inductive IsLayout : Nat → List Char → List Token → Prop
  | stop {offset : Nat} {gap : List Char} : IsGap [] gap →
      IsLayout offset gap
        [⟨.endOfFile, "", ⟨offset + byteLength gap, offset + byteLength gap⟩⟩]
  | token {offset : Nat} {gap rest : List Char} {t : Token} {ts : List Token} :
      IsGap (t.text.toList ++ rest) gap → t.kind.Spells t.text → t.text ≠ "" →
      t.span = ⟨offset + byteLength gap, offset + byteLength gap + byteLength t.text.toList⟩ →
      IsLayout t.span.stop rest ts → IsLayout offset (gap ++ (t.text.toList ++ rest)) (t :: ts)

end Netlist.Header
