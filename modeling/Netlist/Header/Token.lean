import Netlist.Header.Position
import Netlist.Port

/-!
# Tokens of module headers

## Main definitions

* `Netlist.Header.Keyword`, `Netlist.Header.Mark`: the words and signs with a fixed spelling.
* `Netlist.Header.TokenKind`: the kinds of tokens, with `TokenKind.describe` for messages.
* `Netlist.Header.Token`: a kind with the text it was read from and its place.
-/

namespace Netlist.Header

/-- The net keywords, which may stand before a port's type and say nothing about it. -/
inductive Net where
  | wire
  | logic
  | reg
deriving DecidableEq, Repr

/-- The reserved words. -/
inductive Keyword where
  /-- Begins a header. -/
  | opening
  /-- May follow a header. -/
  | closing
  /-- The direction of a port. -/
  | direction (d : Direction)
  /-- A net keyword. -/
  | net (n : Net)
deriving DecidableEq, Repr

namespace Keyword

/-- The spelling of a keyword. -/
def text : Keyword → String
  | opening => "module"
  | closing => "endmodule"
  | direction d => d.text
  | net .wire => "wire"
  | net .logic => "logic"
  | net .reg => "reg"

/-- All keywords. -/
def all : List Keyword :=
  [opening, closing, direction .input, direction .output, net .wire, net .logic, net .reg]

/-- The keyword with a given spelling. Capital letters count as different. -/
def ofText? (word : String) : Option Keyword :=
  all.find? fun k => k.text = word

end Keyword

/-- The punctuation marks. -/
inductive Mark where
  | leftParen
  | rightParen
  | leftBracket
  | rightBracket
  | colon
  | comma
  | semicolon
deriving DecidableEq, Repr

namespace Mark

/-- The character of a mark. -/
def char : Mark → Char
  | leftParen => '('
  | rightParen => ')'
  | leftBracket => '['
  | rightBracket => ']'
  | colon => ':'
  | comma => ','
  | semicolon => ';'

/-- All marks. -/
def all : List Mark :=
  [leftParen, rightParen, leftBracket, rightBracket, colon, comma, semicolon]

/-- The mark with a given character. -/
def ofChar? (c : Char) : Option Mark :=
  all.find? fun m => m.char = c

end Mark

/-- The kinds of tokens. -/
inductive TokenKind where
  | keyword (k : Keyword)
  /-- An identifier that is not a keyword. -/
  | name
  /-- A decimal number. -/
  | number
  | mark (m : Mark)
  /-- The end of the text. -/
  | endOfFile
deriving DecidableEq, Repr

/-- How a token kind is called in messages: fixed spellings in quotes, the rest by name. -/
def TokenKind.describe : TokenKind → String
  | keyword k => s!"`{k.text}`"
  | name => "identifier"
  | number => "integer"
  | mark m => s!"`{m.char}`"
  | endOfFile => "end of file"

/-- A token: its kind, the text it stands for and where that text lies. -/
structure Token where
  kind : TokenKind
  text : String
  span : Span
deriving DecidableEq, Repr

/-- The token of a kind that covers a span of a text. -/
def Token.ofSpan (source : List Char) (kind : TokenKind) (span : Span) : Token :=
  ⟨kind, String.ofList (span.text source), span⟩

end Netlist.Header
