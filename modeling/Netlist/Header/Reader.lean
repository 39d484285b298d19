import Netlist.Header.Basic

/-!
# Reading headers from tokens

The headers of a text are a regular language over its tokens:

* a file is a list of headers;
* a header is `module`, a name, ports in parentheses with commas between them, a semicolon and
  perhaps `endmodule`;
* a port is a direction, which every port but the first may leave out, perhaps a net keyword,
  perhaps a range in brackets or the name of a type, and a name.

The reader therefore goes through the tokens once and keeps a `Stage`: the place in the header
at which it stands and what it has seen so far. A name behind a direction is the port's own
name unless another name follows; then it is the name of its type.

## Main definitions

* `Netlist.Header.Stage`, `Netlist.Header.Stage.step`: the places and the move over one token.
* `Netlist.Header.readTokens`: the headers of a list of tokens, or the first offending token.
* `Netlist.Header.readAll`: the headers of a text.
* `Netlist.Header.readInterfaces`: the interfaces that a text declares.
-/

namespace Netlist.Header

/-- A header of which the name has been read. -/
structure Draft where
  /-- The span of the token that begins the header. -/
  start : Span
  /-- The module's name. -/
  name : String
  /-- The ports read so far. -/
  ports : List Header.Port
deriving DecidableEq, Repr

/-- A port of which the direction is known. -/
structure PortDraft where
  /-- The span of the first token of the port. -/
  start : Span
  direction : Direction
deriving DecidableEq, Repr

/-- Add a finished port, whose name is the token `name`. -/
def Draft.declare (draft : Draft) (port : PortDraft) (type : PortType) (name : Token) : Draft :=
  { draft with
    ports := draft.ports ++ [⟨port.direction, type, name.text, port.start.merge name.span⟩] }

/-- The header that ends with the token that covers `last`. -/
def Draft.close (draft : Draft) (last : Span) : Header :=
  ⟨draft.name, draft.ports, draft.start.merge last⟩

/-- The places in a file of headers, each with what has been read of the present header. -/
inductive Stage where
  /-- Before a header. -/
  | outside
  /-- After the word that begins a header. -/
  | moduleName (start : Span)
  /-- After the module's name. -/
  | openPorts (start : Span) (name : String)
  /-- After the opening parenthesis. -/
  | firstPort (draft : Draft)
  /-- After a comma; the last port's direction is inherited if there is no other. -/
  | nextPort (draft : Draft) (inherited : Direction)
  /-- After the direction of a port. -/
  | net (draft : Draft) (port : PortDraft)
  /-- After a net keyword. -/
  | type (draft : Draft) (port : PortDraft)
  /-- After a name, which is the port's or its type's. -/
  | word (draft : Draft) (port : PortDraft) (word : Token)
  /-- After the opening bracket of a range. -/
  | high (draft : Draft) (port : PortDraft)
  /-- After the upper end of a range. -/
  | colon (draft : Draft) (port : PortDraft) (high : UInt32)
  /-- After the colon of a range. -/
  | low (draft : Draft) (port : PortDraft) (high : UInt32)
  /-- After the lower end of a range. -/
  | closeRange (draft : Draft) (port : PortDraft) (high : UInt32)
  /-- After the closing bracket of a range. -/
  | portName (draft : Draft) (port : PortDraft) (high : UInt32)
  /-- After a port with a given direction. -/
  | portEnd (draft : Draft) (direction : Direction)
  /-- After the closing parenthesis. -/
  | headerEnd (draft : Draft)
  /-- After the semicolon, which covers `last`. -/
  | closed (draft : Draft) (last : Span)
deriving DecidableEq, Repr

namespace Stage

/-- What a stage needs, as told where something else comes. -/
def expectation : Stage → Expectation
  | outside | closed .. => .kind (.keyword .opening)
  | moduleName .. | nextPort .. | net .. | type .. | portName .. => .kind .name
  | openPorts .. => .kind (.mark .leftParen)
  | firstPort .. => .direction
  | high .. | low .. => .kind .number
  | colon .. => .kind (.mark .colon)
  | closeRange .. => .kind (.mark .rightBracket)
  | word .. | portEnd .. => .kind (.mark .rightParen)
  | headerEnd .. => .kind (.mark .semicolon)

end Stage

/-! ### Numbers -/

/-- The digits of a number without the underscores that group them. -/
def digitsOf (text : String) : List Char :=
  text.toList.filter (· ≠ '_')

/-- The value of digits, read from the left. -/
def valueOfDigits (digits : List Char) : Nat :=
  Nat.ofDigitChars 10 digits 0

/-- The value of a decimal number of 32 bits, which may carry a plus sign. -/
def word32? (digits : List Char) : Option UInt32 :=
  let digits := match digits with
    | '+' :: rest => rest
    | _ => digits
  if digits ≠ [] ∧ digits.all Char.isDigit ∧ valueOfDigits digits < UInt32.size then
    some (UInt32.ofNat (valueOfDigits digits))
  else none

/-- The value of a number token. -/
def Token.value (t : Token) : Except SyntaxCause UInt32 :=
  match word32? (digitsOf t.text) with
  | some n => .ok n
  | none => .error (.integerOutOfRange (String.ofList (digitsOf t.text)))

/-! ### One token -/

namespace Stage

/-- The failure of a stage at a token that it has no use for. -/
def reject (stage : Stage) (found : TokenKind) : SyntaxCause :=
  .expected stage.expectation found

/-- The move from behind a net keyword: a range, the name of a type or the port's name. -/
def stepType (draft : Draft) (port : PortDraft) (t : Token) : Except SyntaxCause Stage :=
  match t.kind with
  | .mark .leftBracket => .ok (high draft port)
  | .name => .ok (word draft port t)
  | found => .error (.expected (.kind .name) found)

/-- The move from behind a direction: as behind a net keyword, which may come first. -/
def stepNet (draft : Draft) (port : PortDraft) (t : Token) : Except SyntaxCause Stage :=
  match t.kind with
  | .keyword (.net _) => .ok (type draft port)
  | _ => stepType draft port t

/-- The move from behind a port: to the next one or to the end of the ports. -/
def stepPortEnd (draft : Draft) (direction : Direction) (t : Token) :
    Except SyntaxCause Stage :=
  match t.kind with
  | .mark .comma => .ok (nextPort draft direction)
  | .mark .rightParen => .ok (headerEnd draft)
  | found => .error (.expected (.kind (.mark .rightParen)) found)

/-- The type of a range with a given upper end: one bit more than that, unless this does not
fit in 32 bits. -/
def rangeType (high : UInt32) : Except SyntaxCause PortType :=
  if high.toNat + 1 < UInt32.size then .ok (.bits (high + 1)) else .error .widthOutOfRange

/-- The move over one token: the headers that it ends, of which there is at most one, and the
stage behind it. -/
def step (stage : Stage) (t : Token) : Except SyntaxCause (List Header × Stage) :=
  match stage, t.kind with
  | outside, .keyword .opening => .ok ([], moduleName t.span)
  | moduleName start, .name => .ok ([], openPorts start t.text)
  | openPorts start name, .mark .leftParen => .ok ([], firstPort ⟨start, name, []⟩)
  | firstPort draft, .mark .rightParen => .ok ([], headerEnd draft)
  | firstPort draft, .keyword (.direction d) => .ok ([], net draft ⟨t.span, d⟩)
  | nextPort draft _, .keyword (.direction d) => .ok ([], net draft ⟨t.span, d⟩)
  | nextPort draft d, _ => (stepNet draft ⟨t.span, d⟩ t).map ([], ·)
  | net draft port, _ => (stepNet draft port t).map ([], ·)
  | type draft port, _ => (stepType draft port t).map ([], ·)
  | word draft port w, .name =>
    .ok ([], portEnd (draft.declare port (.named w.text) t) port.direction)
  | word draft port w, _ =>
    (stepPortEnd (draft.declare port (.bits 1) w) port.direction t).map ([], ·)
  | high draft port, .number => t.value.map fun n => ([], colon draft port n)
  | colon draft port n, .mark .colon => .ok ([], low draft port n)
  | low draft port n, .number => do
    let end_ ← t.value
    if end_ = 0 then .ok ([], closeRange draft port n) else .error (.rangeEndNotZero end_)
  | closeRange draft port n, .mark .rightBracket => .ok ([], portName draft port n)
  | portName draft port n, found => do
    let range ← rangeType n
    if found = .name then .ok ([], portEnd (draft.declare port range t) port.direction)
    else .error (stage.reject found)
  | portEnd draft d, _ => (stepPortEnd draft d t).map ([], ·)
  | headerEnd draft, .mark .semicolon => .ok ([], closed draft t.span)
  | closed draft _, .keyword .closing => .ok ([draft.close t.span], outside)
  | closed draft last, .keyword .opening => .ok ([draft.close last], moduleName t.span)
  | _, found => .error (stage.reject found)

/-- The move at the end of the tokens: the headers that it ends, of which there is at most
one. -/
def finish (stage : Stage) : Except SyntaxCause (List Header) :=
  match stage with
  | outside => .ok []
  | closed draft last => .ok [draft.close last]
  | portName _ _ n => do
    let _ ← rangeType n
    .error (stage.reject .endOfFile)
  | _ => .error (stage.reject .endOfFile)

end Stage

/-! ### Whole texts -/

/-- A syntax error and the span of the token at which it shows. -/
structure SyntaxError where
  span : Span
  cause : SyntaxCause
deriving DecidableEq, Repr

/-- Read tokens from a stage on. A token for the end of the text ends the reading even if others
follow; if there is none, the end is taken to be where the last token is, which covers `last`. -/
def readFrom (stage : Stage) (last : Span) : List Token → Except SyntaxError (List Header)
  | [] => stage.finish.mapError (⟨last, ·⟩)
  | t :: ts =>
    if t.kind = .endOfFile then stage.finish.mapError (⟨t.span, ·⟩)
    else match stage.step t with
      | .error cause => .error ⟨t.span, cause⟩
      | .ok (done, next) => (readFrom next t.span ts).map (done ++ ·)

/-- The headers of a list of tokens. -/
def readTokens (ts : List Token) : Except SyntaxError (List Header) :=
  readFrom .outside ⟨0, 0⟩ ts

/-- The headers of a list of tokens that were cut from a text. -/
def readTokensOf (source : List Char) (ts : List Token) : Except Error (List Header) :=
  (readTokens ts).mapError fun e => .syntactic (.ofOffset source e.span.start) e.cause

/-- The tokens of a text, with errors at their places. -/
def tokensOf (source : String) : Except Error (List Token) :=
  (tokens source.toList).mapError fun e => .lexical (.ofOffset source.toList e.offset) e.cause

/-- The headers of a text. -/
def readAll (source : String) : Except Error (List Header) := do
  readTokensOf source.toList (← tokensOf source)

/-- The interfaces that a text declares. -/
def readInterfaces (source : String) : Except Error (List Interface) := do
  (← readAll source).mapM toInterface

end Netlist.Header
