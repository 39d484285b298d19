import Netlist.Header.Lexeme

/-!
# Module headers

A leaf module is described by its header: a name and a list of ports, each with a direction, a
type and a name.

## Main definitions

* `Netlist.Header`, `Netlist.Header.Port`: what a header declares, with the places in the text.
* `Netlist.Header.Error`: why a text yields no interfaces, with its wording.
* `Netlist.Header.toInterface`: the interface that a header declares.
-/

namespace Netlist

/-- The declaration of one port. -/
structure Header.Port where
  direction : Direction
  type : PortType
  name : String
  /-- The text of the declaration. -/
  span : Span
deriving DecidableEq, Repr

/-- A module header. -/
structure Header where
  /-- The module's name. -/
  name : String
  /-- The declared ports in order. -/
  ports : List Header.Port
  /-- The text of the header. -/
  span : Span
deriving DecidableEq, Repr

namespace Header

/-! ### Errors -/

/-- What the reader needs at a place. -/
inductive Expectation where
  /-- A token of one kind. -/
  | kind (k : TokenKind)
  /-- The direction of a first port. -/
  | direction
deriving DecidableEq, Repr

/-- How an expectation is called in messages. -/
def Expectation.describe : Expectation → String
  | kind k => k.describe
  | direction => "`input` or `output`"

/-- Why a token does not continue a header. -/
inductive SyntaxCause where
  /-- Another token is needed. -/
  | expected (what : Expectation) (found : TokenKind)
  /-- A number does not fit in 32 bits. -/
  | integerOutOfRange (digits : String)
  /-- A range does not end at bit zero. -/
  | rangeEndNotZero (low : UInt32)
  /-- The width of a range does not fit in 32 bits. -/
  | widthOutOfRange
deriving DecidableEq, Repr

/-- The wording of a syntax error. -/
def SyntaxCause.message : SyntaxCause → String
  | expected what found => s!"expected {what.describe}, found {found.describe}"
  | integerOutOfRange digits => s!"integer `{digits}` is out of range"
  | rangeEndNotZero low => s!"port ranges must end at bit 0, found `{low.toNat}`"
  | widthOutOfRange => "port width is out of range"

/-- Why a header text yields no interfaces. -/
inductive Error where
  /-- The text does not fall into lexemes. -/
  | lexical (place : Position) (cause : LexicalCause)
  /-- The tokens do not form headers. -/
  | syntactic (place : Position) (cause : SyntaxCause)
  /-- A header declares a port twice. -/
  | repeatedPort (module port : String)
deriving DecidableEq, Repr

/-- The wording of a header error. -/
def Error.message : Error → String
  | lexical place cause => s!"{place.text}: {cause.message}"
  | syntactic place cause => s!"{place.text}: {cause.message}"
  | repeatedPort module port =>
    s!"invalid descriptor `{module}`: port `{port}` is declared more than once"

/-! ### Interfaces -/

/-- The first name in a list that occurred before it or is among the names `seen`. -/
def firstRepeat (seen : List String) : List String → Option String
  | [] => none
  | name :: names => if name ∈ seen then some name else firstRepeat (name :: seen) names

theorem firstRepeat_eq_none_iff {seen names : List String} :
    firstRepeat seen names = none ↔ names.Nodup ∧ ∀ name ∈ names, name ∉ seen := by
  induction names generalizing seen with
  | nil => simp [firstRepeat]
  | cons name names ih =>
    by_cases h : name ∈ seen
    · simp [firstRepeat, h]
    · simp only [firstRepeat, h, if_false, ih, List.nodup_cons, List.mem_cons, not_or]
      constructor
      · rintro ⟨hn, hs⟩
        refine ⟨⟨fun hm => (hs name hm).1 rfl, hn⟩, ?_⟩
        rintro x (rfl | hx)
        · exact h
        · exact (hs x hx).2
      · rintro ⟨⟨hm, hn⟩, hs⟩
        refine ⟨hn, fun x hx => ⟨?_, hs x (Or.inr hx)⟩⟩
        rintro rfl
        exact hm hx

/-- The ports with one direction, in order. -/
def portsWith (header : Header) (d : Direction) : List Header.Port :=
  header.ports.filter fun p => p.direction = d

/-- The ports with one direction, by name. -/
def portMap (header : Header) (d : Direction) : Ports :=
  .ofList ((header.portsWith d).map fun p => (p.name, p.type))

/-- The interface that a header declares. No port may be declared twice, in whatever
directions. -/
def toInterface (header : Header) : Except Error Interface :=
  match firstRepeat [] (header.ports.map Header.Port.name) with
  | some port => .error (.repeatedPort header.name port)
  | none => .ok ⟨header.name, header.portMap .input, header.portMap .output⟩

end Header

end Netlist
