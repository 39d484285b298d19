import Netlist.Header.Basic
import Netlist.Header.Token

/-!
# The grammar of module headers

What a list of tokens declares, rule by rule and without regard to how it is read:

* a file is any number of headers;
* a header is `module`, a name, `(`, ports with commas between them, `)`, `;` and, if it is there,
  `endmodule`;
* a port is a direction, a net keyword, a type and a name, of which all but the name may be left
  out; the direction of a first port may not;
* a type is a range, which is `[`, a number, `:`, a number for zero and `]`, or the name of a type.

## Main definitions

* `Netlist.Header.IsNumeral`: characters that spell a number.
* `Netlist.Header.IsDirection`, `Netlist.Header.IsNet`, `Netlist.Header.IsType`: the parts of a port
  in front of its name.
* `Netlist.Header.IsPort`, `Netlist.Header.IsPorts`, `Netlist.Header.IsHeader`,
  `Netlist.Header.IsFile`: tokens that declare ports and headers.
-/

namespace Netlist.Header

/-- A number is spelled by decimal digits. Underscores may stand behind the first of them. -/
inductive IsNumeral : List Char → Nat → Prop
  | digit {c : Char} : c.isDigit = true → IsNumeral [c] (c.toNat - '0'.toNat)
  | more {cs : List Char} {n : Nat} {c : Char} : IsNumeral cs n → c.isDigit = true →
      IsNumeral (cs ++ [c]) (10 * n + (c.toNat - '0'.toNat))
  | underscore {cs : List Char} {n : Nat} : IsNumeral cs n → IsNumeral (cs ++ ['_']) n

/-- The span from the first of several tokens to the last one. -/
def covering (ts : List Token) : Span :=
  match ts.head?, ts.getLast? with
  | some first, some last => first.span.merge last.span
  | _, _ => ⟨0, 0⟩

/-- A direction is given, or left out behind a port from which it is inherited. -/
inductive IsDirection (inherited : Option Direction) : List Token → Direction → Prop
  | given {t : Token} {d : Direction} : t.kind = .keyword (.direction d) →
      IsDirection inherited [t] d
  | inherited {d : Direction} : inherited = some d → IsDirection inherited [] d

/-- A net keyword is given or left out. -/
inductive IsNet : List Token → Prop
  | given {t : Token} {n : Net} : t.kind = .keyword (.net n) → IsNet [t]
  | none : IsNet []

/-- A type is a range, which begins with the number of its highest bit and has a width that fits in
32 bits, or it is named. If it is left out, it is a single bit. -/
inductive IsType : List Token → PortType → Prop
  | range {left high colon low right : Token} {n : Nat} :
      left.kind = .mark .leftBracket →
      high.kind = .number → IsNumeral high.text.toList n →
      colon.kind = .mark .colon →
      low.kind = .number → IsNumeral low.text.toList 0 →
      right.kind = .mark .rightBracket → n + 1 < UInt32.size →
      IsType [left, high, colon, low, right] (.bits (UInt32.ofNat (n + 1)))
  | named {t : Token} : t.kind = .name → IsType [t] (.named t.text)
  | none : IsType [] (.bits 1)

/-- A port is a direction, a net, a type and a name. -/
inductive IsPort (inherited : Option Direction) : List Token → Port → Prop
  | mk {ds ns ts : List Token} {name : Token} {d : Direction} {type : PortType} :
      IsDirection inherited ds d → IsNet ns → IsType ts type → name.kind = .name →
      IsPort inherited (ds ++ ns ++ ts ++ [name])
        ⟨d, type, name.text, covering (ds ++ ns ++ ts ++ [name])⟩

/-- One or more ports stand with commas between them. Each of them may inherit the direction of the
one before it. -/
inductive IsPorts : Option Direction → List Token → List Port → Prop
  | last {inherited : Option Direction} {ts : List Token} {p : Port} :
      IsPort inherited ts p → IsPorts inherited ts [p]
  | cons {inherited : Option Direction} {ts rest : List Token} {comma : Token} {p : Port}
      {ps : List Port} : IsPort inherited ts p → comma.kind = .mark .comma →
      IsPorts (some p.direction) rest ps → IsPorts inherited (ts ++ comma :: rest) (p :: ps)

/-- What stands between the parentheses of a header: ports, or nothing. -/
inductive IsPortList : List Token → List Port → Prop
  | empty : IsPortList [] []
  | ports {ts : List Token} {ps : List Port} : IsPorts none ts ps → IsPortList ts ps

/-- The last word of a header is given or left out. -/
inductive IsClosing : List Token → Prop
  | given {t : Token} : t.kind = .keyword .closing → IsClosing [t]
  | none : IsClosing []

/-- A header is a name and a list of ports between fixed words and marks. -/
inductive IsHeader : List Token → Header → Prop
  | mk {opening name left right semicolon : Token} {ts cs : List Token} {ps : List Port} :
      opening.kind = .keyword .opening → name.kind = .name → left.kind = .mark .leftParen →
      IsPortList ts ps → right.kind = .mark .rightParen → semicolon.kind = .mark .semicolon →
      IsClosing cs →
      IsHeader (opening :: name :: left :: ts ++ right :: semicolon :: cs)
        ⟨name.text, ps, covering (opening :: name :: left :: ts ++ right :: semicolon :: cs)⟩

/-- A file is any number of headers. -/
inductive IsFile : List Token → List Header → Prop
  | nil : IsFile [] []
  | cons {ts rest : List Token} {h : Header} {hs : List Header} : IsHeader ts h → IsFile rest hs →
      IsFile (ts ++ rest) (h :: hs)

end Netlist.Header
