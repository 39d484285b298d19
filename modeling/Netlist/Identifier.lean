/-!
# Identifiers

Ports, record fields, types, modules and instances are named by identifiers: an ASCII letter or
an underscore, followed by ASCII letters, digits, underscores and dollar signs.

## Main definitions

* `Netlist.Identifier.isStart`, `Netlist.Identifier.isPart`: the two character classes.
* `Netlist.isIdentifier`: the test on a whole name.
-/

namespace Netlist

namespace Identifier

/-- A character that may begin an identifier. -/
def isStart (c : Char) : Bool :=
  c.isAlpha || c == '_'

/-- A character that may stand in an identifier after its first one. -/
def isPart (c : Char) : Bool :=
  c.isAlphanum || c == '_' || c == '$'

/-- Whatever may begin an identifier may also continue one. -/
theorem isPart_of_isStart {c : Char} (h : isStart c = true) : isPart c = true := by
  simp only [isStart, isPart, Char.isAlphanum, Bool.or_eq_true] at h ⊢
  rcases h with h | h
  · exact Or.inl (Or.inl (Or.inl h))
  · exact Or.inl (Or.inr h)

/-- A list of characters that spells an identifier. -/
def spells : List Char → Bool
  | [] => false
  | c :: cs => isStart c && cs.all isPart

end Identifier

/-- Whether a name is an identifier. The empty name is not. -/
def isIdentifier (name : String) : Bool :=
  Identifier.spells name.toList

end Netlist
