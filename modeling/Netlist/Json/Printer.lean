import Netlist.Json.Basic

/-!
# Printing JSON

Each element and each member stands on a line of its own, two blanks deeper than the array or
object that it belongs to; those that are empty are written without a blank. In strings, quotes,
backslashes and control characters are escaped and all else stands for itself.

## Main definitions

* `Netlist.Json.render`: the characters of a value.
* `Netlist.Json.pretty`: the text of a value.
-/

namespace Netlist.Json

/-! ### Strings -/

/-- A hexadecimal digit in lower case. -/
def hexDigit (n : Nat) : Char :=
  if n < 10 then Char.ofNat ('0'.toNat + n) else Char.ofNat ('a'.toNat + (n - 10))

/-- How a character is written in a string literal. -/
def escape (c : Char) : List Char :=
  if c = '"' then ['\\', '"']
  else if c = '\\' then ['\\', '\\']
  else if c = '\x08' then ['\\', 'b']
  else if c = '\x0c' then ['\\', 'f']
  else if c = '\n' then ['\\', 'n']
  else if c = '\r' then ['\\', 'r']
  else if c = '\t' then ['\\', 't']
  else if c.toNat < 0x20 then
    ['\\', 'u', '0', '0', hexDigit (c.toNat / 16), hexDigit (c.toNat % 16)]
  else [c]

/-- A string literal. One that stands for no text is half a surrogate pair. -/
def renderString : Option String → List Char
  | some s => '"' :: s.toList.flatMap escape ++ ['"']
  | none => ['"', '\\', 'u', 'd', '8', '0', '0', '"']

/-! ### Values -/

/-- A line feed and the blanks at the start of a line. -/
def newline (depth : Nat) : List Char :=
  '\n' :: List.replicate (2 * depth) ' '

mutual

/-- The characters of a value at a given depth. A number that is not natural is written as a
negative zero. -/
def render (depth : Nat) : Json → List Char
  | null => ['n', 'u', 'l', 'l']
  | bool true => ['t', 'r', 'u', 'e']
  | bool false => ['f', 'a', 'l', 's', 'e']
  | number (some n) => Nat.toDigits 10 n
  | number none => ['-', '0']
  | string content => renderString content
  | array [] => ['[', ']']
  | array (e :: es) =>
    '[' :: newline (depth + 1) ++ render (depth + 1) e ++ renderElements (depth + 1) es ++
      newline depth ++ [']']
  | object [] => ['{', '}']
  | object ((name, value) :: ms) =>
    '{' :: newline (depth + 1) ++ renderString name ++ [':', ' '] ++ render (depth + 1) value ++
      renderMembers (depth + 1) ms ++ newline depth ++ ['}']

/-- The characters of the elements of an array after the first. -/
def renderElements (depth : Nat) : List Json → List Char
  | [] => []
  | e :: es => ',' :: newline depth ++ render depth e ++ renderElements depth es

/-- The characters of the members of an object after the first. -/
def renderMembers (depth : Nat) : List (Option String × Json) → List Char
  | [] => []
  | (name, value) :: ms =>
    ',' :: newline depth ++ renderString name ++ [':', ' '] ++ render depth value ++
      renderMembers depth ms

end

/-- The text of a value. -/
def pretty (j : Json) : String :=
  String.ofList (render 0 j)

end Netlist.Json
