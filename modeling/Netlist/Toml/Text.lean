import Netlist.Digit

/-!
# String literals of TOML

A string stands in double quotes, where a backslash begins an escape, or in single quotes, where
every character stands for itself. In three quotes it may go over several lines: a line feed right
behind the opening quotes does not count, and each line end counts as a line feed.

## Main definitions

* `Netlist.Toml.cutString?`: the string at the start of a text, and the text behind it.
-/

namespace Netlist.Toml

/-- A character that may stand for itself on a line: any but control characters, of which the tab
alone is allowed. -/
def isPlain (c : Char) : Bool :=
  c = '\t' || (0x20 ≤ c.toNat && c.toNat ≠ 0x7F)

/-- The character whose code the hexadecimal digits are. There is none for surrogates and for
codes that are too great. -/
def charOfHex? (digits : List Char) : Option Char := do
  let code ← digits.foldlM (fun n c => (digit? 16 c).map (16 * n + ·)) 0
  if code.isValidChar then some (Char.ofNat code) else none

/-- The character behind a backslash, if it stands for one character. -/
def escaped? : Char → Option Char
  | 'b' => some '\x08'
  | 't' => some '\t'
  | 'n' => some '\n'
  | 'f' => some '\x0c'
  | 'r' => some '\r'
  | '"' => some '"'
  | '\\' => some '\\'
  | _ => none

/-- A text and what is behind it. -/
abbrev Cut := List Char × List Char

/-- Put a character in front of a text that may be missing. -/
def Cut.cons? (c : Option Char) (cut : Option Cut) : Option Cut := do
  let (text, rest) ← cut
  return ((← c) :: text, rest)

/-- A text in double quotes, behind the opening one. -/
def cutBasic? : List Char → Option Cut
  | [] => none
  | '"' :: cs => some ([], cs)
  | '\\' :: 'u' :: a :: b :: c :: d :: cs =>
    Cut.cons? (charOfHex? [a, b, c, d]) (cutBasic? cs)
  | '\\' :: 'U' :: a :: b :: c :: d :: e :: f :: g :: h :: cs =>
    Cut.cons? (charOfHex? [a, b, c, d, e, f, g, h]) (cutBasic? cs)
  | '\\' :: e :: cs => Cut.cons? (escaped? e) (cutBasic? cs)
  | c :: cs => if isPlain c && c ≠ '\\' then Cut.cons? (some c) (cutBasic? cs) else none

/-- A text in single quotes, behind the opening one. -/
def cutLiteral? : List Char → Option Cut
  | [] => none
  | '\'' :: cs => some ([], cs)
  | c :: cs => if isPlain c then Cut.cons? (some c) (cutLiteral? cs) else none

/-- The text behind a line feed that it begins with, or all of it. -/
def skipNewline : List Char → List Char
  | '\n' :: cs => cs
  | '\r' :: '\n' :: cs => cs
  | cs => cs

/-- Whether a text begins with a line end, perhaps behind blanks. -/
def beginsWithLineEnd (cs : List Char) : Bool :=
  match cs.dropWhile fun c => c = ' ' || c = '\t' with
  | '\n' :: _ => true
  | '\r' :: '\n' :: _ => true
  | _ => false

/-- A text in three double quotes, behind the opening ones; if `trim`, the blanks and line ends
that it begins with do not count. A backslash at the end of a line has that effect. Of five quotes
in a row the last three close. -/
def cutLongBasic? (trim : Bool) : List Char → Option Cut
  | [] => none
  | '"' :: '"' :: '"' :: '"' :: '"' :: cs => some (['"', '"'], cs)
  | '"' :: '"' :: '"' :: '"' :: cs => some (['"'], cs)
  | '"' :: '"' :: '"' :: cs => some ([], cs)
  | '\\' :: 'u' :: a :: b :: c :: d :: cs =>
    Cut.cons? (charOfHex? [a, b, c, d]) (cutLongBasic? false cs)
  | '\\' :: 'U' :: a :: b :: c :: d :: e :: f :: g :: h :: cs =>
    Cut.cons? (charOfHex? [a, b, c, d, e, f, g, h]) (cutLongBasic? false cs)
  | '\\' :: '\r' :: '\n' :: cs => cutLongBasic? true cs
  | '\\' :: e :: cs =>
    if beginsWithLineEnd (e :: cs) then cutLongBasic? true cs
    else Cut.cons? (escaped? e) (cutLongBasic? false cs)
  | '\r' :: '\n' :: cs =>
    if trim then cutLongBasic? true cs else Cut.cons? (some '\n') (cutLongBasic? false cs)
  | c :: cs =>
    if trim && (c = ' ' || c = '\t' || c = '\n') then cutLongBasic? true cs
    else if (isPlain c && c ≠ '\\') || c = '\n' then Cut.cons? (some c) (cutLongBasic? false cs)
    else none

/-- A text in three single quotes, behind the opening ones. Of five quotes in a row the last three
close. -/
def cutLongLiteral? : List Char → Option Cut
  | [] => none
  | '\'' :: '\'' :: '\'' :: '\'' :: '\'' :: cs => some (['\'', '\''], cs)
  | '\'' :: '\'' :: '\'' :: '\'' :: cs => some (['\''], cs)
  | '\'' :: '\'' :: '\'' :: cs => some ([], cs)
  | '\r' :: '\n' :: cs => Cut.cons? (some '\n') (cutLongLiteral? cs)
  | c :: cs => if isPlain c || c = '\n' then Cut.cons? (some c) (cutLongLiteral? cs) else none

/-- The string on one line at the start of a text, and the text behind it. -/
def cutShortString? : List Char → Option Cut
  | '"' :: cs => cutBasic? cs
  | '\'' :: cs => cutLiteral? cs
  | _ => none

/-- The string at the start of a text, and the text behind it. -/
def cutString? : List Char → Option Cut
  | '"' :: '"' :: '"' :: cs => cutLongBasic? false (skipNewline cs)
  | '\'' :: '\'' :: '\'' :: cs => cutLongLiteral? (skipNewline cs)
  | cs => cutShortString? cs

end Netlist.Toml
