import Netlist.Toml.Scalar
import Netlist.Toml.Section
import Netlist.Toml.Text

/-!
# Reading TOML

## Main definitions

* `Netlist.Toml.Reader`: readers of a part at the start of a text.
* `Netlist.Toml.value`: the reader of a value, in which arrays and tables are nested no deeper than
  a given number.
* `Netlist.Toml.parse?`: the table that a text stands for.
-/

namespace Netlist.Toml

/-- A reader takes a part off the start of a text or fails. -/
abbrev Reader := StateT (List Char) Option

namespace Reader

variable {α : Type}

/-- The rest of the text. -/
def rest : Reader (List Char) :=
  get

/-- Take off what a function cuts. -/
def ofCut (cut : List Char → Option (α × List Char)) : Reader α :=
  fun cs => cut cs

/-- Take off the longest run of characters that satisfy `p`. -/
def takeRun (p : Char → Bool) : Reader (List Char) :=
  fun cs => some (cs.takeWhile p, cs.dropWhile p)

/-- Take off a given character. -/
def char (c : Char) : Reader Unit := fun
  | d :: cs => if d = c then some ((), cs) else none
  | [] => none

/-- Take off a part again and again, as long as there is one. A part without characters ends the
repetition. -/
def many (part : Reader α) (cs : List Char) : Option (List α × List Char) :=
  match part cs with
  | none => some ([], cs)
  | some (a, rest) =>
    if _h : rest.length < cs.length then (many part rest).map fun r => (a :: r.1, r.2)
    else some ([a], rest)
termination_by cs.length

end Reader

open Reader

/-! ### Blanks, comments and line ends -/

/-- Blanks within a line. -/
def blanks : Reader Unit := do
  let _ ← takeRun fun c => c = ' ' || c = '\t'

/-- A comment up to the end of its line, if there is one. -/
def comment : Reader Unit := do
  match ← rest with
  | '#' :: _ =>
    let _ ← takeRun isPlain
  | _ => return ()

/-- A line feed, perhaps behind a carriage return. -/
def lineEnd : Reader Unit := fun
  | '\n' :: cs => some ((), cs)
  | '\r' :: '\n' :: cs => some ((), cs)
  | _ => none

/-- Blanks, comments and line ends between the elements of an array. -/
def gap : Reader Unit := do
  let _ ← ofCut (many (do blanks; comment; lineEnd))
  blanks

/-! ### Keys -/

/-- A character of a key without quotes. -/
def isKeyPart (c : Char) : Bool :=
  c.isAlphanum || c = '_' || c = '-'

/-- A part of a key: a word or a string on one line. -/
def simpleKey : Reader String := do
  match ← rest with
  | '"' :: _ | '\'' :: _ => return String.ofList (← ofCut cutShortString?)
  | _ =>
    let word ← takeRun isKeyPart
    if word = [] then failure
    return String.ofList word

/-- The greatest number of parts of a key, and of arrays and tables within each other. -/
def depthLimit : Nat :=
  79

/-- A dotted key: the names of the tables on the way, and the last part. -/
def key : Reader (List String × String) := do
  blanks
  let first ← simpleKey
  let others ← ofCut (many (do blanks; char '.'; blanks; simpleKey))
  blanks
  let parts := first :: others
  if depthLimit < parts.length then failure
  return (parts.dropLast, parts.getLastD first)

/-! ### Values -/

/-- A key, an equals sign and a value. -/
def assignment (value : Reader Value) : Reader Assignment := do
  let (path, last) ← key
  char '='
  blanks
  return ⟨path, last, ← value⟩

/-- An element of an array, with the comma behind it unless the array ends there. -/
def element (value : Reader Value) : Reader Value := do
  gap
  let v ← value
  gap
  match ← rest with
  | ']' :: _ => return v
  | _ =>
    char ','
    return v

/-- The elements of an array behind its opening bracket. The last one may be followed by a
comma. -/
def elements (value : Reader Value) : Reader Value := do
  let es ← ofCut (many (element value))
  gap
  char ']'
  return .array es

/-- The assignments of a table behind its opening brace, with commas between them. -/
def members (value : Reader Value) : Reader (List Assignment) := do
  blanks
  match ← rest with
  | '}' :: _ =>
    char '}'
    return []
  | _ =>
    let first ← assignment value
    blanks
    let others ← ofCut (many (do char ','; let a ← assignment value; blanks; return a))
    char '}'
    return first :: others

/-- A value other than an array or a table. -/
def scalar : Reader Value := do
  match ← rest with
  | '"' :: _ | '\'' :: _ => return .string (String.ofList (← ofCut cutString?))
  | _ => ofCut cutWord?

/-- A value in which arrays and tables are nested no deeper than a given number. -/
def value : Nat → Reader Value
  | 0 => scalar
  | depth + 1 => do
    match ← rest with
    | '[' :: _ =>
      char '['
      elements (value depth)
    | '{' :: _ =>
      char '{'
      let body ← members (value depth)
      ofCut fun cs => (tableOfAssignments? body).map (·, cs)
    | _ => scalar

/-! ### Documents -/

/-- Blanks and a comment up to the end of a line, and the line end. -/
def endOfLine : Reader Unit := do
  blanks
  comment
  match ← rest with
  | [] => return ()
  | _ => lineEnd

/-- Lines without content. -/
def emptyLines : Reader Unit := do
  let _ ← ofCut (many (do blanks; comment; lineEnd))
  blanks
  comment

/-- Assignments, each on lines of its own, and the empty lines around them. -/
def body : Reader (List Assignment) := do
  emptyLines
  ofCut (many (do
    let a ← assignment (value depthLimit)
    endOfLine
    emptyLines
    return a))

/-- A header with the assignments behind it. -/
def section_ : Reader Section := do
  char '['
  match ← rest with
  | '[' :: _ =>
    char '['
    let (path, last) ← key
    char ']'
    char ']'
    endOfLine
    return ⟨.element, path, last, ← body⟩
  | _ =>
    let (path, last) ← key
    char ']'
    endOfLine
    return ⟨.table, path, last, ← body⟩

/-- A byte-order mark, if there is one. -/
def byteOrderMark : Reader Unit := do
  match ← rest with
  | '\ufeff' :: _ => char '\ufeff'
  | _ => return ()

/-- The table that a text stands for. -/
def parse? (s : String) : Option Value := do
  let ((front, sections), end_) ← (do
    byteOrderMark
    let front ← body
    return (front, ← ofCut (many section_)) : Reader _).run s.toList
  if end_ = [] then tableOfSections? front sections else none

end Netlist.Toml
