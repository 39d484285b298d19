import Netlist.Digit
import Netlist.Json.Basic

/-!
# Reading JSON

A text is cut into tokens, and the tokens are put together by a machine that keeps the arrays and
objects that are still open on a stack. There is no limit to the depth.

## Main definitions

* `Netlist.Json.tokens?`: the tokens of a text.
* `Netlist.Json.Machine`: the machine, with `Machine.step` for one token.
* `Netlist.Json.parse?`: the value that a text stands for.
-/

namespace Netlist.Json

/-! ### String literals -/

/-- A piece of a string literal: a character or a 16-bit unit given by its code. -/
inductive Piece where
  | char (c : Char)
  | unit (code : Nat)
deriving DecidableEq, Repr

/-- The code that four hexadecimal digits stand for. -/
def unit? (a b c d : Char) : Option Nat := do
  return 4096 * (← digit? 16 a) + 256 * (← digit? 16 b) + 16 * (← digit? 16 c) + (← digit? 16 d)

/-- The character behind a backslash, if it stands for one character. -/
def escaped? : Char → Option Char
  | '"' => some '"'
  | '\\' => some '\\'
  | '/' => some '/'
  | 'b' => some '\x08'
  | 'f' => some '\x0c'
  | 'n' => some '\n'
  | 'r' => some '\r'
  | 't' => some '\t'
  | _ => none

/-- The pieces of a string literal behind its opening quote, and the text behind its closing
one. -/
def cutString? : List Char → Option (List Piece × List Char)
  | [] => none
  | '"' :: cs => some ([], cs)
  | '\\' :: 'u' :: a :: b :: c :: d :: cs => do
    let unit ← unit? a b c d
    let (pieces, rest) ← cutString? cs
    return (.unit unit :: pieces, rest)
  | '\\' :: e :: cs => do
    let c ← escaped? e
    let (pieces, rest) ← cutString? cs
    return (.char c :: pieces, rest)
  | c :: cs =>
    if c.toNat < 0x20 ∨ c = '\\' then none
    else (cutString? cs).map fun r => (.char c :: r.1, r.2)

/-- The text of pieces, if every unit of a surrogate pair stands beside its other half. -/
def textOfPieces? : List Piece → Option (List Char)
  | [] => some []
  | .char c :: ps => (textOfPieces? ps).map (c :: ·)
  | .unit high :: .unit low :: ps =>
    if 0xD800 ≤ high ∧ high < 0xDC00 then
      if 0xDC00 ≤ low ∧ low < 0xE000 then
        (textOfPieces? ps).map
          (Char.ofNat (0x10000 + 1024 * (high - 0xD800) + (low - 0xDC00)) :: ·)
      else none
    else if 0xDC00 ≤ high ∧ high < 0xE000 then none
    else (textOfPieces? (.unit low :: ps)).map (Char.ofNat high :: ·)
  | .unit code :: ps =>
    if 0xD800 ≤ code ∧ code < 0xE000 then none
    else (textOfPieces? ps).map (Char.ofNat code :: ·)

/-! ### Numbers -/

/-- The digits at the start of a text, of which there must be one, and the text behind them. -/
def cutDigits? (cs : List Char) : Option (List Char × List Char) :=
  let digits := cs.takeWhile Char.isDigit
  if digits = [] then none else some (digits, cs.dropWhile Char.isDigit)

/-- The text behind the integer part of a number, and the digits of that part. A first zero
stands alone. -/
def cutInteger? : List Char → Option (List Char × List Char)
  | '0' :: cs => some (['0'], cs)
  | cs => cutDigits? cs

/-- The text behind the fraction of a number, if there is one. -/
def cutFraction? : List Char → Option (Bool × List Char)
  | '.' :: cs => (cutDigits? cs).map fun r => (true, r.2)
  | cs => some (false, cs)

/-- The text behind the exponent of a number, if there is one. -/
def cutExponent? : List Char → Option (Bool × List Char)
  | e :: cs =>
    if e = 'e' ∨ e = 'E' then
      let digits := match cs with
        | '+' :: ds => ds
        | '-' :: ds => ds
        | ds => ds
      (cutDigits? digits).map fun r => (true, r.2)
    else some (false, e :: cs)
  | [] => some (false, [])

/-- The number at the start of a text, and the text behind it. -/
def cutNumber? (cs : List Char) : Option (Option Nat × List Char) := do
  let (negative, cs) := match cs with
    | '-' :: ds => (true, ds)
    | ds => (false, ds)
  let (digits, cs) ← cutInteger? cs
  let (fraction, cs) ← cutFraction? cs
  let (exponent, cs) ← cutExponent? cs
  return (if negative || fraction || exponent then none
    else some (Nat.ofDigitChars 10 digits 0), cs)

/-! ### Tokens -/

/-- Space, line feed, carriage return and tab. -/
def isBlank (c : Char) : Bool :=
  c == ' ' || c == '\n' || c == '\r' || c == '\t'

/-- The token at the start of a text that begins with a character other than white space, and
the text behind it. -/
def cutToken? (cs : List Char) : Option (Token × List Char) :=
  match cs with
  | '[' :: cs => some (.openArray, cs)
  | ']' :: cs => some (.closeArray, cs)
  | '{' :: cs => some (.openObject, cs)
  | '}' :: cs => some (.closeObject, cs)
  | ',' :: cs => some (.comma, cs)
  | ':' :: cs => some (.colon, cs)
  | '"' :: cs => (cutString? cs).map fun r => (.string ((textOfPieces? r.1).map String.ofList), r.2)
  | 'n' :: 'u' :: 'l' :: 'l' :: cs => some (.null, cs)
  | 't' :: 'r' :: 'u' :: 'e' :: cs => some (.bool true, cs)
  | 'f' :: 'a' :: 'l' :: 's' :: 'e' :: cs => some (.bool false, cs)
  | cs => (cutNumber? cs).map fun r => (.number r.1, r.2)

theorem length_of_cutString? {cs rest : List Char} {ps : List Piece}
    (h : cutString? cs = some (ps, rest)) : rest.length < cs.length := by
  fun_induction cutString? cs generalizing ps with
  | case1 => cases h
  | case2 cs =>
    cases h
    simp
  | case3 a b c d cs ih =>
    simp only [Option.bind_eq_bind, Option.bind_eq_some_iff] at h
    obtain ⟨_, _, ⟨p, r⟩, hr, he⟩ := h
    cases he
    have := ih hr
    simp only [List.length_cons] at this ⊢
    omega
  | case4 e cs _ ih =>
    simp only [Option.bind_eq_bind, Option.bind_eq_some_iff] at h
    obtain ⟨_, _, ⟨p, r⟩, hr, he⟩ := h
    cases he
    have := ih hr
    simp only [List.length_cons] at this ⊢
    omega
  | case5 => cases h
  | case6 c cs _ _ _ _ ih =>
    obtain ⟨⟨p, r⟩, hr, he⟩ := Option.map_eq_some_iff.1 h
    cases he
    have := ih hr
    simp only [List.length_cons] at this ⊢
    omega

theorem length_of_cutDigits? {cs ds rest : List Char} (h : cutDigits? cs = some (ds, rest)) :
    rest.length < cs.length := by
  unfold cutDigits? at h
  dsimp only at h
  split at h
  · cases h
  · rename_i hd
    cases h
    have hs := congrArg List.length (List.takeWhile_append_dropWhile (p := Char.isDigit) (l := cs))
    have := List.length_pos_iff.2 hd
    rw [List.length_append] at hs
    omega

theorem length_of_cutNumber? {cs rest : List Char} {n : Option Nat}
    (h : cutNumber? cs = some (n, rest)) : rest.length < cs.length := by
  have integer {cs ds rest} (h : cutInteger? cs = some (ds, rest)) : rest.length < cs.length := by
    unfold cutInteger? at h
    split at h
    · cases h
      simp
    · exact length_of_cutDigits? h
  have fraction {cs b rest} (h : cutFraction? cs = some (b, rest)) :
      rest.length ≤ cs.length := by
    unfold cutFraction? at h
    split at h
    · obtain ⟨⟨ds, r⟩, hr, he⟩ := Option.map_eq_some_iff.1 h
      cases he
      have := length_of_cutDigits? hr
      simp only [List.length_cons]
      omega
    · cases h
      exact Nat.le_refl _
  have exponent {cs b rest} (h : cutExponent? cs = some (b, rest)) :
      rest.length ≤ cs.length := by
    unfold cutExponent? at h
    split at h
    · split at h
      · obtain ⟨⟨ds, r⟩, hr, he⟩ := Option.map_eq_some_iff.1 h
        cases he
        have := length_of_cutDigits? hr
        simp only [List.length_cons]
        split at this
        · simp only [List.length_cons]
          omega
        · simp only [List.length_cons]
          omega
        · omega
      · cases h
        exact Nat.le_refl _
    · cases h
      exact Nat.le_refl _
  unfold cutNumber? at h
  simp only [Option.bind_eq_bind, Option.bind_eq_some_iff] at h
  obtain ⟨⟨ds, r₁⟩, h₁, ⟨b, r₂⟩, h₂, ⟨b', r₃⟩, h₃, he⟩ := h
  cases he
  have h₁ := integer h₁
  have h₂ := fraction h₂
  have h₃ := exponent h₃
  dsimp only at h₂ h₃
  split at h₁
  · dsimp only at h₁ ⊢
    simp only [List.length_cons]
    omega
  · dsimp only at h₁ ⊢
    omega

/-- A token takes up at least one character. -/
theorem length_of_cutToken? {cs rest : List Char} {t : Token}
    (h : cutToken? cs = some (t, rest)) : rest.length < cs.length := by
  unfold cutToken? at h
  split at h
  case h_7 =>
    obtain ⟨⟨ps, r⟩, hr, he⟩ := Option.map_eq_some_iff.1 h
    cases he
    have := length_of_cutString? hr
    simp only [List.length_cons]
    omega
  case h_11 =>
    obtain ⟨⟨n, r⟩, hr, he⟩ := Option.map_eq_some_iff.1 h
    cases he
    exact length_of_cutNumber? hr
  all_goals
    cases h
    simp only [List.length_cons]
    omega

/-- The tokens of a text. -/
def tokens? (cs : List Char) : Option (List Token) :=
  match cs with
  | [] => some []
  | c :: cs =>
    if isBlank c then tokens? cs
    else match _h : cutToken? (c :: cs) with
      | none => none
      | some (t, rest) => (tokens? rest).map (t :: ·)
termination_by cs.length
decreasing_by
  · simp
  · exact length_of_cutToken? _h

/-! ### The machine -/

/-- An array or object that is still open, with what it holds so far. -/
inductive Frame where
  | array (elements : List Json)
  | object (members : List (Option String × Json))
  /-- An object whose last member still lacks its value. -/
  | member (members : List (Option String × Json)) (name : Option String)

/-- What may come next. -/
inductive Mode where
  /-- A value. -/
  | value
  /-- A value, or the end of an array that holds nothing yet. -/
  | firstElement
  /-- The name of a member, or the end of an object that holds nothing yet. -/
  | firstName
  /-- The name of a member. -/
  | name
  /-- The colon behind a name. -/
  | colon
  /-- A comma, or the end of the innermost array or object. -/
  | more
  /-- Nothing: the value is complete. -/
  | complete (value : Json)

/-- The open arrays and objects, innermost first, and what may come next. -/
structure Machine where
  stack : List Frame
  mode : Mode

namespace Machine

/-- A value has been read: it goes into the innermost array or object. -/
def accept (value : Json) : List Frame → Option Machine
  | [] => some ⟨[], .complete value⟩
  | .array elements :: stack => some ⟨.array (elements ++ [value]) :: stack, .more⟩
  | .member members name :: stack => some ⟨.object (members ++ [(name, value)]) :: stack, .more⟩
  | .object _ :: _ => none

/-- A token where a value may begin. -/
def beginValue (stack : List Frame) : Token → Option Machine
  | .openArray => some ⟨.array [] :: stack, .firstElement⟩
  | .openObject => some ⟨.object [] :: stack, .firstName⟩
  | .null => accept .null stack
  | .bool b => accept (.bool b) stack
  | .number n => accept (.number n) stack
  | .string s => accept (.string s) stack
  | _ => none

/-- The move over one token. -/
def step (m : Machine) (t : Token) : Option Machine :=
  match m.mode, m.stack, t with
  | .firstElement, .array elements :: stack, .closeArray => accept (.array elements) stack
  | .firstElement, stack, t => beginValue stack t
  | .value, stack, t => beginValue stack t
  | .firstName, .object members :: stack, .closeObject => accept (.object members) stack
  | .firstName, .object members :: stack, .string name =>
    some ⟨.member members name :: stack, .colon⟩
  | .name, .object members :: stack, .string name => some ⟨.member members name :: stack, .colon⟩
  | .colon, stack, .colon => some ⟨stack, .value⟩
  | .more, .array elements :: stack, .comma => some ⟨.array elements :: stack, .value⟩
  | .more, .array elements :: stack, .closeArray => accept (.array elements) stack
  | .more, .object members :: stack, .comma => some ⟨.object members :: stack, .name⟩
  | .more, .object members :: stack, .closeObject => accept (.object members) stack
  | _, _, _ => none

/-- The move over several tokens. -/
def run (m : Machine) : List Token → Option Machine
  | [] => some m
  | t :: ts => (m.step t).bind fun m => run m ts

end Machine

/-- The value that tokens stand for. -/
def ofTokens? (ts : List Token) : Option Json :=
  match Machine.run ⟨[], .value⟩ ts with
  | some ⟨_, .complete value⟩ => some value
  | _ => none

/-- The value that a text stands for. -/
def parse? (s : String) : Option Json :=
  (tokens? s.toList).bind ofTokens?

end Netlist.Json
