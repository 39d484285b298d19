import Netlist.Digit
import Netlist.Toml.Basic

/-!
# Numbers and dates of TOML

A number, a date or a time is a word of letters, digits and the signs `+ - _ . :`. Between a date
and a time a blank may stand, which makes two words of them.

## Main definitions

* `Netlist.Toml.integer?`, `Netlist.Toml.isReal`: the words that are numbers.
* `Netlist.Toml.Date.text?`: the words that are dates and times, in the standard notation.
* `Netlist.Toml.cutWord?`: the number, date, time or truth value at the start of a text.
-/

namespace Netlist.Toml

/-! ### Digits -/

/-- Digits without the underscores that group them. Each underscore stands between two digits. -/
def ungroup? (base : Nat) : List Char → Option (List Char)
  | [] => none
  | [c] => (digit? base c).map fun _ => [c]
  | c :: '_' :: cs => do
    let _ ← digit? base c
    return c :: (← ungroup? base cs)
  | c :: cs => do
    let _ ← digit? base c
    return c :: (← ungroup? base cs)

/-- The value of digits that may be grouped. -/
def value? (base : Nat) (cs : List Char) : Option Nat := do
  return (← (← ungroup? base cs).mapM (digit? base)).foldl (fun n d => base * n + d) 0

/-- Decimal digits that may be grouped and do not begin with a zero, unless they are one zero. -/
def integerDigits? (cs : List Char) : Option (List Char) := do
  let digits ← ungroup? 10 cs
  match digits with
  | '0' :: _ :: _ => none
  | _ => some digits

/-- The sign in front of a number: whether it is negative, and the rest. -/
def splitSign : List Char → Bool × List Char
  | '+' :: cs => (false, cs)
  | '-' :: cs => (true, cs)
  | cs => (false, cs)

/-! ### Numbers -/

/-- The integer that a word is. It must fit in 64 bits with a sign. -/
def integer? (word : List Char) : Option Int := do
  let n : Int ← match word with
    | '0' :: 'x' :: cs => (value? 16 cs).map Int.ofNat
    | '0' :: 'o' :: cs => (value? 8 cs).map Int.ofNat
    | '0' :: 'b' :: cs => (value? 2 cs).map Int.ofNat
    | _ =>
      let (negative, cs) := splitSign word
      let n := Nat.ofDigitChars 10 (← integerDigits? cs) 0
      some (if negative then -n else n)
  if (Int64.ofInt n).toInt = n then some n else none

/-- Split a list at the first element that satisfies `p`; that element is left out. -/
def splitAtFirst (p : Char → Bool) (cs : List Char) : List Char × Option (List Char) :=
  match cs.dropWhile fun c => !p c with
  | [] => (cs, none)
  | _ :: rest => (cs.takeWhile fun c => !p c, some rest)

/-- Whether `digits` times ten to the power `exponent` lies at or above the least number that a
64-bit floating-point number rounds to infinity. -/
def overflows (digits : List Char) (exponent : Int) : Bool :=
  let n := Nat.ofDigitChars 10 digits 0
  let size : Int := (Nat.toDigits 10 n).length + exponent
  if n = 0 ∨ size < 309 then false
  else if 309 < size then true
  else
    let limit := Nat.pow 2 1024 - Nat.pow 2 970
    if 0 ≤ exponent then decide (limit ≤ n * Nat.pow 10 exponent.toNat)
    else decide (limit * Nat.pow 10 (-exponent).toNat ≤ n)

/-- The digits of a part of a number that may be missing. -/
def optionalDigits? : Option (List Char) → Option (List Char)
  | none => some []
  | some cs => ungroup? 10 cs

/-- Whether a word is a floating-point number: an integer part with a fraction, an exponent or
both, or a word for infinity or for no number. A positive number must not be too great. -/
def isReal (word : List Char) : Bool :=
  let (negative, cs) := splitSign word
  if cs = ['i', 'n', 'f'] ∨ cs = ['n', 'a', 'n'] then true
  else
    let (mantissa, exponent) := splitAtFirst (fun c => c = 'e' || c = 'E') cs
    let (whole, fraction) := splitAtFirst (· = '.') mantissa
    let (exponentNegative, exponentDigits) := splitSign (exponent.getD [])
    if fraction = none ∧ exponent = none then false
    else match integerDigits? whole, optionalDigits? fraction,
        optionalDigits? (exponent.map fun _ => exponentDigits) with
      | some whole, some fraction, some shift =>
        let shift : Int := Nat.ofDigitChars 10 shift 0
        negative || !overflows (whole ++ fraction)
          ((if exponentNegative then -shift else shift) - fraction.length)
      | _, _, _ => false

/-! ### Dates and times -/

namespace Date

/-- The number that two digits are, if it is not greater than `most`. -/
def two? (most : Nat) (a b : Char) : Option Nat := do
  let n := 10 * (← digit? 10 a) + (← digit? 10 b)
  if n ≤ most then some n else none

/-- The number of days of a month. -/
def daysOf (year month : Nat) : Nat :=
  if month = 2 then
    if year % 4 = 0 ∧ (year % 100 ≠ 0 ∨ year % 400 = 0) then 29 else 28
  else if month ∈ [4, 6, 9, 11] then 30
  else 31

/-- The date at the start of a word, and the rest of the word. -/
def cutDay? : List Char → Option (List Char × List Char)
  | y :: y' :: y'' :: y''' :: '-' :: m :: m' :: '-' :: d :: d' :: rest => do
    let year := 100 * (← two? 99 y y') + (← two? 99 y'' y''')
    let month ← two? 12 m m'
    let day ← two? (daysOf year month) d d'
    if month = 0 ∨ day = 0 then none
    return ([y, y', y'', y''', '-', m, m', '-', d, d'], rest)
  | _ => none

/-- The fraction of a second, in the standard notation: up to nine digits, without zeros at its
end. -/
def fractionText (digits : List Char) : List Char :=
  match ((digits.take 9).reverse.dropWhile (· = '0')).reverse with
  | [] => []
  | digits => '.' :: digits

/-- The time at the start of a word in the standard notation, and the rest of the word. -/
def cutTime? : List Char → Option (List Char × List Char)
  | h :: h' :: ':' :: m :: m' :: ':' :: s :: s' :: rest => do
    let _ ← two? 23 h h'
    let _ ← two? 59 m m'
    let _ ← two? 60 s s'
    let time := [h, h', ':', m, m', ':', s, s']
    match rest with
    | '.' :: rest =>
      let digits := rest.takeWhile Char.isDigit
      if digits = [] then none
      return (time ++ fractionText digits, rest.dropWhile Char.isDigit)
    | _ => return (time, rest)
  | _ => none

/-- The offset from universal time in the standard notation, if a word is one. -/
def offset? : List Char → Option (List Char)
  | [] => some []
  | ['Z'] => some ['Z']
  | ['z'] => some ['Z']
  | [sign, h, h', ':', m, m'] => do
    let hours ← two? 23 h h'
    let minutes ← two? 59 m m'
    if sign ≠ '+' ∧ sign ≠ '-' then none
    return (if hours = 0 ∧ minutes = 0 then '+' else sign) :: [h, h', ':', m, m']
  | _ => none

/-- A time with an offset, in the standard notation, if a word is one. -/
def timeWithOffset? (word : List Char) : Option (List Char) := do
  let (time, rest) ← cutTime? word
  return time ++ (← offset? rest)

/-- A date, a time or both, in the standard notation, if a word is one. -/
def text? (word : List Char) : Option (List Char) :=
  match cutDay? word with
  | some (day, []) => some day
  | some (day, c :: rest) =>
    if c = 'T' ∨ c = 't' then (timeWithOffset? rest).map fun time => day ++ 'T' :: time else none
  | none =>
    match cutTime? word with
    | some (time, []) => some time
    | _ => none

end Date

/-! ### Words -/

/-- A character of a word. -/
def isWordPart (c : Char) : Bool :=
  c.isAlphanum || c ∈ ['+', '-', '_', '.', ':']

/-- The value that a word stands for. -/
def valueOfWord? (word : List Char) : Option Value :=
  if word = ['t', 'r', 'u', 'e'] then some (.bool true)
  else if word = ['f', 'a', 'l', 's', 'e'] then some (.bool false)
  else match integer? word with
    | some n => some (.integer n)
    | none =>
      if isReal word then some .real
      else (Date.text? word).map fun text => .date (String.ofList text)

/-- The value of the word at the start of a text, and the text behind it. If the word is a date
without a time and a blank and a digit follow it, the next word must be a time. -/
def cutWord? (cs : List Char) : Option (Value × List Char) :=
  let word := cs.takeWhile isWordPart
  let rest := cs.dropWhile isWordPart
  match Date.cutDay? word, rest with
  | some (day, []), ' ' :: c :: rest =>
    if c.isDigit then do
      let time ← Date.timeWithOffset? ((c :: rest).takeWhile isWordPart)
      return (.date (String.ofList (day ++ 'T' :: time)), (c :: rest).dropWhile isWordPart)
    else (valueOfWord? word).map (·, ' ' :: c :: rest)
  | _, rest => (valueOfWord? word).map (·, rest)

end Netlist.Toml
