/-!
# Places in a text

Offsets count the bytes of the UTF-8 form of a text, and lines are ended by a line feed.

## Main definitions

* `Netlist.isBoundary`: an offset that does not lie inside of a character.
* `Netlist.Span`: a range of offsets; `Netlist.Span.merge`, `Netlist.Span.text` and
  `Netlist.Span.slice?`.
* `Netlist.Position.ofOffset`: the line and column of an offset, both counted from one.

## Main results

* `Netlist.takeBytes_append_dropBytes`: cutting a text loses nothing.
-/

namespace Netlist

/-! ### Lengths and cuts in bytes -/

/-- The number of bytes of a text. -/
def byteLength : List Char → Nat
  | [] => 0
  | c :: cs => c.utf8Size + byteLength cs

@[simp] theorem byteLength_nil : byteLength [] = 0 := rfl

@[simp] theorem byteLength_cons (c : Char) (cs : List Char) :
    byteLength (c :: cs) = c.utf8Size + byteLength cs := rfl

@[simp] theorem byteLength_append (cs ds : List Char) :
    byteLength (cs ++ ds) = byteLength cs + byteLength ds := by
  induction cs with
  | nil => simp
  | cons c cs ih => simp [ih, Nat.add_assoc]

theorem byteLength_pos {cs : List Char} (h : cs ≠ []) : 0 < byteLength cs := by
  obtain ⟨c, cs, rfl⟩ := List.exists_cons_of_ne_nil h
  exact Nat.add_pos_left c.utf8Size_pos (byteLength cs)

/-- The characters that begin before an offset. -/
def takeBytes : Nat → List Char → List Char
  | _, [] => []
  | n, c :: cs => if n = 0 then [] else c :: takeBytes (n - c.utf8Size) cs

/-- The characters that begin at or after an offset. -/
def dropBytes : Nat → List Char → List Char
  | _, [] => []
  | n, c :: cs => if n = 0 then c :: cs else dropBytes (n - c.utf8Size) cs

theorem takeBytes_append_dropBytes (n : Nat) (cs : List Char) :
    takeBytes n cs ++ dropBytes n cs = cs := by
  induction cs generalizing n with
  | nil => simp [takeBytes, dropBytes]
  | cons c cs ih =>
    by_cases h : n = 0
    · simp [takeBytes, dropBytes, h]
    · simp [takeBytes, dropBytes, h, ih]

@[simp] theorem takeBytes_zero (cs : List Char) : takeBytes 0 cs = [] := by
  cases cs <;> simp [takeBytes]

@[simp] theorem dropBytes_zero (cs : List Char) : dropBytes 0 cs = cs := by
  cases cs <;> simp [dropBytes]

/-- A cut at the end of a first part separates it from the second. -/
theorem dropBytes_byteLength_append (cs ds : List Char) :
    dropBytes (byteLength cs) (cs ++ ds) = ds := by
  induction cs with
  | nil => simp
  | cons c cs ih =>
    have h : 0 < c.utf8Size := c.utf8Size_pos
    have h' : c.utf8Size + byteLength cs ≠ 0 := by omega
    simp only [byteLength_cons, List.cons_append, dropBytes, if_neg h', Nat.add_sub_cancel_left, ih]

theorem takeBytes_byteLength_append (cs ds : List Char) :
    takeBytes (byteLength cs) (cs ++ ds) = cs := by
  induction cs with
  | nil => simp
  | cons c cs ih =>
    have h : 0 < c.utf8Size := c.utf8Size_pos
    have h' : c.utf8Size + byteLength cs ≠ 0 := by omega
    simp only [byteLength_cons, List.cons_append, takeBytes, if_neg h', Nat.add_sub_cancel_left, ih]

/-- Whether a character begins at an offset, or the text ends there. -/
def isBoundary : Nat → List Char → Bool
  | 0, _ => true
  | _ + 1, [] => false
  | n + 1, c :: cs => c.utf8Size ≤ n + 1 && isBoundary (n + 1 - c.utf8Size) cs

/-- The end of a first part is a boundary. -/
theorem isBoundary_byteLength_append (cs ds : List Char) :
    isBoundary (byteLength cs) (cs ++ ds) = true := by
  induction cs with
  | nil => exact isBoundary.eq_1 ds
  | cons c cs ih =>
    obtain ⟨n, hn⟩ : ∃ n, byteLength (c :: cs) = n + 1 :=
      Nat.exists_eq_succ_of_ne_zero (by have := c.utf8Size_pos; rw [byteLength_cons]; omega)
    have hrest : n + 1 - c.utf8Size = byteLength cs := by rw [← hn, byteLength_cons]; omega
    have hle : c.utf8Size ≤ n + 1 := by rw [← hn, byteLength_cons]; omega
    rw [hn, List.cons_append, isBoundary, hrest, ih, decide_eq_true hle, Bool.and_self]

/-! ### Spans -/

/-- A range of byte offsets in a text: from `start` up to, but not including, `stop`. -/
structure Span where
  /-- Offset of the first byte. -/
  start : Nat
  /-- Offset behind the last byte. -/
  stop : Nat
deriving DecidableEq, Repr, Inhabited

namespace Span

/-- The least range that covers both. -/
def merge (a b : Span) : Span :=
  ⟨min a.start b.start, max a.stop b.stop⟩

/-- The part of a text that a span covers. -/
def text (span : Span) (source : List Char) : List Char :=
  takeBytes (span.stop - span.start) (dropBytes span.start source)

/-- The part of a text that a span covers, if the span does not end before it begins and cuts no
character apart. -/
def slice? (span : Span) (source : List Char) : Option (List Char) :=
  if span.start ≤ span.stop ∧ isBoundary span.start source ∧ isBoundary span.stop source then
    some (span.text source)
  else none

/-- The span of the second part of a text. -/
theorem text_of_append (a b c : List Char) :
    text ⟨byteLength a, byteLength a + byteLength b⟩ (a ++ (b ++ c)) = b := by
  rw [text, dropBytes_byteLength_append, Nat.add_sub_cancel_left, takeBytes_byteLength_append]

theorem slice?_of_append (a b c : List Char) :
    slice? ⟨byteLength a, byteLength a + byteLength b⟩ (a ++ (b ++ c)) = some b := by
  have hstop : isBoundary (byteLength a + byteLength b) (a ++ (b ++ c)) = true := by
    rw [← byteLength_append, ← List.append_assoc]
    exact isBoundary_byteLength_append (a ++ b) c
  rw [slice?, if_pos ⟨Nat.le_add_right _ _, isBoundary_byteLength_append a (b ++ c), hstop⟩,
    text_of_append]

end Span

/-! ### Lines and columns -/

/-- A line and a column, counted from one; columns count bytes. -/
structure Position where
  line : Nat
  column : Nat
deriving DecidableEq, Repr

namespace Position

/-- The position that lies `offset` bytes after `here` in the text that begins there. -/
def advance (here : Position) : Nat → List Char → Position
  | _, [] => here
  | offset, c :: cs =>
    if offset < c.utf8Size then ⟨here.line, here.column + offset⟩
    else if c = '\n' then advance ⟨here.line + 1, 1⟩ (offset - c.utf8Size) cs
    else advance ⟨here.line, here.column + c.utf8Size⟩ (offset - c.utf8Size) cs

/-- The position of an offset. Offsets beyond the end stand for the end. -/
def ofOffset (source : List Char) (offset : Nat) : Position :=
  advance ⟨1, 1⟩ offset source

/-- A position as it stands in front of a message. -/
def text (p : Position) : String :=
  s!"{p.line}:{p.column}"

end Position

end Netlist
