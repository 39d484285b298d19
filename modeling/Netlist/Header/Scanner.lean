import Netlist.Header.Lexeme

/-!
# Scanning the bytes of a header text

A text can be cut into tokens by its bytes. A byte is looked at as if it were the character with its
number, and the next one is looked at too where a comment may begin or end; behind the last byte
there are zeros. The spelling of a word, and a character that begins no token, are sliced out of the
text, which is possible only where no character is cut apart. Offsets in spans have 32 bits.

## Main definitions

* `Netlist.Header.bytes`: the UTF-8 form of a text.
* `Netlist.Header.Cursor`: a place among the bytes.
* `Netlist.Header.scan`: the tokens of a text, or the failure that is met first.
-/

namespace Netlist.Header

/-- The UTF-8 form of a text. -/
def bytes (source : List Char) : List UInt8 :=
  source.flatMap String.utf8EncodeChar

/-! ### Places -/

/-- A place among the bytes of a text. -/
structure Cursor where
  /-- The number of bytes in front of it. -/
  pos : Nat
  /-- The bytes behind it. -/
  rest : List UInt8
deriving DecidableEq, Repr

namespace Cursor

/-- The byte at a distance, as a character. -/
def peek (c : Cursor) (distance : Nat) : Char :=
  .ofUInt8 (c.rest.getD distance 0)

/-- The place some bytes further on. -/
def advance (c : Cursor) (n : Nat) : Cursor :=
  ⟨c.pos + n, c.rest.drop n⟩

/-- The place behind the bytes that belong to a class. -/
def skipWhile (c : Cursor) (part : Char → Bool) : Cursor :=
  c.advance (c.rest.takeWhile fun b => part (.ofUInt8 b)).length

/-- The span from one place to another. -/
def spanTo (c c' : Cursor) : Span :=
  ⟨(UInt32.ofNat c.pos).toNat, (UInt32.ofNat c'.pos).toNat⟩

theorem length_advance (c : Cursor) (n : Nat) :
    (c.advance n).rest.length = c.rest.length - n :=
  List.length_drop

theorem length_skipWhile_le (c : Cursor) (part : Char → Bool) :
    (c.skipWhile part).rest.length ≤ c.rest.length := by
  rw [skipWhile, length_advance]
  exact Nat.sub_le _ _

/-- If the next byte is in a class, there is a byte to skip. -/
theorem length_skipWhile_lt {c : Cursor} {part : Char → Bool} (hne : c.rest ≠ [])
    (h : part (c.peek 0) = true) : (c.skipWhile part).rest.length < c.rest.length := by
  obtain ⟨pos, rest⟩ := c
  cases rest with
  | nil => exact absurd rfl hne
  | cons b rest =>
    have hb : part (.ofUInt8 b) = true := h
    rw [skipWhile, length_advance]
    simp only [List.takeWhile_cons, hb, if_true, List.length_cons]
    omega

end Cursor

/-! ### Gaps -/

/-- The place behind the first end of a block comment. -/
def closeComment (pos : Nat) : List UInt8 → Option Cursor
  | [] => none
  | b :: bs =>
    if Char.ofUInt8 b = '*' ∧ Char.ofUInt8 (bs.headD 0) = '/' then some ⟨pos + 2, bs.tail⟩
    else closeComment (pos + 1) bs

theorem length_closeComment_le {pos : Nat} {bs : List UInt8} {c : Cursor}
    (h : closeComment pos bs = some c) : c.rest.length ≤ bs.length := by
  induction bs generalizing pos with
  | nil => cases h
  | cons b bs ih =>
    rw [closeComment] at h
    split at h
    · cases h
      simp only [List.length_tail, List.length_cons]
      omega
    · exact Nat.le_succ_of_le (ih h)

/-- The place behind white space and comments. -/
def skipGap (c : Cursor) : Except LexicalError Cursor :=
  let c' := c.skipWhile isBlank
  if _h : c'.rest = [] then .ok c'
  else if c'.peek 0 = '/' ∧ c'.peek 1 = '/' then skipGap ((c'.advance 2).skipWhile (· ≠ '\n'))
  else if c'.peek 0 = '/' ∧ c'.peek 1 = '*' then
    match _hc : closeComment (c'.pos + 2) (c'.rest.drop 2) with
    | none => .error ⟨(c'.spanTo c').start, .openComment⟩
    | some c'' => skipGap c''
  else .ok c'
termination_by c.rest.length
decreasing_by
  · have hle : c'.rest.length ≤ c.rest.length := c.length_skipWhile_le isBlank
    have hle' := (c'.advance 2).length_skipWhile_le (· ≠ '\n')
    have hpos := List.length_pos_iff.2 _h
    rw [Cursor.length_advance] at hle'
    change ((c'.advance 2).skipWhile (· ≠ '\n')).rest.length < c.rest.length
    omega
  · have hle : c'.rest.length ≤ c.rest.length := c.length_skipWhile_le isBlank
    have hle' := length_closeComment_le _hc
    have hpos := List.length_pos_iff.2 _h
    rw [List.length_drop] at hle'
    omega

theorem length_skipGap_le {c c' : Cursor} (h : skipGap c = .ok c') :
    c'.rest.length ≤ c.rest.length := by
  fun_induction skipGap c with
  | case1 c =>
    rw [← Except.ok.inj h]
    exact c.length_skipWhile_le isBlank
  | case2 c c₁ _ _ ih =>
    have hle : c₁.rest.length ≤ c.rest.length := c.length_skipWhile_le isBlank
    have hle' := (c₁.advance 2).length_skipWhile_le (· ≠ '\n')
    have hlast := ih h
    rw [Cursor.length_advance] at hle'
    omega
  | case3 => cases h
  | case4 c c₁ _ _ _ c₂ hclose ih =>
    have hle : c₁.rest.length ≤ c.rest.length := c.length_skipWhile_le isBlank
    have hle' := length_closeComment_le hclose
    have hlast := ih h
    rw [List.length_drop] at hle'
    omega
  | case5 c =>
    rw [← Except.ok.inj h]
    exact c.length_skipWhile_le isBlank

/-! ### Tokens -/

/-- Why the bytes of a text are not cut into tokens. -/
inductive ScanError where
  /-- No token and no comment begins at a place, or a comment does not end. -/
  | lexical (e : LexicalError)
  /-- A slice of the text would cut a character apart. -/
  | slice (span : Span)
deriving DecidableEq, Repr

/-- The part of a text between two offsets. -/
def slice (source : List Char) (span : Span) : Except ScanError (List Char) :=
  match span.slice? source with
  | some text => .ok text
  | none => .error (.slice span)

/-- The kind of the token at a place, which is not the end of the text, and the place behind it. -/
def scanToken (source : List Char) (c : Cursor) : Except ScanError (TokenKind × Cursor) :=
  if Identifier.isStart (c.peek 0) then do
    let c' := c.skipWhile Identifier.isPart
    let word ← slice source (c.spanTo c')
    return (wordKind word, c')
  else if (c.peek 0).isDigit then .ok (.number, c.skipWhile isNumberPart)
  else match Mark.ofChar? (c.peek 0) with
    | some m => .ok (.mark m, c.advance 1)
    | none => do
      let rest ← slice source ⟨c.pos, byteLength source⟩
      .error (.lexical ⟨(c.spanTo c).start, .unexpected (rest.headD '\x00')⟩)

theorem length_scanToken_lt {source : List Char} {c c' : Cursor} {kind : TokenKind}
    (hne : c.rest ≠ []) (h : scanToken source c = .ok (kind, c')) :
    c'.rest.length < c.rest.length := by
  unfold scanToken at h
  split at h
  · rename_i hstart
    have hlt := Cursor.length_skipWhile_lt hne (Identifier.isPart_of_isStart hstart)
    dsimp only at h
    cases hs : slice source (c.spanTo (c.skipWhile Identifier.isPart)) with
    | error e =>
      rw [hs] at h
      cases h
    | ok word =>
      rw [hs] at h
      cases h
      exact hlt
  split at h
  · rename_i hdigit
    cases h
    exact Cursor.length_skipWhile_lt hne (by rw [isNumberPart, hdigit, Bool.true_or])
  split at h
  · cases h
    have hpos := List.length_pos_iff.2 hne
    rw [Cursor.length_advance]
    omega
  · cases hs : slice source ⟨c.pos, byteLength source⟩ <;> rw [hs] at h <;> cases h

/-- The tokens from a place on, with a last one for the end of the text. -/
def scanFrom (source : List Char) (c : Cursor) : Except ScanError (List (TokenKind × Span)) :=
  match _hg : skipGap c with
  | .error e => .error (.lexical e)
  | .ok c' =>
    if _h : c'.rest = [] then .ok [(.endOfFile, c'.spanTo c')]
    else match _ht : scanToken source c' with
      | .error e => .error e
      | .ok (kind, c'') => (scanFrom source c'').map ((kind, c'.spanTo c'') :: ·)
termination_by c.rest.length
decreasing_by exact Nat.lt_of_lt_of_le (length_scanToken_lt _h _ht) (length_skipGap_le _hg)

/-- The tokens of a text, as its bytes are scanned. -/
def scan (source : List Char) : Except ScanError (List (TokenKind × Span)) :=
  scanFrom source ⟨0, bytes source⟩

end Netlist.Header
