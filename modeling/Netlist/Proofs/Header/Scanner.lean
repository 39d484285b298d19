import Netlist.Header.Scanner
import Netlist.Proofs.Header.Layout

/-!
# Scanning bytes gives the tokens

The scanner looks at bytes, but tells only those apart that are characters of ASCII. A byte of any
other character is not one of these, so it stops a run or goes on in it just as its character does.
So the scanner is always at a place between characters, and finds the lexemes of the text there.

## Main definitions

* `Netlist.Header.Plain`: functions that only tell characters of ASCII apart.
* `Netlist.Header.placed`: what is known of tokens without their spelling.

## Main results

* `Netlist.Header.Plain.apply_of_mem`: bytes in the place of characters.
* `Netlist.Header.skipGap_of_isCut_none`, `Netlist.Header.scanToken_of_isCut`: one lexeme.
* `Netlist.Header.scanFrom_bytes`: a whole text.
* `Netlist.Header.scan_accounts_for_text`: what the tokens of a text are, and that no character is
  cut apart.
-/

namespace Netlist.Header

variable {c d : Char} {cs ds run rest text pre source : List Char} {b : UInt8} {pos n : Nat}
  {part : Char → Bool} {l : Lexeme} {ls : List Lexeme}

/-! ### Bytes -/

@[simp] theorem bytes_nil : bytes [] = [] := rfl

@[simp] theorem bytes_cons (c : Char) (cs : List Char) :
    bytes (c :: cs) = String.utf8EncodeChar c ++ bytes cs := rfl

theorem bytes_append (cs ds : List Char) : bytes (cs ++ ds) = bytes cs ++ bytes ds :=
  List.flatMap_append

theorem length_bytes (cs : List Char) : (bytes cs).length = byteLength cs := by
  induction cs with
  | nil => rfl
  | cons c cs ih =>
    rw [bytes_cons, List.length_append, String.length_utf8EncodeChar, ih, byteLength_cons]

/-- The characters of a text have bytes. -/
theorem bytes_cons_ne_nil (c : Char) (cs : List Char) : bytes (c :: cs) ≠ [] := by
  intro h
  exact String.utf8EncodeChar_ne_nil (List.append_eq_nil_iff.1 h).1

/-- A character of ASCII is a single byte. -/
theorem utf8EncodeChar_of_lt (h : c.toNat < 128) :
    ∃ b, String.utf8EncodeChar c = [b] ∧ Char.ofUInt8 b = c := by
  have hc : c.utf8Size = 1 := by
    rw [Char.utf8Size_eq_one_iff, UInt32.le_iff_toNat_le]
    exact Nat.le_of_lt_succ h
  refine ⟨_, String.utf8EncodeChar_eq_singleton hc, Char.ext (UInt32.toNat_inj.1 ?_)⟩
  change c.toNat % 256 = c.toNat
  omega

/-- The bytes of the other characters are the numbers of no characters of ASCII. -/
theorem le_of_mem_utf8EncodeChar (h : 128 ≤ c.toNat) (hb : b ∈ String.utf8EncodeChar c) :
    128 ≤ (Char.ofUInt8 b).toNat := by
  change 128 ≤ b.toNat
  have hc : ¬c.val.toNat ≤ 0x7f := by
    change ¬c.toNat ≤ 127
    omega
  simp only [String.utf8EncodeChar, if_neg hc] at hb
  split_ifs at hb <;> simp only [List.mem_cons, List.not_mem_nil, or_false] at hb <;>
    rcases hb with rfl | rfl | rfl | rfl <;> rw [UInt8.toNat_ofNat'] <;> omega

/-! ### Functions that only tell characters of ASCII apart -/

/-- A function of characters that is the same for all those beyond ASCII. -/
def Plain {α : Sort _} (f : Char → α) : Prop :=
  ∀ c d : Char, 128 ≤ c.toNat → 128 ≤ d.toNat → f c = f d

section Plain

variable {α : Sort _} {f : Char → α}

/-- Such a function is the same for a character and the bytes of it. -/
theorem Plain.apply_of_mem (hf : Plain f) (hb : b ∈ String.utf8EncodeChar c) :
    f (.ofUInt8 b) = f c := by
  rcases Nat.lt_or_ge c.toNat 128 with hc | hc
  · obtain ⟨b', hc', rfl⟩ := utf8EncodeChar_of_lt hc
    rw [hc', List.mem_singleton] at hb
    rw [hb]
  · exact hf _ _ (le_of_mem_utf8EncodeChar hc hb) hc

theorem plain_of_forall {a : α} (h : ∀ c : Char, 128 ≤ c.toNat → f c = a) : Plain f :=
  fun c d hc hd => (h c hc).trans (h d hd).symm

theorem ne_of_le (hc : 128 ≤ c.toNat) (hd : d.toNat < 128) : c ≠ d := by
  rintro rfl
  exact absurd hd (Nat.not_lt.2 hc)

theorem plain_eq (hd : d.toNat < 128) : Plain (· = d) :=
  plain_of_forall fun _ hc => eq_false (ne_of_le hc hd)

/-- No character beyond ASCII stands in a name. -/
theorem isPart_of_le (h : 128 ≤ c.toNat) : Identifier.isPart c = false := by
  refine Bool.eq_false_iff.2 fun hpart => ?_
  simp only [Identifier.isPart, Char.isAlphanum, Char.isAlpha, Char.isUpper, Char.isLower,
    Char.isDigit, UInt32.le_iff_toNat_le, ge_iff_le, Bool.or_eq_true, Bool.and_eq_true,
    decide_eq_true_eq, beq_iff_eq, Char.reduceVal, UInt32.reduceToNat] at hpart
  change 128 ≤ c.val.toNat at h
  rcases hpart with (hpart | rfl) | rfl
  · omega
  · exact absurd h (by decide)
  · exact absurd h (by decide)

theorem isStart_of_le (h : 128 ≤ c.toNat) : Identifier.isStart c = false :=
  Bool.eq_false_iff.2 fun hc =>
    Bool.eq_false_iff.1 (isPart_of_le h) (Identifier.isPart_of_isStart hc)

theorem isDigit_of_le (h : 128 ≤ c.toNat) : c.isDigit = false :=
  Bool.eq_false_iff.2 fun hc => Bool.eq_false_iff.1 (isPart_of_le h) (isPart_of_isDigit hc)

theorem isNumberPart_of_le (h : 128 ≤ c.toNat) : isNumberPart c = false := by
  rw [isNumberPart, isDigit_of_le h, Bool.false_or]
  refine beq_eq_false_iff_ne.2 ?_
  rintro rfl
  exact absurd h (by decide)

theorem isBlank_of_le (h : 128 ≤ c.toNat) : isBlank c = false := by
  refine Bool.eq_false_iff.2 fun hc => ?_
  simp only [isBlank, Bool.or_eq_true, beq_iff_eq] at hc
  rcases hc with (((rfl | rfl) | rfl) | rfl) | rfl <;> exact absurd h (by decide)

theorem ofChar?_of_le (h : 128 ≤ c.toNat) : Mark.ofChar? c = none := by
  refine Option.eq_none_iff_forall_ne_some.2 fun m hm => ?_
  obtain rfl := char_of_ofChar? hm
  exact absurd h (by cases m <;> decide)

end Plain

/-! ### Bytes in a class -/

theorem Plain.forall_mem_bytes (hf : Plain part) (hrun : ∀ d ∈ run, part d = true) :
    ∀ b ∈ bytes run, part (.ofUInt8 b) = true := by
  intro b hb
  obtain ⟨d, hd, hb⟩ := List.mem_flatMap.1 hb
  rw [hf.apply_of_mem hb, hrun d hd]

theorem exists_head?_bytes (c : Char) (cs : List Char) :
    ∃ b, (bytes (c :: cs)).head? = some b ∧ b ∈ String.utf8EncodeChar c := by
  obtain ⟨b, bs, hb⟩ := List.exists_cons_of_ne_nil (String.utf8EncodeChar_ne_nil (c := c))
  refine ⟨b, ?_, hb ▸ List.mem_cons_self⟩
  rw [bytes_cons, hb]
  rfl

theorem Plain.stops_bytes (hf : Plain part) (hrest : Stops part rest) :
    Stops (fun b => part (.ofUInt8 b)) (bytes rest) := by
  cases rest with
  | nil => exact nofun
  | cons c cs =>
    obtain ⟨b, hhead, hmem⟩ := exists_head?_bytes c cs
    intro b' hb'
    obtain rfl := Option.some.inj (hhead.symm.trans hb')
    exact (hf.apply_of_mem hmem).trans (hrest c rfl)

/-- Skipping the bytes of a run leads behind it. -/
theorem Plain.skipWhile_append (hf : Plain part) (hrun : ∀ d ∈ run, part d = true)
    (hrest : Stops part rest) : (Cursor.mk pos (bytes (run ++ rest))).skipWhile part =
      ⟨pos + byteLength run, bytes rest⟩ := by
  rw [Cursor.skipWhile, Cursor.advance, bytes_append,
    takeWhile_append_of_stops (hf.forall_mem_bytes hrun) (hf.stops_bytes hrest), length_bytes,
    ← length_bytes, List.drop_left]

theorem Plain.skipWhile_of_stops (hf : Plain part) (hrest : Stops part rest) :
    (Cursor.mk pos (bytes rest)).skipWhile part = ⟨pos, bytes rest⟩ :=
  hf.skipWhile_append (List.forall_mem_nil _) hrest

/-- The next byte is looked at as if it were the next character. -/
theorem Plain.peek_zero {α : Sort _} {f : Char → α} (hf : Plain f) (pos : Nat) (c : Char)
    (cs : List Char) : f ((Cursor.mk pos (bytes (c :: cs))).peek 0) = f c := by
  obtain ⟨b, hhead, hmem⟩ := exists_head?_bytes c cs
  obtain ⟨bs, hbs⟩ := List.head?_eq_some_iff.1 hhead
  rw [hbs]
  exact hf.apply_of_mem hmem

/-- A byte is a certain character of ASCII if the next character is that one. -/
theorem ofUInt8_headD_eq_iff (hd : d.toNat < 128) (hzero : d ≠ '\x00') :
    Char.ofUInt8 ((bytes cs).headD 0) = d ↔ cs.head? = some d := by
  cases cs with
  | nil => exact iff_of_false hzero.symm nofun
  | cons c cs =>
    obtain ⟨b, hhead, hmem⟩ := exists_head?_bytes c cs
    rw [List.headD_eq_head?_getD, hhead, List.head?_cons, Option.some.injEq]
    exact iff_of_eq ((plain_eq hd).apply_of_mem hmem)

/-- Two bytes are certain characters of ASCII if the next two characters are. -/
theorem peek_two_iff (hd : d.toNat < 128) (hzero : d ≠ '\x00') :
    (Cursor.mk pos (bytes (c :: cs))).peek 0 = '/' ∧
      (Cursor.mk pos (bytes (c :: cs))).peek 1 = d ↔ c = '/' ∧ cs.head? = some d := by
  rw [(plain_eq (d := '/') (by decide)).peek_zero]
  refine and_congr_right ?_
  rintro rfl
  rw [← ofUInt8_headD_eq_iff hd hzero]
  change Char.ofUInt8 ((bytes cs).getD 0 0) = d ↔ _
  cases bytes cs <;> rfl

/-! ### Gaps -/

/-- Bytes that are no stars do not end a comment. -/
theorem closeComment_append {bs bs' : List UInt8} (h : ∀ b ∈ bs, Char.ofUInt8 b ≠ '*') :
    closeComment pos (bs ++ bs') = closeComment (pos + bs.length) bs' := by
  induction bs generalizing pos with
  | nil => rfl
  | cons b bs ih =>
    obtain ⟨hb, hbs⟩ := List.forall_mem_cons.1 h
    rw [List.cons_append, closeComment, if_neg fun h => hb h.1, ih hbs, List.length_cons]
    congr 1
    omega

/-- A comment ends at the same place in the bytes as in the text. -/
theorem closeComment_bytes (pos : Nat) (cs : List Char) : closeComment pos (bytes cs) =
    (cutComment cs).map fun r => ⟨pos + byteLength r.1, bytes r.2⟩ := by
  induction cs generalizing pos with
  | nil => rfl
  | cons c cs ih =>
    by_cases hend : c = '*' ∧ cs.head? = some '/'
    · obtain ⟨rfl, hhead⟩ := hend
      obtain ⟨ds, rfl⟩ := List.head?_eq_some_iff.1 hhead
      rfl
    · have hstep : closeComment pos (bytes (c :: cs)) =
          closeComment (pos + c.utf8Size) (bytes cs) := by
        by_cases hc : c = '*'
        · subst hc
          change (if '*' = '*' ∧ Char.ofUInt8 ((bytes cs).headD 0) = '/' then _ else _) = _
          exact if_neg fun h => hend ⟨rfl, (ofUInt8_headD_eq_iff (by decide) (by decide)).1 h.2⟩
        · rw [bytes_cons, closeComment_append, String.length_utf8EncodeChar]
          intro b hb hstar
          exact hc (((plain_eq (d := '*') (by decide)).apply_of_mem hb).mp hstar)
      rw [hstep, ih, cutComment_cons hend, Option.map_map]
      refine congrArg (Option.map · _) (funext fun r => ?_)
      simp only [Function.comp_apply, byteLength_cons, Nat.add_assoc]

/-- What is skipped behind white space. -/
theorem skipGap_eq (c : Cursor) : skipGap c =
    let c' := c.skipWhile isBlank
    if c'.rest = [] then .ok c'
    else if c'.peek 0 = '/' ∧ c'.peek 1 = '/' then skipGap ((c'.advance 2).skipWhile (· ≠ '\n'))
    else if c'.peek 0 = '/' ∧ c'.peek 1 = '*' then
      match closeComment (c'.pos + 2) (c'.rest.drop 2) with
      | none => .error ⟨(c'.spanTo c').start, .openComment⟩
      | some c'' => skipGap c''
    else .ok c' := by
  conv_lhs => rw [skipGap]
  dsimp only
  split
  · rfl
  split
  · rfl
  split
  · split <;> rename_i h <;> rw [h]
  · rfl

/-- What is skipped where no white space comes. -/
theorem skipGap_cons (hc : isBlank c = false) : skipGap ⟨pos, bytes (c :: cs)⟩ =
    if c = '/' ∧ cs.head? = some '/' then
      skipGap (((Cursor.mk pos (bytes (c :: cs))).advance 2).skipWhile (· ≠ '\n'))
    else if c = '/' ∧ cs.head? = some '*' then
      match closeComment (pos + 2) ((bytes (c :: cs)).drop 2) with
      | none => .error ⟨(UInt32.ofNat pos).toNat, .openComment⟩
      | some c'' => skipGap c''
    else .ok ⟨pos, bytes (c :: cs)⟩ := by
  have hskip : (Cursor.mk pos (bytes (c :: cs))).skipWhile isBlank = ⟨pos, bytes (c :: cs)⟩ :=
    (plain_of_forall fun _ => isBlank_of_le).skipWhile_of_stops fun d hd => by
      obtain rfl := Option.some.inj hd
      exact hc
  rw [skipGap_eq]
  dsimp only
  rw [hskip, if_neg (bytes_cons_ne_nil c cs)]
  simp only [peek_two_iff (d := '/') (by decide) (by decide),
    peek_two_iff (d := '*') (by decide) (by decide)]
  rfl

/-- White space and comments are skipped. -/
theorem skipGap_of_isCut_none (h : IsCut text l rest) (hkind : l.kind = none) :
    skipGap ⟨pos, bytes text⟩ = skipGap ⟨pos + byteLength l.text, bytes rest⟩ := by
  cases h with
  | @run _ _ run _ _ hrun hall hstops =>
    cases hrun with
    | @blank c hc =>
      have hplain : Plain isBlank := plain_of_forall fun _ => isBlank_of_le
      have hfirst : (Cursor.mk pos (bytes ([c] ++ (run ++ rest)))).skipWhile isBlank =
          ⟨pos + byteLength ([c] ++ run), bytes rest⟩ :=
        hplain.skipWhile_append (List.forall_mem_cons.2 ⟨hc, hall⟩) hstops
      have hsecond : (Cursor.mk (pos + byteLength ([c] ++ run)) (bytes rest)).skipWhile isBlank =
          ⟨pos + byteLength ([c] ++ run), bytes rest⟩ :=
        hplain.skipWhile_of_stops hstops
      rw [skipGap_eq ⟨pos, _⟩, skipGap_eq ⟨pos + _, _⟩, hfirst, hsecond]
    | word => cases hkind
    | number => cases hkind
    | line =>
      have hplain : Plain fun c : Char => decide (c ≠ '\n') :=
        plain_of_forall fun c hc => decide_eq_true (ne_of_le (d := '\n') hc (by decide))
      have hskip : (Cursor.mk (pos + 2) (bytes (run ++ rest))).skipWhile (· ≠ '\n') =
          ⟨pos + 2 + byteLength run, bytes rest⟩ := hplain.skipWhile_append hall hstops
      refine (skipGap_cons rfl).trans ?_
      rw [if_pos ⟨rfl, rfl⟩]
      change skipGap ((Cursor.mk (pos + 2) (bytes (run ++ rest))).skipWhile _) = _
      rw [hskip, byteLength_append, Nat.add_assoc]
      rfl
  | mark => cases hkind
  | @block inner _ hinner =>
    refine (skipGap_cons rfl).trans ?_
    have hlength : byteLength ('/' :: '*' :: (inner ++ ['*', '/'])) =
        2 + byteLength (inner ++ ['*', '/']) := by
      rw [byteLength_cons, byteLength_cons, ← Nat.add_assoc]
      rfl
    rw [if_neg (by simp), if_pos ⟨rfl, rfl⟩]
    change (match closeComment (pos + 2) (bytes (inner ++ '*' :: '/' :: rest)) with
      | none => _
      | some c'' => skipGap c'') = _
    rw [closeComment_bytes, cutComment_append hinner, hlength, ← Nat.add_assoc]
    rfl

/-- Where a token begins, nothing is skipped. -/
theorem skipGap_of_isCut_some {kind : TokenKind} (h : IsCut text l rest)
    (hkind : l.kind = some kind) : skipGap ⟨pos, bytes text⟩ = .ok ⟨pos, bytes text⟩ := by
  obtain ⟨c, cs, rfl, hblank, hslash⟩ :
      ∃ c cs, text = c :: cs ∧ isBlank c = false ∧ c ≠ '/' := by
    cases h with
    | run hrun =>
      cases hrun with
      | blank => cases hkind
      | @word c hc =>
        refine ⟨c, _, rfl, isBlank_of_isPart (Identifier.isPart_of_isStart hc), ?_⟩
        rintro rfl
        exact absurd hc (by decide)
      | @number c hc =>
        refine ⟨c, _, rfl, isBlank_of_isPart (isPart_of_isDigit hc), ?_⟩
        rintro rfl
        exact absurd hc (by decide)
      | line => cases hkind
    | mark m => exact ⟨m.char, _, rfl, by cases m <;> decide, by cases m <;> decide⟩
    | block => cases hkind
  rw [skipGap_cons hblank, if_neg fun h => hslash h.1, if_neg fun h => hslash h.1]

/-! ### Tokens -/

/-- A place in a text lies no further on than its end. -/
theorem byteLength_lt (hsize : byteLength source < n) (hsource : source = pre ++ text) :
    byteLength pre < n := by
  rw [hsource, byteLength_append] at hsize
  exact Nat.lt_of_le_of_lt (Nat.le_add_right _ _) hsize

theorem spanTo_mk {stop : Nat} {bs bs' : List UInt8} (h : stop < UInt32.size) (hle : pos ≤ stop) :
    (Cursor.mk pos bs).spanTo ⟨stop, bs'⟩ = ⟨pos, stop⟩ := by
  rw [Cursor.spanTo, UInt32.toNat_ofNat_of_lt' (Nat.lt_of_le_of_lt hle h),
    UInt32.toNat_ofNat_of_lt' h]

/-- The token at a place is chosen by the next character. -/
theorem scanToken_cons : scanToken source ⟨pos, bytes (c :: cs)⟩ =
    if Identifier.isStart c then do
      let c' := (Cursor.mk pos (bytes (c :: cs))).skipWhile Identifier.isPart
      let word ← slice source ((Cursor.mk pos (bytes (c :: cs))).spanTo c')
      return (wordKind word, c')
    else if c.isDigit then
      .ok (.number, (Cursor.mk pos (bytes (c :: cs))).skipWhile isNumberPart)
    else match Mark.ofChar? c with
      | some m => .ok (.mark m, (Cursor.mk pos (bytes (c :: cs))).advance 1)
      | none => (do
        let rest ← slice source ⟨pos, byteLength source⟩
        .error (.lexical ⟨(UInt32.ofNat pos).toNat, .unexpected (rest.headD '\x00')⟩)) := by
  have hstart : Plain Identifier.isStart := plain_of_forall fun _ => isStart_of_le
  have hdigit : Plain Char.isDigit := plain_of_forall fun _ => isDigit_of_le
  have hmark : Plain Mark.ofChar? := plain_of_forall fun _ => ofChar?_of_le
  rw [scanToken, hstart.peek_zero, hdigit.peek_zero, hmark.peek_zero]
  rfl

/-- A lexeme that is a token is scanned as this token. -/
theorem scanToken_of_isCut {kind : TokenKind} (hsize : byteLength source < UInt32.size)
    (hsource : source = pre ++ text) (h : IsCut text l rest) (hkind : l.kind = some kind) :
    scanToken source ⟨byteLength pre, bytes text⟩ =
      .ok (kind, ⟨byteLength pre + byteLength l.text, bytes rest⟩) := by
  cases h with
  | @run _ _ run _ _ hrun hall hstops =>
    cases hrun with
    | blank => cases hkind
    | @word c hc =>
      obtain rfl := Option.some.inj hkind
      have hskip : (Cursor.mk (byteLength pre) (bytes (c :: run ++ rest))).skipWhile
          Identifier.isPart = ⟨byteLength pre + byteLength (c :: run), bytes rest⟩ :=
        (plain_of_forall fun _ => isPart_of_le).skipWhile_append
          (List.forall_mem_cons.2 ⟨Identifier.isPart_of_isStart hc, hall⟩) hstops
      have hsource : source = pre ++ (c :: run ++ rest) := hsource
      have hstop : byteLength pre + byteLength (c :: run) < UInt32.size := by
        rw [← byteLength_append]
        exact byteLength_lt hsize (hsource.trans (List.append_assoc ..).symm)
      have hslice : slice source ⟨byteLength pre, byteLength pre + byteLength (c :: run)⟩ =
          .ok (c :: run) := by
        rw [slice, hsource, Span.slice?_of_append]
      change scanToken source ⟨byteLength pre, bytes (c :: run ++ rest)⟩ = _
      rw [List.cons_append, scanToken_cons, if_pos hc, ← List.cons_append, hskip]
      dsimp only
      rw [spanTo_mk hstop (Nat.le_add_right _ _), hslice]
      rfl
    | @number c hc =>
      obtain rfl := Option.some.inj hkind
      have hskip : (Cursor.mk (byteLength pre) (bytes (c :: run ++ rest))).skipWhile
          isNumberPart = ⟨byteLength pre + byteLength (c :: run), bytes rest⟩ :=
        (plain_of_forall fun _ => isNumberPart_of_le).skipWhile_append
          (List.forall_mem_cons.2 ⟨by rw [isNumberPart, hc, Bool.true_or], hall⟩) hstops
      change scanToken source ⟨byteLength pre, bytes (c :: run ++ rest)⟩ = _
      rw [List.cons_append, scanToken_cons, if_neg (by simp [isStart_of_isDigit hc]), if_pos hc,
        ← List.cons_append, hskip]
      rfl
    | line => cases hkind
  | mark m =>
    obtain rfl := Option.some.inj hkind
    rw [scanToken_cons, ofChar?_char]
    cases m <;> rfl
  | block => cases hkind

/-! ### Whole texts -/

theorem scanFrom_eq (source : List Char) (c : Cursor) : scanFrom source c =
    match skipGap c with
    | .error e => .error (.lexical e)
    | .ok c' =>
      if c'.rest = [] then .ok [(.endOfFile, c'.spanTo c')]
      else match scanToken source c' with
        | .error e => .error e
        | .ok (kind, c'') => (scanFrom source c'').map ((kind, c'.spanTo c'') :: ·) := by
  conv_lhs => rw [scanFrom]
  split
  · rename_i h
    rw [h]
  · rename_i h
    rw [h]
    dsimp only
    split
    · rfl
    · split <;> rename_i h <;> rw [h]

/-- At the end of a text there is a token for it. -/
theorem scanFrom_nil (hpos : pos < UInt32.size) :
    scanFrom source ⟨pos, bytes []⟩ = .ok [(.endOfFile, ⟨pos, pos⟩)] := by
  have hskip : skipGap ⟨pos, bytes []⟩ = .ok ⟨pos, []⟩ := by
    rw [skipGap_eq]
    rfl
  rw [scanFrom_eq, hskip]
  dsimp only
  rw [if_pos rfl, spanTo_mk hpos (Nat.le_refl _)]

/-- Where no lexeme begins, scanning fails for the same reason. -/
theorem scanFrom_of_first_eq_error {cause : LexicalCause} (hpos : byteLength pre < UInt32.size)
    (hsource : source = pre ++ c :: cs) (h : Lexeme.first c cs = .error cause) :
    scanFrom source ⟨byteLength pre, bytes (c :: cs)⟩ =
      .error (.lexical ⟨byteLength pre, cause⟩) := by
  obtain ⟨hblank, ⟨rfl, ⟨ds, rfl, hcut⟩, rfl⟩ | ⟨hline, hblock, hstart, hdigit, hmark, rfl⟩⟩ :=
    of_first_eq_error h
  · have hskip : skipGap ⟨byteLength pre, bytes ('/' :: '*' :: ds)⟩ =
        .error ⟨byteLength pre, .openComment⟩ := by
      rw [skipGap_cons rfl, if_neg (by simp), if_pos ⟨rfl, rfl⟩, UInt32.toNat_ofNat_of_lt' hpos]
      change (match closeComment _ (bytes ds) with
        | none => _
        | some c' => skipGap c') = _
      rw [closeComment_bytes, hcut]
      rfl
    rw [scanFrom_eq, hskip]
  · have hskip : skipGap ⟨byteLength pre, bytes (c :: cs)⟩ =
        .ok ⟨byteLength pre, bytes (c :: cs)⟩ := by
      rw [skipGap_cons hblank, if_neg hline, if_neg hblock]
    have hslice : slice source ⟨byteLength pre, byteLength source⟩ = .ok (c :: cs) := by
      have h := Span.slice?_of_append pre (c :: cs) []
      rw [List.append_nil, ← byteLength_append, ← hsource] at h
      rw [slice, h]
    rw [scanFrom_eq, hskip]
    dsimp only
    rw [if_neg (bytes_cons_ne_nil c cs), scanToken_cons, if_neg (by simp [hstart]),
      if_neg (by simp [hdigit]), hmark]
    dsimp only
    rw [hslice, UInt32.toNat_ofNat_of_lt' hpos]
    rfl

/-- A lexeme that is a token is scanned. -/
theorem scanFrom_of_isCut_some {kind : TokenKind} (hsize : byteLength source < UInt32.size)
    (hsource : source = pre ++ (l.text ++ rest)) (h : IsCut (l.text ++ rest) l rest)
    (hkind : l.kind = some kind) : scanFrom source ⟨byteLength pre, bytes (l.text ++ rest)⟩ =
      (scanFrom source ⟨byteLength pre + byteLength l.text, bytes rest⟩).map
        ((kind, ⟨byteLength pre, byteLength pre + byteLength l.text⟩) :: ·) := by
  obtain ⟨c, cs, hcs⟩ : ∃ c cs, l.text ++ rest = c :: cs :=
    List.exists_cons_of_ne_nil fun hnil => h.text_ne_nil (List.append_eq_nil_iff.1 hnil).1
  have hstop : byteLength pre + byteLength l.text < UInt32.size := by
    rw [← byteLength_append]
    exact byteLength_lt hsize (hsource.trans (List.append_assoc ..).symm)
  rw [scanFrom_eq, skipGap_of_isCut_some h hkind]
  dsimp only
  rw [if_neg (hcs ▸ bytes_cons_ne_nil c cs), scanToken_of_isCut hsize hsource h hkind]
  dsimp only
  rw [spanTo_mk hstop (Nat.le_add_right _ _)]

/-- The tokens of a text as far as its bytes tell them. -/
def placed (ts : List Token) : List (TokenKind × Span) :=
  ts.map fun t => (t.kind, t.span)

/-- From a place between lexemes on, the bytes fall into the tokens of the text that is left. -/
theorem scanFrom_bytes (hsize : byteLength source < UInt32.size) (hsource : source = pre ++ text) :
    scanFrom source ⟨byteLength pre, bytes text⟩ =
      ((lexemes (byteLength pre) text).map fun ls =>
        placed (tokensOfLexemes (byteLength pre) ls)).mapError .lexical := by
  have hpos : byteLength pre < UInt32.size := byteLength_lt hsize hsource
  generalize hoffset : byteLength pre = offset
  fun_induction lexemes offset text generalizing pre with
  | case1 =>
    subst hoffset
    exact scanFrom_nil hpos
  | case2 _ c cs cause hfirst =>
    subst hoffset
    exact scanFrom_of_first_eq_error hpos hsource hfirst
  | case3 _ c cs l rest hfirst ih =>
    subst hoffset
    have hcut := first_eq_ok_iff.1 hfirst
    have happend := hcut.append
    rw [← happend] at hcut hsource ⊢
    have hsource' : source = pre ++ l.text ++ rest := by rw [hsource, List.append_assoc]
    have hrest := ih hsource' (byteLength_lt hsize hsource') (byteLength_append pre l.text)
    cases hkind : l.kind with
    | none =>
      rw [scanFrom_eq, skipGap_of_isCut_none hcut hkind, ← scanFrom_eq, hrest]
      cases lexemes (byteLength pre + byteLength l.text) rest with
      | error e => rfl
      | ok ls =>
        change _ = Except.ok (placed (tokensOfLexemes _ (l :: ls)))
        rw [tokensOfLexemes_of_none hkind]
        rfl
    | some kind =>
      rw [scanFrom_of_isCut_some hsize hsource hcut hkind, hrest]
      cases lexemes (byteLength pre + byteLength l.text) rest with
      | error e => rfl
      | ok ls =>
        change _ = Except.ok (placed (tokensOfLexemes _ (l :: ls)))
        rw [tokensOfLexemes_of_some hkind]
        rfl

/-- A text of at most as many bytes as 32 bits can count is scanned without cutting a character
apart, and its tokens are found. If there are any, they fill the text but for white space and
comments, the span of each of them covers its spelling, and they come one after the other up to the
end of the text. An identifier that is no keyword is a single token. -/
theorem scan_accounts_for_text (hsize : byteLength source < UInt32.size) :
    scan source = ((tokens source).map placed).mapError .lexical ∧
    (∀ span, scan source ≠ .error (.slice span)) ∧
    (∀ ts, tokens source = .ok ts → IsLayout 0 source ts ∧
      (∀ t ∈ ts, t.span.slice? source = some t.text.toList ∧ t.kind.Spells t.text) ∧
      ts.Pairwise (fun t u => t.span.stop ≤ u.span.start) ∧
      ∃ body, ts = body ++ [⟨.endOfFile, "", ⟨byteLength source, byteLength source⟩⟩] ∧
        ∀ t ∈ body, t.kind ≠ .endOfFile ∧ t.span.start < t.span.stop) ∧
    (isIdentifier (String.ofList source) = true →
      (∀ k : Keyword, String.ofList source ≠ k.text) →
      tokens source = .ok [⟨.name, String.ofList source, ⟨0, byteLength source⟩⟩,
        ⟨.endOfFile, "", ⟨byteLength source, byteLength source⟩⟩]) := by
  have hscan : scan source = ((tokens source).map placed).mapError .lexical := by
    have h := scanFrom_bytes hsize (List.nil_append source).symm
    rw [byteLength_nil] at h
    rw [scan, h, tokens]
    cases lexemes 0 source <;> rfl
  refine ⟨hscan, fun span hspan => ?_, fun ts hts => ?_, fun hid hk => ?_⟩
  · rw [hscan] at hspan
    obtain ⟨e, -, he⟩ := mapError_eq_error_iff.1 hspan
    cases he
  · have h := isLayout_of_tokens hts
    refine ⟨h, fun t ht => ⟨slice?_of_tokens hts ht, h.spells ht⟩, h.pairwise, ?_⟩
    simpa using h.exists_eq_concat
  · simpa using tokens_of_isIdentifier hid hk

/-- Characters of two bytes stand in comments here. -/
theorem scan_accounts_for_text_accents :
    byteLength "/* né */ m // ü".toList < UInt32.size ∧
      scan "/* né */ m // ü".toList = .ok [(.name, ⟨10, 11⟩), (.endOfFile, ⟨17, 17⟩)] :=
  ⟨by decide, (scan_accounts_for_text (by decide)).1.trans (by decide_cbv)⟩

end Netlist.Header
