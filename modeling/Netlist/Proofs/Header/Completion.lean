import Netlist.Proofs.Header.Moves

/-!
# Where reading fails

Tokens are completed to a file by some text behind them. At each place in a header a few words are
enough, unless the place is in a range with a number to which one cannot be added. So where reading
fails, the tokens in front of that place can be completed and the next one is the first that is
wrong; but in such a range the failure shows only at a token behind the number.

## Main definitions

* `Netlist.Header.Stage.Closable`: some text can come behind a stage.
* `Netlist.Header.Completable`: tokens with which a text can begin.
* `Netlist.Header.Stage.Fails`: reading fails at a token.

## Main results

* `Netlist.Header.Stage.closable_iff`: the places behind which some text can come.
* `Netlist.Header.completable_of_after`, `Netlist.Header.Completable.exists_after`: what tokens that
  can be completed are to the reader.
* `Netlist.Header.readAll_error_first_offence`: the place of a syntax error.
-/

namespace Netlist.Header

variable {stage next : Stage} {t stop stop' : Token} {ts us front back body : List Token}
  {text text' : List Char} {draft : Draft} {port : PortDraft} {last : Span} {n : UInt32}
  {ks : List TokenKind} {cause : SyntaxCause} {source : String} {place : Position}

/-! ### Texts behind others -/

/-- The tokens of two texts with a line feed between them, without regard to their places. -/
theorem exists_tokens_append_line (h : tokens text = .ok (front ++ [stop]))
    (h' : tokens text' = .ok (body ++ [stop'])) : ∃ rest last,
      tokens (text ++ '\n' :: text') = .ok (front ++ rest ++ [last]) ∧
        rest.map Token.word = body.map Token.word := by
  have hjoined := tokens_append_line h h'
  rw [List.map_append, List.map_singleton, ← List.append_assoc] at hjoined
  refine ⟨_, _, hjoined, ?_⟩
  rw [List.map_map]
  rfl

theorem tokens_mark (m : Mark) : tokens [m.char] =
    .ok ([⟨.mark m, String.ofList [m.char], ⟨0, 1⟩⟩] ++ [⟨.endOfFile, "", ⟨1, 1⟩⟩]) := by
  cases m <;> decide_cbv

theorem tokens_name :
    tokens ['x'] = .ok ([⟨.name, "x", ⟨0, 1⟩⟩] ++ [⟨.endOfFile, "", ⟨1, 1⟩⟩]) := by
  decide_cbv

theorem tokens_zero :
    tokens ['0'] = .ok ([⟨.number, "0", ⟨0, 1⟩⟩] ++ [⟨.endOfFile, "", ⟨1, 1⟩⟩]) := by
  decide_cbv

theorem value_zero : Token.value ⟨.number, "0", ⟨0, 1⟩⟩ = .ok 0 := by
  decide_cbv

/-- If the tokens of a text go on, then those in front of a place in it are the tokens of a text. -/
theorem exists_tokens_front (h : tokens text = .ok (front ++ back)) (hback : back ≠ []) :
    ∃ part stop, tokens part = .ok (front ++ [stop]) := by
  obtain ⟨t, back, rfl⟩ := List.exists_cons_of_ne_nil hback
  by_cases hnil : back = []
  · exact ⟨text, t, hnil ▸ h⟩
  · obtain ⟨ls, hls, htokens⟩ := map_eq_ok_iff.1 h
    obtain ⟨ls, l, ls', rfl, -, -, hfront, -⟩ := exists_split htokens hnil
    obtain ⟨_, -, hpart, -⟩ := (lexemes_eq_ok_iff.1 hls).split
    have hls : tokensOfLexemes 0 (ls ++ []) = front ++ tokensOfLexemes t.span.start [] := hfront []
    rw [List.append_nil] at hls
    exact ⟨_, _, map_eq_ok_iff.2 ⟨ls, lexemes_eq_ok_iff.2 hpart, hls⟩⟩

/-- A number token of a text spells its value. -/
theorem isNumeral_of_mem (h : tokens text = .ok ts) (ht : t ∈ ts) (hkind : t.kind = .number)
    (hvalue : t.value = .ok n) : IsNumeral t.text.toList n.toNat := by
  obtain ⟨body, stop, rfl, hstop, -, hspelled⟩ := spelled_of_tokens h
  rcases List.mem_append.1 ht with ht | ht
  · obtain ⟨m, hm⟩ := hspelled t ht hkind
    rwa [(value_eq_ok_iff hm).1 hvalue]
  · rw [List.mem_singleton.1 ht, hstop] at hkind
    cases hkind

/-! ### Places behind which some text can come -/

namespace Stage

/-- Headers are read from some text behind a stage. -/
def Closable (stage : Stage) : Prop :=
  ∃ text body stop, tokens text = .ok (body ++ [stop]) ∧ stage.Accepts body

/-- If some text can come behind a stage, then it can come behind a text that leads there. -/
theorem Closable.exists_text (h : next.Closable) (htext : tokens text = .ok (front ++ [stop]))
    (hafter : stage.after front = .ok next) : ∃ text' rest last,
      tokens (text ++ '\n' :: text') = .ok (front ++ rest ++ [last]) ∧
        stage.Accepts (front ++ rest) := by
  obtain ⟨text', body, stop', htext', haccepts⟩ := h
  obtain ⟨rest, last, hjoined, hwords⟩ := exists_tokens_append_line htext htext'
  exact ⟨text', rest, last, hjoined,
    accepts_append.2 ⟨next, hafter, accepts_congr rfl hwords.symm haccepts⟩⟩

/-- The token of a short text leads to a place behind which some text can come. -/
theorem Closable.of_move (h : next.Closable) (htext : tokens text = .ok ([t] ++ [stop]))
    (hmove : stage.move t = .ok next) : stage.Closable := by
  obtain ⟨text', rest, last, hjoined, haccepts⟩ :=
    h.exists_text htext (after_singleton.trans hmove)
  exact ⟨_, _, last, hjoined, haccepts⟩

/-! From the end of a header backwards, one token leads from each place to a later one. -/

theorem closable_closed : (closed draft last).Closable :=
  ⟨[], [], ⟨.endOfFile, "", ⟨0, 0⟩⟩, by decide_cbv, _, rfl⟩

theorem closable_headerEnd : (headerEnd draft).Closable :=
  closable_closed.of_move (tokens_mark .semicolon) rfl

theorem closable_firstPort : (firstPort draft).Closable :=
  closable_headerEnd.of_move (tokens_mark .rightParen) rfl

theorem closable_openPorts {start : Span} {name : String} : (openPorts start name).Closable :=
  closable_firstPort.of_move (tokens_mark .leftParen) rfl

theorem closable_portEnd {d : Direction} : (portEnd draft d).Closable :=
  closable_headerEnd.of_move (tokens_mark .rightParen) rfl

theorem closable_word {w : Token} : (word draft port w).Closable :=
  closable_headerEnd.of_move (tokens_mark .rightParen) rfl

theorem closable_portName (hn : n.toNat + 1 < UInt32.size) : (portName draft port n).Closable :=
  closable_portEnd.of_move tokens_name (move_portName rfl hn)

theorem closable_closeRange (hn : n.toNat + 1 < UInt32.size) :
    (closeRange draft port n).Closable :=
  (closable_portName hn).of_move (tokens_mark .rightBracket) rfl

theorem closable_low (hn : n.toNat + 1 < UInt32.size) : (low draft port n).Closable :=
  (closable_closeRange hn).of_move tokens_zero (move_low rfl value_zero)

theorem closable_colon (hn : n.toNat + 1 < UInt32.size) : (colon draft port n).Closable :=
  (closable_low hn).of_move (tokens_mark .colon) rfl

/-- Some text can come behind a stage, unless the stage is in a range of which the width does not
fit in 32 bits. -/
theorem closable_iff :
    stage.Closable ↔ ∀ n ks, stage.range? = some (n, ks) → n.toNat + 1 < UInt32.size := by
  refine ⟨fun ⟨_, _, _, _, h⟩ n ks hrange => lt_of_accepts hrange h, fun h => ?_⟩
  cases stage with
  | outside => exact ⟨[], [], ⟨.endOfFile, "", ⟨0, 0⟩⟩, by decide_cbv, _, rfl⟩
  | moduleName => exact closable_openPorts.of_move tokens_name rfl
  | openPorts => exact closable_openPorts
  | firstPort => exact closable_firstPort
  | nextPort => exact closable_word.of_move tokens_name rfl
  | net => exact closable_word.of_move tokens_name rfl
  | type => exact closable_word.of_move tokens_name rfl
  | word => exact closable_word
  | high => exact (closable_colon (by decide)).of_move tokens_zero (move_high rfl value_zero)
  | colon _ _ n => exact closable_colon (h n _ rfl)
  | low _ _ n => exact closable_low (h n _ rfl)
  | closeRange _ _ n => exact closable_closeRange (h n _ rfl)
  | portName _ _ n => exact closable_portName (h n _ rfl)
  | portEnd => exact closable_portEnd
  | headerEnd => exact closable_headerEnd
  | closed => exact closable_closed

/-! ### Failures -/

/-- Reading fails at a token behind a stage. -/
def Fails (stage : Stage) (t : Token) (cause : SyntaxCause) : Prop :=
  if t.kind = .endOfFile then stage.finish = .error cause else stage.step t = .error cause

/-- If the width of a range does not fit in 32 bits, reading fails behind the range. -/
theorem Fails.exists_range? (h : stage.Fails t .widthOutOfRange) :
    ∃ n ks, stage.range? = some (n, ks) ∧ ¬n.toNat + 1 < UInt32.size := by
  have hvalue (t : Token) : t.value ≠ .error .widthOutOfRange := by
    unfold Token.value
    split <;> exact nofun
  obtain ⟨k, text, span⟩ := t
  cases stage with
  | portName draft port n =>
    refine ⟨n, _, rfl, fun hn => ?_⟩
    unfold Fails at h
    split_ifs at h
    all_goals
      change rangeType n >>= _ = _ at h
      rw [rangeType_eq_ok_iff.2 ⟨hn, rfl⟩, ok_bind] at h
    · cases h
    · split_ifs at h
      cases h
  | high draft port =>
    cases k with
    | number => exact absurd (map_eq_error_iff.1 h) (hvalue _)
    | _ => cases h
  | low draft port n =>
    cases k with
    | number =>
      rcases bind_eq_error_iff.1 h with hm | ⟨m, -, hnext⟩
      · exact absurd hm (hvalue _)
      · split_ifs at hnext
        cases hnext
    | _ => cases h
  | _ =>
    rcases k with (_ | _ | _ | _) | _ | _ | (_ | _ | _ | _ | _ | _ | _) | _ <;> cases h

theorem Fails.move_ne (h : stage.Fails t cause) : stage.move t ≠ .ok next := by
  intro hmove
  rw [Fails, if_neg (kind_ne_of_move hmove)] at h
  obtain ⟨_, hstep, -⟩ := map_eq_ok_iff.1 hmove
  cases h.symm.trans hstep

end Stage

open Stage

/-- Where reading fails, it goes on up to the token at which it fails. -/
theorem exists_of_readFrom_eq_error {e : SyntaxError} (h : readFrom stage last ts = .error e)
    (hend : ∃ t ∈ ts, t.kind = .endOfFile) : ∃ front t back next, ts = front ++ t :: back ∧
      e.span = t.span ∧ stage.after front = .ok next ∧ next.Fails t e.cause := by
  induction ts generalizing stage last with
  | nil =>
    obtain ⟨t, ht, -⟩ := hend
    cases ht
  | cons t ts ih =>
    rw [readFrom] at h
    split_ifs at h with hkind
    · obtain ⟨cause, hcause, rfl⟩ := mapError_eq_error_iff.1 h
      exact ⟨[], t, ts, stage, rfl, rfl, rfl, (if_pos hkind).mpr hcause⟩
    · split at h
      · rename_i cause hcause
        cases h
        exact ⟨[], t, ts, stage, rfl, rfl, rfl, (if_neg hkind).mpr hcause⟩
      · rename_i done next hstep
        have hend : ∃ t ∈ ts, t.kind = .endOfFile := by
          obtain ⟨u, hu, hstop⟩ := hend
          rcases List.mem_cons.1 hu with rfl | hu
          · exact absurd hstop hkind
          · exact ⟨u, hu, hstop⟩
        obtain ⟨front, u, back, next', rfl, hspan, hafter, hfails⟩ := ih (map_eq_error_iff.1 h) hend
        have hmove : stage.move t = .ok next := map_eq_ok_iff.2 ⟨_, hstep, rfl⟩
        refine ⟨t :: front, u, back, next', rfl, hspan, ?_, hfails⟩
        rw [after, List.foldlM_cons, hmove]
        exact hafter

/-- A syntax error is reported at the place of the token at which reading fails. -/
theorem exists_of_readAll_eq_error (h : readAll source = .error (.syntactic place cause)) :
    ∃ front t back next, tokens source.toList = .ok (front ++ t :: back) ∧
      place = .ofOffset source.toList t.span.start ∧ outside.after front = .ok next ∧
        next.Fails t cause := by
  cases htokens : tokensOf source with
  | error e =>
    obtain ⟨e', -, rfl⟩ := mapError_eq_error_iff.1 htokens
    rw [readAll, htokens] at h
    cases h
  | ok ts =>
    have htokens' := mapError_eq_ok_iff.1 htokens
    obtain ⟨body, stop, rfl, hstop, -⟩ := spelled_of_tokens htokens'
    rw [readAll, htokens, ok_bind, readTokensOf, mapError_eq_error_iff] at h
    obtain ⟨e, he, hplace⟩ := h
    obtain ⟨front, t, back, next, hts, hspan, hafter, hfails⟩ :=
      exists_of_readFrom_eq_error he ⟨stop, by simp, hstop⟩
    cases hplace
    rw [hts] at htokens'
    exact ⟨front, t, back, next, htokens', by rw [hspan], hafter, hfails⟩

/-! ### Tokens that can be completed -/

/-- Some text has tokens that begin with the same words, and headers are read from it. If the last
word stands for the end of a text, then no others come behind it. -/
def Completable (ts : List Token) : Prop :=
  ∃ source us rest hs, tokens (String.toList source) = .ok (us ++ rest) ∧
    us.map Token.word = ts.map Token.word ∧ readAll source = .ok hs

/-- Headers are read from a text exactly if they are read from its tokens up to the last one. -/
theorem exists_readAll_iff (h : tokens source.toList = .ok (body ++ [stop])) :
    (∃ hs, readAll source = .ok hs) ↔ outside.Accepts body := by
  obtain ⟨body', stop', heq, -, -, hspelled⟩ := spelled_of_tokens h
  obtain ⟨rfl, -⟩ := List.append_singleton_inj.1 heq
  refine exists_congr fun hs => ?_
  rw [readAll_eq_ok_iff, completes_outside_iff hspelled]
  constructor
  · rintro ⟨body', stop', h', hfile⟩
    obtain ⟨rfl, -⟩ := List.append_singleton_inj.1 (Except.ok.inj (h.symm.trans h'))
    exact hfile
  · exact fun hfile => ⟨body, stop, h, hfile⟩

/-- The tokens of a text up to a place behind which some text can come can be completed. -/
theorem completable_of_after (h : tokens text = .ok (front ++ back)) (hback : back ≠ [])
    (hafter : outside.after front = .ok next) (hnext : next.Closable) : Completable front := by
  obtain ⟨part, stop, hpart⟩ := exists_tokens_front h hback
  obtain ⟨text', rest, last, hjoined, haccepts⟩ := hnext.exists_text hpart hafter
  rw [← String.toList_ofList (l := part ++ '\n' :: text')] at hjoined
  obtain ⟨hs, hread⟩ := (exists_readAll_iff hjoined).2 haccepts
  rw [List.append_assoc] at hjoined
  exact ⟨_, front, _, hs, hjoined, rfl, hread⟩

/-- Tokens that can be completed lead to a place behind which headers are read from some tokens;
from none, if the last word stands for the end of the text. -/
theorem Completable.exists_after (h : Completable ts) :
    (∃ next us, outside.after ts = .ok next ∧ next.Accepts us) ∨
      ∃ front t next, ts = front ++ [t] ∧ t.kind = .endOfFile ∧
        outside.after front = .ok next ∧ next.Accepts [] := by
  obtain ⟨source, us, rest, hs, htokens, hwords, hread⟩ := h
  obtain ⟨body, stop, heq, hstop, -⟩ := spelled_of_tokens htokens
  rw [heq] at htokens
  have haccepts := (exists_readAll_iff htokens).1 ⟨hs, hread⟩
  rcases List.eq_nil_or_concat rest with rfl | ⟨rest, t, rfl⟩
  · rw [List.append_nil] at heq
    rw [heq, List.map_append] at hwords
    obtain ⟨front, back, rfl, hfront, hback⟩ := List.map_eq_append_iff.1 hwords.symm
    obtain ⟨t, rfl, ht⟩ := List.map_eq_singleton_iff.1 hback
    have haccepts : outside.Accepts (front ++ []) :=
      accepts_congr rfl (by rw [List.append_nil, hfront]) haccepts
    obtain ⟨next, hafter, hnext⟩ := accepts_append.1 haccepts
    exact .inr ⟨front, t, next, rfl, (congrArg Prod.fst ht).trans hstop, hafter, hnext⟩
  · rw [List.concat_eq_append, ← List.append_assoc] at heq
    obtain ⟨rfl, -⟩ := List.append_singleton_inj.1 heq
    have haccepts : outside.Accepts (ts ++ rest) :=
      accepts_congr rfl (by rw [List.map_append, List.map_append, hwords]) haccepts
    obtain ⟨next, hafter, hnext⟩ := accepts_append.1 haccepts
    exact .inl ⟨next, rest, hafter, hnext⟩

/-- No text begins with the tokens up to the one at which reading fails, and is read. -/
theorem not_completable_of_fails (hafter : outside.after front = .ok next)
    (hfails : next.Fails t cause) : ¬Completable (front ++ [t]) := by
  intro h
  rcases h.exists_after with ⟨_, _, hafter', -⟩ | ⟨_, _, next', heq, ht, hafter', hs, haccepts⟩
  · obtain ⟨mid, hmid, hmove⟩ := after_append_eq_ok_iff.1 hafter'
    cases hafter.symm.trans hmid
    rw [after_singleton] at hmove
    exact hfails.move_ne hmove
  · obtain ⟨rfl, ht'⟩ := List.append_singleton_inj.1 heq
    cases ht'
    cases hafter.symm.trans hafter'
    rw [Fails, if_pos ht] at hfails
    cases hfails.symm.trans (completes_nil.1 haccepts)

/-- No text begins with the tokens up to a place in a range of which the width does not fit in 32
bits, and is read. -/
theorem not_completable_of_range (hafter : outside.after ts = .ok next)
    (hrange : next.range? = some (n, ks)) (hn : ¬n.toNat + 1 < UInt32.size) : ¬Completable ts := by
  intro h
  rcases h.exists_after with ⟨next', us, hafter', haccepts⟩ | ⟨front, t, _, rfl, ht, -, -⟩
  · cases hafter.symm.trans hafter'
    exact hn (lt_of_accepts hrange haccepts)
  · obtain ⟨mid, -, hmove⟩ := after_append_eq_ok_iff.1 hafter
    rw [after_singleton] at hmove
    exact kind_ne_of_move hmove ht

/-! ### The place of a syntax error -/

/-- A syntax error is reported at a token up to which no tokens can be completed. Those in front of
it can be completed, and then no width is out of range; or they are in a range that begins with the
greatest number of 32 bits, so that this number is the first token up to which none can be
completed, and no more of the range comes between the two than its other three tokens. -/
theorem readAll_error_first_offence (h : readAll source = .error (.syntactic place cause)) :
    ∃ before t after, tokens source.toList = .ok (before ++ t :: after) ∧
      place = .ofOffset source.toList t.span.start ∧ ¬Completable (before ++ [t]) ∧
      ((Completable before ∧ cause ≠ .widthOutOfRange) ∨
        ∃ front number back, before = front ++ number :: back ∧
          number.kind = .number ∧ IsNumeral number.text.toList (UInt32.size - 1) ∧
          back.map Token.kind <+: [.mark .colon, .number, .mark .rightBracket] ∧
          Completable front ∧ ¬Completable (front ++ [number])) := by
  obtain ⟨before, t, after, next, htokens, hplace, hafter, hfails⟩ := exists_of_readAll_eq_error h
  refine ⟨before, t, after, htokens, hplace, not_completable_of_fails hafter hfails, ?_⟩
  by_cases hfits : ∀ n ks, next.range? = some (n, ks) → n.toNat + 1 < UInt32.size
  · refine .inl ⟨completable_of_after htokens (List.cons_ne_nil _ _) hafter
      (closable_iff.2 hfits), ?_⟩
    rintro rfl
    obtain ⟨n, ks, hrange, hn⟩ := hfails.exists_range?
    exact hn (hfits n ks hrange)
  · push Not at hfits
    obtain ⟨n, ks, hrange, hn⟩ := hfits
    obtain ⟨front, number, back, draft, port, rfl, hfront, hkind, hvalue, rfl⟩ :=
      exists_of_range? rfl hafter hrange
    refine .inr ⟨front, number, back, rfl, hkind, ?_, prefix_of_range? hrange, ?_, ?_⟩
    · have hnumeral := isNumeral_of_mem htokens (by simp) hkind hvalue
      have hgreatest : n.toNat = UInt32.size - 1 := by
        have := n.toNat_lt_size
        omega
      rwa [hgreatest] at hnumeral
    · rw [List.append_assoc] at htokens
      exact completable_of_after htokens (by simp) hfront (closable_iff.2 nofun)
    · have hnumber : outside.after (front ++ [number]) = .ok (colon draft port n) :=
        after_append_eq_ok_iff.2 ⟨_, hfront, after_singleton.trans (move_high hkind hvalue)⟩
      exact not_completable_of_range hnumber rfl (by omega)

/-- Behind the port, the semicolon is missing. -/
theorem readAll_error_first_offence_semicolon :
    let source := "module m (input a)\nendmodule"
    readAll source =
        .error (.syntactic ⟨2, 1⟩ (.expected (.kind (.mark .semicolon)) (.keyword .closing))) ∧
      ∃ before t after, tokens source.toList = .ok (before ++ t :: after) ∧
        ⟨2, 1⟩ = Position.ofOffset source.toList t.span.start ∧
        Completable before ∧ ¬Completable (before ++ [t]) := by
  intro source
  have hread : readAll source = .error
      (.syntactic ⟨2, 1⟩ (.expected (.kind (.mark .semicolon)) (.keyword .closing))) := by
    decide_cbv
  have hnumber : (tokens source.toList).map (fun ts => ts.all fun t => t.kind ≠ .number) =
      .ok true := by decide_cbv
  obtain ⟨before, t, after, htokens, hplace, ht, hcases⟩ := readAll_error_first_offence hread
  refine ⟨hread, before, t, after, htokens, hplace, ?_, ht⟩
  rcases hcases with ⟨hbefore, -⟩ | ⟨front, number, back, rfl, hkind, -⟩
  · exact hbefore
  · rw [htokens] at hnumber
    simp [Except.map, hkind] at hnumber

/-- A range with the greatest number of 32 bits is too wide, but the error is reported behind the
range. -/
theorem not_first_offence_of_wide_range :
    ¬∀ (source : String) (place : Position) (cause : SyntaxCause),
      readAll source = .error (.syntactic place cause) →
        ∃ before t after, tokens source.toList = .ok (before ++ t :: after) ∧
          place = .ofOffset source.toList t.span.start ∧
          Completable before ∧ ¬Completable (before ++ [t]) := by
  intro h
  let source := "module m (input [4294967295:0] a);"
  let placeOf (t : Token) : Position := .ofOffset source.toList t.span.start
  have hread : readAll source = .error (.syntactic ⟨1, 32⟩ .widthOutOfRange) := by decide +kernel
  have hdistinct : (tokens source.toList).map (fun ts => decide (ts.map placeOf).Nodup) =
      .ok true := by decide +kernel
  -- reading fails behind the range, and no other token is at the same place
  obtain ⟨front, u, back, next, htokens, hplace, hafter, hfails⟩ :=
    exists_of_readAll_eq_error hread
  obtain ⟨n, ks, hrange, hn⟩ := hfails.exists_range?
  obtain ⟨before, t, after, htokens', hplace', hbefore, -⟩ := h source _ _ hread
  have heq : before ++ t :: after = front ++ u :: back :=
    Except.ok.inj (htokens'.symm.trans htokens)
  rw [htokens'] at hdistinct
  have hnodup := of_decide_eq_true (Except.ok.inj hdistinct)
  obtain rfl : t = u := List.inj_on_of_nodup_map hnodup (by simp) (by simp [heq])
    (hplace'.symm.trans hplace)
  obtain ⟨hbefore', hafter'⟩ := not_or.1 <| List.mem_append.not.1
    (List.nodup_cons.1 (List.nodup_middle.1 (hnodup.of_map _))).1
  obtain ⟨rfl, -⟩ := (List.append_cons_inj_of_notMem hbefore' hafter').1 heq
  exact not_completable_of_range hafter hrange hn hbefore

end Netlist.Header
