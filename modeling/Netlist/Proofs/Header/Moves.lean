import Netlist.Proofs.Header.Joined

/-!
# Which tokens a stage takes

Whether headers are read from the tokens behind a stage is a question of the place at which the
stage stands and, in a range, of the number with which the range begins. What has been read before
does not matter, and neither does it where the tokens are. The number of a range is checked only
behind the range, so a stage in a range with a number that is too large takes more tokens than those
from which headers can be read.

## Main definitions

* `Netlist.Header.Stage.after`, `Netlist.Header.Stage.Accepts`: the stage behind some tokens, and
  whether headers are read from them.
* `Netlist.Header.Stage.bare`: a stage without what has been read.
* `Netlist.Header.Stage.range?`: the range in which a stage stands.

## Main results

* `Netlist.Header.Stage.bare_move`, `Netlist.Header.Stage.accepts_congr`: what does not matter.
* `Netlist.Header.Stage.range?_of_move`, `Netlist.Header.Stage.exists_of_range?`: where the range
  begins in which a stage stands.
* `Netlist.Header.Stage.lt_of_accepts`: what a range must begin with.
-/

namespace Netlist.Header

/-- What a token says, wherever it is. -/
def Token.word (t : Token) : TokenKind × String :=
  (t.kind, t.text)

namespace Stage

variable {stage stage' next : Stage} {t u : Token} {ts us : List Token} {hs : List Header}
  {draft : Draft} {port : PortDraft} {n : UInt32} {ks : List TokenKind}

/-! ### Moves -/

/-- The stage behind a token. -/
def move (stage : Stage) (t : Token) : Except SyntaxCause Stage :=
  (stage.step t).map Prod.snd

/-- The stage behind some tokens. -/
def after (stage : Stage) (ts : List Token) : Except SyntaxCause Stage :=
  ts.foldlM move stage

/-- Headers are read from the tokens behind a stage. -/
def Accepts (stage : Stage) (ts : List Token) : Prop :=
  ∃ hs, stage.Completes ts hs

theorem after_append : stage.after (ts ++ us) = stage.after ts >>= fun next => next.after us :=
  List.foldlM_append

theorem after_append_eq_ok_iff : stage.after (ts ++ us) = .ok next ↔
    ∃ mid, stage.after ts = .ok mid ∧ mid.after us = .ok next := by
  rw [after_append, bind_eq_ok_iff]

theorem after_singleton : stage.after [t] = stage.move t := by
  rw [after, List.foldlM_cons]
  cases stage.move t <;> rfl

theorem accepts_cons :
    stage.Accepts (t :: ts) ↔ ∃ next, stage.move t = .ok next ∧ next.Accepts ts := by
  constructor
  · rintro ⟨_, done, next, rest, hstep, h, rfl⟩
    exact ⟨next, map_eq_ok_iff.2 ⟨_, hstep, rfl⟩, rest, h⟩
  · rintro ⟨next, hmove, rest, h⟩
    obtain ⟨⟨done, _⟩, hstep, rfl⟩ := map_eq_ok_iff.1 hmove
    exact ⟨_, done, _, rest, hstep, h, rfl⟩

theorem accepts_append :
    stage.Accepts (ts ++ us) ↔ ∃ next, stage.after ts = .ok next ∧ next.Accepts us := by
  induction ts generalizing stage with
  | nil => exact ⟨fun h => ⟨stage, rfl, h⟩, fun ⟨_, hnext, h⟩ => by cases hnext; exact h⟩
  | cons t ts ih =>
    rw [List.cons_append, accepts_cons]
    simp only [ih, after, List.foldlM_cons, bind_eq_ok_iff]
    constructor
    · rintro ⟨mid, hmid, next, hnext, h⟩
      exact ⟨next, ⟨mid, hmid, hnext⟩, h⟩
    · rintro ⟨next, ⟨mid, hmid, hnext⟩, h⟩
      exact ⟨mid, hmid, next, hnext, h⟩

/-- No stage goes on behind the end of the text. -/
theorem kind_ne_of_move (h : stage.move t = .ok next) : t.kind ≠ .endOfFile := by
  intro hkind
  obtain ⟨⟨done, _⟩, hstep, rfl⟩ := map_eq_ok_iff.1 h
  obtain ⟨_, text, span⟩ := t
  cases hkind
  cases stage with
  | portName draft port n =>
    obtain ⟨_, -, hnext⟩ := bind_eq_ok_iff.1 hstep
    cases hnext
  | _ => cases hstep

theorem move_high (hkind : t.kind = .number) (hvalue : t.value = .ok n) :
    (high draft port).move t = .ok (colon draft port n) := by
  obtain ⟨_, text, span⟩ := t
  cases hkind
  change ((Token.value _).map _).map _ = _
  rw [hvalue]
  rfl

theorem move_low (hkind : t.kind = .number) (hvalue : t.value = .ok 0) :
    (low draft port n).move t = .ok (closeRange draft port n) := by
  obtain ⟨_, text, span⟩ := t
  cases hkind
  change (Token.value _ >>= _).map _ = _
  rw [hvalue]
  rfl

theorem move_portName (hkind : t.kind = .name) (hn : n.toNat + 1 < UInt32.size) :
    (portName draft port n).move t =
      .ok (portEnd (draft.declare port (.bits (n + 1)) t) port.direction) := by
  obtain ⟨_, text, span⟩ := t
  cases hkind
  change (rangeType n >>= _).map _ = _
  rw [rangeType_eq_ok_iff.2 ⟨hn, rfl⟩]
  rfl

/-! ### What has been read -/

/-- The stage at the same place in a header and in a range with the same number, but with nothing
else that has been read. -/
def bare : Stage → Stage :=
  let draft : Draft := ⟨⟨0, 0⟩, "", []⟩
  let port : PortDraft := ⟨⟨0, 0⟩, .input⟩
  fun
  | outside => outside
  | moduleName _ => moduleName ⟨0, 0⟩
  | openPorts .. => openPorts ⟨0, 0⟩ ""
  | firstPort _ => firstPort draft
  | nextPort .. => nextPort draft .input
  | net .. => net draft port
  | type .. => type draft port
  | word .. => word draft port ⟨.name, "", ⟨0, 0⟩⟩
  | high .. => high draft port
  | colon _ _ n => colon draft port n
  | low _ _ n => low draft port n
  | closeRange _ _ n => closeRange draft port n
  | portName _ _ n => portName draft port n
  | portEnd .. => portEnd draft .input
  | headerEnd _ => headerEnd draft
  | closed .. => closed draft ⟨0, 0⟩

/-- What a stage does with a token depends neither on what has been read nor on where the token
is. -/
theorem bare_move (h : t.word = u.word) :
    (stage.move t).map bare = (stage.bare.move u).map bare := by
  obtain ⟨k, text, span⟩ := t
  obtain ⟨k', text', span'⟩ := u
  obtain ⟨rfl, rfl⟩ := Prod.mk.inj h
  have hvalue : Token.value ⟨k, text, span⟩ = Token.value ⟨k, text, span'⟩ := rfl
  cases stage with
  | high =>
    cases k with
    | number =>
      change (((Token.value _).map _).map _).map _ = (((Token.value _).map _).map _).map _
      rw [hvalue]
      cases Token.value ⟨.number, text, span'⟩ <;> rfl
    | _ => rfl
  | low =>
    cases k with
    | number =>
      change ((Token.value _ >>= _).map _).map _ = ((Token.value _ >>= _).map _).map _
      rw [hvalue]
      cases Token.value ⟨.number, text, span'⟩ with
      | error => rfl
      | ok m =>
        rw [ok_bind, ok_bind]
        split_ifs <;> rfl
    | _ => rfl
  | portName draft port n =>
    change ((rangeType n >>= _).map _).map _ = ((rangeType n >>= _).map _).map _
    cases rangeType n with
    | error => rfl
    | ok type =>
      rw [ok_bind, ok_bind]
      split_ifs <;> rfl
  | _ =>
    rcases k with (_ | _ | _ | _) | _ | _ | (_ | _ | _ | _ | _ | _ | _) | _ <;> rfl

theorem bare_finish : (∃ hs, stage.finish = .ok hs) ↔ ∃ hs, stage.bare.finish = .ok hs := by
  cases stage with
  | closed => exact ⟨fun _ => ⟨_, rfl⟩, fun _ => ⟨_, rfl⟩⟩
  | _ => exact Iff.rfl

/-- Stages at the same place accept the same tokens, wherever these are. -/
theorem accepts_congr (hstage : stage.bare = stage'.bare)
    (hwords : ts.map Token.word = us.map Token.word) (h : stage.Accepts ts) :
    stage'.Accepts us := by
  induction ts generalizing stage stage' us with
  | nil =>
    obtain rfl := List.map_eq_nil_iff.1 hwords.symm
    exact bare_finish.2 (hstage ▸ bare_finish.1 h)
  | cons t ts ih =>
    obtain ⟨u, us, rfl, hu, hus⟩ := List.map_eq_cons_iff.1 hwords.symm
    obtain ⟨next, hmove, hnext⟩ := accepts_cons.1 h
    have hmove' : (stage'.move u).map bare = .ok next.bare := by
      rw [bare_move rfl, ← hstage, ← bare_move hu.symm, hmove]
      rfl
    obtain ⟨next', hmove', hbare⟩ := map_eq_ok_iff.1 hmove'
    exact accepts_cons.2 ⟨next', hmove', ih hbare.symm hus.symm hnext⟩

/-! ### Ranges -/

/-- The number of the range in which a stage stands or which has just been closed, with the kinds of
the tokens behind it. -/
def range? : Stage → Option (UInt32 × List TokenKind)
  | colon _ _ n => some (n, [])
  | low _ _ n => some (n, [.mark .colon])
  | closeRange _ _ n => some (n, [.mark .colon, .number])
  | portName _ _ n => some (n, [.mark .colon, .number, .mark .rightBracket])
  | _ => none

theorem prefix_of_range? (h : stage.range? = some (n, ks)) :
    ks <+: [.mark .colon, .number, .mark .rightBracket] := by
  cases stage <;> cases h <;> exact ⟨_, rfl⟩

/-- A range begins with its number, or it began before. -/
theorem range?_of_move (h : stage.move t = .ok next) (hrange : next.range? = some (n, ks)) :
    (∃ draft port, stage = high draft port ∧ t.kind = .number ∧ t.value = .ok n ∧ ks = []) ∨
      ∃ ks', stage.range? = some (n, ks') ∧ ks = ks' ++ [t.kind] := by
  obtain ⟨⟨done, _⟩, hstep, rfl⟩ := map_eq_ok_iff.1 h
  obtain ⟨k, text, span⟩ := t
  cases stage with
  | high draft port =>
    cases k with
    | number =>
      obtain ⟨m, hm, hnext⟩ := map_eq_ok_iff.1 hstep
      cases hnext
      cases hrange
      exact .inl ⟨draft, port, rfl, rfl, hm, rfl⟩
    | _ => cases hstep
  | low draft port m =>
    cases k with
    | number =>
      obtain ⟨z, -, hnext⟩ := bind_eq_ok_iff.1 hstep
      split_ifs at hnext
      cases hnext
      cases hrange
      exact .inr ⟨_, rfl, rfl⟩
    | _ => cases hstep
  | portName draft port m =>
    obtain ⟨type, -, hnext⟩ := bind_eq_ok_iff.1 hstep
    split_ifs at hnext
    cases hnext
    cases hrange
  | _ =>
    rcases k with (_ | _ | _ | _) | _ | _ | (_ | _ | _ | _ | _ | _ | _) | _ <;> cases hstep <;>
      first | cases hrange; done | (cases hrange; exact .inr ⟨_, rfl, rfl⟩)

/-- The range in which a stage stands began with a number. -/
theorem exists_of_range? (hnone : stage.range? = none) (h : stage.after ts = .ok next)
    (hrange : next.range? = some (n, ks)) : ∃ front number back draft port,
      ts = front ++ number :: back ∧ stage.after front = .ok (high draft port) ∧
      number.kind = .number ∧ number.value = .ok n ∧ back.map Token.kind = ks := by
  induction ts using List.reverseRecOn generalizing next ks with
  | nil =>
    cases h
    cases hnone.symm.trans hrange
  | append_singleton ts t ih =>
    obtain ⟨mid, hmid, hmove⟩ := after_append_eq_ok_iff.1 h
    rw [after_singleton] at hmove
    rcases range?_of_move hmove hrange with ⟨draft, port, rfl, hkind, hvalue, rfl⟩ | ⟨ks, hks, rfl⟩
    · exact ⟨ts, t, [], draft, port, rfl, hmid, hkind, hvalue, rfl⟩
    · obtain ⟨front, number, back, draft, port, rfl, hfront, hkind, hvalue, rfl⟩ := ih hmid hks
      exact ⟨front, number, back ++ [t], draft, port, by simp, hfront, hkind, hvalue, by simp⟩

/-- Headers are read behind the number of a range only if the width of the range fits in 32
bits. -/
theorem lt_of_accepts (hrange : stage.range? = some (n, ks)) (h : stage.Accepts ts) :
    n.toNat + 1 < UInt32.size := by
  obtain ⟨hs, h⟩ := h
  have hname {draft port ts} (h : (portName draft port n).Completes ts hs) :
      n.toNat + 1 < UInt32.size := by
    obtain ⟨_, _, _, _, hn, _⟩ := completes_portName.1 h
    exact hn
  have hclose {draft port ts} (h : (closeRange draft port n).Completes ts hs) :
      n.toNat + 1 < UInt32.size := by
    obtain ⟨_, _, _, _, h⟩ := completes_closeRange.1 h
    exact hname h
  have hlow {draft port ts} (h : (low draft port n).Completes ts hs) :
      n.toNat + 1 < UInt32.size := by
    obtain ⟨_, _, _, _, _, h⟩ := completes_low.1 h
    exact hclose h
  cases stage <;> cases hrange
  · obtain ⟨_, _, _, _, h⟩ := completes_colon.1 h
    exact hlow h
  · exact hlow h
  · exact hclose h
  · exact hname h

end Stage

end Netlist.Header
