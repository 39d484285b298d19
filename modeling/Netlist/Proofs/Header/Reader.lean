import Mathlib
import Netlist.Proofs.Header.Numerals

/-!
# The reader follows the grammar

The reader looks at each token once. At each of its stages, what can be read from there on is what
the rest of the rule says that the stage stands in. So from its first stage it reads exactly the
tokens that the grammar derives, and what it makes of them is what they declare.

## Main definitions

* `Netlist.Header.Stage.Completes`: what is read from a stage on.
* `Netlist.Header.Begins`: what is read where a port begins.

## Main results

* `Netlist.Header.completes_type`, `Netlist.Header.begins_iff_port`,
  `Netlist.Header.begins_iff_ports`, `Netlist.Header.completes_header`: the rules one by one.
* `Netlist.Header.completes_outside_iff`, `Netlist.Header.readTokens_eq_ok_iff`: the reader reads
  files.
* `Netlist.Header.readAll_follows_grammar`: what is read from texts and from any tokens.
-/

namespace Netlist.Header

variable {stage : Stage} {t w : Token} {ts : List Token} {hs : List Header} {draft : Draft}
  {port : PortDraft} {start last : Span} {name : String} {d : Direction} {n : UInt32}

namespace Stage

/-- The tokens behind a stage, none of which is for the end of the text, give some headers. -/
def Completes : Stage → List Token → List Header → Prop
  | stage, [], hs => stage.finish = .ok hs
  | stage, t :: ts, hs => ∃ done next rest,
      stage.step t = .ok (done, next) ∧ next.Completes ts rest ∧ hs = done ++ rest

theorem completes_nil : stage.Completes [] hs ↔ stage.finish = .ok hs :=
  Iff.rfl

theorem completes_cons : stage.Completes (t :: ts) hs ↔ ∃ done next rest,
    stage.step t = .ok (done, next) ∧ next.Completes ts rest ∧ hs = done ++ rest :=
  Iff.rfl

end Stage

open Stage

/-- Reading ends at the end of the text, or where the tokens end. -/
theorem readFrom_eq_ok_iff : readFrom stage last ts = .ok hs ↔
    stage.Completes (ts.takeWhile fun t => t.kind ≠ .endOfFile) hs := by
  induction ts generalizing stage last hs with
  | nil => exact mapError_eq_ok_iff
  | cons t ts ih =>
    rw [readFrom]
    by_cases hend : t.kind = .endOfFile
    · rw [if_pos hend, List.takeWhile_cons_of_neg (by simpa using hend)]
      exact mapError_eq_ok_iff
    · rw [if_neg hend, List.takeWhile_cons_of_pos (by simpa using hend), completes_cons]
      cases hstep : stage.step t with
      | error e => simp
      | ok r =>
        obtain ⟨done, next⟩ := r
        simp only [map_eq_ok_iff, ih, Except.ok.injEq, Prod.mk.injEq]
        constructor
        · rintro ⟨rest, hrest, rfl⟩
          exact ⟨done, next, rest, ⟨rfl, rfl⟩, hrest, rfl⟩
        · rintro ⟨_, _, rest, ⟨rfl, rfl⟩, hrest, rfl⟩
          exact ⟨rest, hrest, rfl⟩

/-! ### One token -/

theorem completes_of_step {next : Stage} (h : stage.step t = .ok ([], next)) :
    stage.Completes (t :: ts) hs ↔ next.Completes ts hs := by
  rw [completes_cons, h]
  constructor
  · rintro ⟨_, _, rest, heq, hrest, rfl⟩
    cases heq
    exact hrest
  · exact fun hrest => ⟨_, _, hs, rfl, hrest, rfl⟩

theorem not_completes_of_step {e : SyntaxCause} (h : stage.step t = .error e) :
    ¬stage.Completes (t :: ts) hs := by
  rintro ⟨_, _, _, heq, -⟩
  cases h.symm.trans heq

/-- A stage that only takes certain tokens reads on behind one of them. -/
theorem completes_of_takes {s : Stage} {P : Token → Stage → Prop}
    (hfinish : ∃ e, s.finish = .error e)
    (htake : ∀ t next, P t next → s.step t = .ok ([], next))
    (hreject : ∀ t, (¬∃ next, P t next) → ∃ e, s.step t = .error e) :
    s.Completes ts hs ↔ ∃ t rest next, ts = t :: rest ∧ P t next ∧ next.Completes rest hs := by
  cases ts with
  | nil =>
    obtain ⟨e, he⟩ := hfinish
    simp [completes_nil, he]
  | cons t ts =>
    by_cases ht : ∃ next, P t next
    · obtain ⟨next, ht⟩ := ht
      rw [completes_of_step (htake t next ht)]
      constructor
      · exact fun h => ⟨t, ts, next, rfl, ht, h⟩
      · rintro ⟨_, _, next', heq, ht', h⟩
        cases heq
        cases (htake t next ht).symm.trans (htake t next' ht')
        exact h
    · obtain ⟨e, he⟩ := hreject t ht
      refine iff_of_false (not_completes_of_step he) ?_
      rintro ⟨_, _, next, heq, ht', -⟩
      cases heq
      exact ht ⟨next, ht'⟩

/-- A stage may take a token that another stage rejects, and else read on like that one. -/
theorem completes_of_optional {s r : Stage} {P : Token → Stage → Prop}
    (hfinish : s.finish = r.finish)
    (htake : ∀ t next, P t next → s.step t = .ok ([], next) ∧ ∃ e, r.step t = .error e)
    (hpass : ∀ t, ts.head? = some t → (¬∃ next, P t next) → s.step t = r.step t) :
    s.Completes ts hs ↔
      (∃ t rest next, ts = t :: rest ∧ P t next ∧ next.Completes rest hs) ∨
        r.Completes ts hs := by
  cases ts with
  | nil => simp [completes_nil, hfinish]
  | cons t ts =>
    by_cases ht : ∃ next, P t next
    · obtain ⟨next, ht⟩ := ht
      obtain ⟨hstep, e, he⟩ := htake t next ht
      rw [completes_of_step hstep, or_iff_left (not_completes_of_step he)]
      constructor
      · exact fun h => ⟨t, ts, next, rfl, ht, h⟩
      · rintro ⟨_, _, next', heq, ht', h⟩
        cases heq
        cases hstep.symm.trans (htake t next' ht').1
        exact h
    · rw [completes_cons, completes_cons, hpass t rfl ht, or_iff_right]
      rintro ⟨_, _, next, heq, ht', -⟩
      cases heq
      exact ht ⟨next, ht'⟩

/-- The stages that need a token of one kind, whatever has been read before. -/
def Stage.Rigid : Stage → Prop
  | moduleName .. | openPorts .. | high .. | colon .. | low .. | closeRange .. | portName ..
  | headerEnd .. => True
  | _ => False

/-- A stage that needs a token of one kind is content with nothing else. -/
theorem Stage.Rigid.rejects (h : stage.Rigid) : (∃ e, stage.finish = .error e) ∧
    ∀ t : Token, .kind t.kind ≠ stage.expectation → ∃ e, stage.step t = .error e := by
  have hrange {α : Type} (n : UInt32) (e : SyntaxCause) :
      ∃ e', (rangeType n >>= fun _ => (.error e : Except SyntaxCause α)) = .error e' := by
    cases rangeType n <;> exact ⟨_, rfl⟩
  refine ⟨?_, fun ⟨k, text, span⟩ hk => ?_⟩
  · cases stage <;> first | exact h.elim | exact ⟨_, rfl⟩ | exact hrange _ _
  · cases stage <;> first
      | exact h.elim
      | rcases k with (_ | _ | _ | _) | _ | _ | (_ | _ | _ | _ | _ | _ | _) | _ <;>
          first | exact absurd rfl hk | exact ⟨_, rfl⟩ | exact hrange _ _

/-- A stage that needs a token of one kind reads on from what it makes of it. -/
theorem Stage.Rigid.completes_iff {s : Stage} {k : TokenKind} {f : Token → Except SyntaxCause Stage}
    (h : s.Rigid) (hk : s.expectation = .kind k)
    (hstep : ∀ t : Token, t.kind = k → s.step t = (f t).map ([], ·)) :
    s.Completes ts hs ↔ ∃ t rest next,
      ts = t :: rest ∧ t.kind = k ∧ f t = .ok next ∧ next.Completes rest hs := by
  refine (completes_of_takes (P := fun t next => t.kind = k ∧ f t = .ok next) h.rejects.1
    (fun t next ⟨ht, hf⟩ => (hstep t ht).trans (by rw [hf]; rfl)) fun t ht => ?_).trans (by
      simp only [and_assoc])
  by_cases hkind : t.kind = k
  · cases hf : f t with
    | error e => exact ⟨e, (hstep t hkind).trans (by rw [hf]; rfl)⟩
    | ok next => exact absurd ⟨next, hkind, hf⟩ ht
  · exact h.rejects.2 t (hk ▸ fun heq => hkind (Expectation.kind.inj heq))

/-- Such a stage that has nothing to check in the token only moves on. -/
theorem Stage.Rigid.completes_iff_of_ok {s : Stage} {k : TokenKind} {g : Token → Stage}
    (h : s.Rigid) (hk : s.expectation = .kind k)
    (hstep : ∀ t : Token, t.kind = k → s.step t = .ok ([], g t)) :
    s.Completes ts hs ↔ ∃ t rest, ts = t :: rest ∧ t.kind = k ∧ (g t).Completes rest hs := by
  rw [h.completes_iff (f := fun t => .ok (g t)) hk hstep]
  simp

theorem completes_moduleName : (moduleName start).Completes ts hs ↔ ∃ t rest, ts = t :: rest ∧
    t.kind = .name ∧ (openPorts start t.text).Completes rest hs :=
  Rigid.completes_iff_of_ok trivial rfl fun ⟨_, _, _⟩ hk => by cases hk; rfl

theorem completes_openPorts : (openPorts start name).Completes ts hs ↔ ∃ t rest, ts = t :: rest ∧
    t.kind = .mark .leftParen ∧ (firstPort ⟨start, name, []⟩).Completes rest hs :=
  Rigid.completes_iff_of_ok trivial rfl fun ⟨_, _, _⟩ hk => by cases hk; rfl

theorem completes_headerEnd : (headerEnd draft).Completes ts hs ↔ ∃ t rest, ts = t :: rest ∧
    t.kind = .mark .semicolon ∧ (closed draft t.span).Completes rest hs :=
  Rigid.completes_iff_of_ok trivial rfl fun ⟨_, _, _⟩ hk => by cases hk; rfl

/-! ### Types -/

theorem rangeType_eq_ok_iff {type : PortType} :
    rangeType n = .ok type ↔ n.toNat + 1 < UInt32.size ∧ type = .bits (n + 1) := by
  unfold rangeType
  split_ifs with h <;> simp [h, eq_comm]

theorem completes_portName : (portName draft port n).Completes ts hs ↔ ∃ t rest, ts = t :: rest ∧
    t.kind = .name ∧ n.toNat + 1 < UInt32.size ∧
      (portEnd (draft.declare port (.bits (n + 1)) t) port.direction).Completes rest hs := by
  rw [Rigid.completes_iff (s := portName draft port n) (k := .name) (f := fun t => (rangeType n).map
    fun type => portEnd (draft.declare port type t) port.direction) trivial rfl fun t ht => ?_]
  · simp only [map_eq_ok_iff, rangeType_eq_ok_iff]
    constructor
    · rintro ⟨t, rest, _, hts, ht, ⟨_, ⟨hn, rfl⟩, rfl⟩, hrest⟩
      exact ⟨t, rest, hts, ht, hn, hrest⟩
    · rintro ⟨t, rest, hts, ht, hn, hrest⟩
      exact ⟨t, rest, _, hts, ht, ⟨_, ⟨hn, rfl⟩, rfl⟩, hrest⟩
  · obtain ⟨_, _, _⟩ := t
    cases ht
    change (rangeType n >>= fun _ => _) = _
    cases rangeType n <;> rfl

theorem completes_closeRange : (closeRange draft port n).Completes ts hs ↔ ∃ t rest,
    ts = t :: rest ∧ t.kind = .mark .rightBracket ∧ (portName draft port n).Completes rest hs :=
  Rigid.completes_iff_of_ok trivial rfl fun ⟨_, _, _⟩ hk => by cases hk; rfl

theorem completes_low : (low draft port n).Completes ts hs ↔ ∃ t rest, ts = t :: rest ∧
    t.kind = .number ∧ t.value = .ok 0 ∧ (closeRange draft port n).Completes rest hs := by
  rw [Rigid.completes_iff (s := low draft port n) (k := .number) (f := fun t => do
    let m ← t.value
    if m = 0 then .ok (closeRange draft port n) else .error (.rangeEndNotZero m)) trivial rfl
    fun t ht => ?_]
  · simp only [bind_eq_ok_iff]
    constructor
    · rintro ⟨t, rest, _, hts, ht, ⟨m, hm, hnext⟩, hrest⟩
      split_ifs at hnext with hzero
      cases hnext
      exact ⟨t, rest, hts, ht, hzero ▸ hm, hrest⟩
    · rintro ⟨t, rest, hts, ht, hm, hrest⟩
      exact ⟨t, rest, _, hts, ht, ⟨0, hm, rfl⟩, hrest⟩
  · obtain ⟨_, text, span⟩ := t
    cases ht
    change (Token.value ⟨.number, text, span⟩ >>= fun _ => _) = _
    cases Token.value ⟨.number, text, span⟩ with
    | error e => rfl
    | ok m =>
      rw [ok_bind, ok_bind]
      split_ifs <;> rfl

theorem completes_colon : (colon draft port n).Completes ts hs ↔ ∃ t rest, ts = t :: rest ∧
    t.kind = .mark .colon ∧ (low draft port n).Completes rest hs :=
  Rigid.completes_iff_of_ok trivial rfl fun ⟨_, _, _⟩ hk => by cases hk; rfl

theorem completes_high : (high draft port).Completes ts hs ↔ ∃ t rest n, ts = t :: rest ∧
    t.kind = .number ∧ t.value = .ok n ∧ (colon draft port n).Completes rest hs := by
  rw [Rigid.completes_iff (s := high draft port) (k := .number)
    (f := fun t => t.value.map (colon draft port)) trivial rfl fun t ht => ?_]
  · simp only [map_eq_ok_iff]
    constructor
    · rintro ⟨t, rest, _, hts, ht, ⟨n, hn, rfl⟩, hrest⟩
      exact ⟨t, rest, n, hts, ht, hn, hrest⟩
    · rintro ⟨t, rest, n, hts, ht, hn, hrest⟩
      exact ⟨t, rest, _, hts, ht, ⟨n, hn, rfl⟩, hrest⟩
  · obtain ⟨_, text, span⟩ := t
    cases ht
    change (Token.value ⟨.number, text, span⟩).map _ = _
    cases Token.value ⟨.number, text, span⟩ <;> rfl

/-- A name behind a name is that of the port, and the name before it is that of its type. -/
theorem completes_word : (word draft port w).Completes ts hs ↔
    (∃ t rest, ts = t :: rest ∧ t.kind = .name ∧
      (portEnd (draft.declare port (.named w.text) t) port.direction).Completes rest hs) ∨
    (portEnd (draft.declare port (.bits 1) w) port.direction).Completes ts hs := by
  rw [completes_of_optional (P := fun t next => t.kind = .name ∧
    next = portEnd (draft.declare port (.named w.text) t) port.direction)
    (s := word draft port w) (r := portEnd (draft.declare port (.bits 1) w) port.direction) rfl]
  · simp
  · rintro ⟨k, _, _⟩ _ ⟨hk, rfl⟩
    cases hk
    exact ⟨rfl, _, rfl⟩
  · rintro ⟨k, _, _⟩ - hk
    rcases k with _ | _ | _ | _ | _ <;> first | exact absurd ⟨_, rfl, rfl⟩ hk | rfl

theorem completes_type_step : (type draft port).Completes ts hs ↔ ∃ t rest, ts = t :: rest ∧
    (t.kind = .mark .leftBracket ∧ (high draft port).Completes rest hs ∨
      t.kind = .name ∧ (word draft port t).Completes rest hs) := by
  rw [completes_of_takes (s := type draft port) (P := fun t next =>
    t.kind = .mark .leftBracket ∧ next = high draft port ∨
      t.kind = .name ∧ next = word draft port t) ⟨_, rfl⟩]
  · simp [or_and_right, exists_or, and_assoc]
  · rintro ⟨k, _, _⟩ _ (⟨hk, rfl⟩ | ⟨hk, rfl⟩) <;> cases hk <;> rfl
  · rintro ⟨k, _, _⟩ hk
    rcases k with _ | _ | _ | (_ | _ | _ | _ | _ | _ | _) | _ <;>
      first
      | exact ⟨_, rfl⟩
      | exact absurd ⟨_, .inl ⟨rfl, rfl⟩⟩ hk
      | exact absurd ⟨_, .inr ⟨rfl, rfl⟩⟩ hk

theorem ofNat_toNat_succ (n : UInt32) : UInt32.ofNat (n.toNat + 1) = n + 1 := by
  apply UInt32.toNat_inj.1
  rw [UInt32.toNat_add, UInt32.toNat_ofNat']
  rfl

/-- Behind a net keyword, a type and a name are read. -/
theorem completes_type (hts : Spelled ts) : (type draft port).Completes ts hs ↔
    ∃ tys name rest ty, ts = tys ++ name :: rest ∧ IsType tys ty ∧ name.kind = .name ∧
      (portEnd (draft.declare port ty name) port.direction).Completes rest hs := by
  constructor
  · intro h
    obtain ⟨left, ts, rfl, ⟨hleft, h⟩ | ⟨hname, h⟩⟩ := completes_type_step.1 h
    · obtain ⟨high, ts, n, rfl, hhigh, hn, h⟩ := completes_high.1 h
      obtain ⟨colon, ts, rfl, hcolon, h⟩ := completes_colon.1 h
      obtain ⟨low, ts, rfl, hlow, hzero, h⟩ := completes_low.1 h
      obtain ⟨right, ts, rfl, hright, h⟩ := completes_closeRange.1 h
      obtain ⟨name, rest, rfl, hname, hfit, h⟩ := completes_portName.1 h
      obtain ⟨m, hm⟩ := hts high (by simp) hhigh
      obtain ⟨z, hz⟩ := hts low (by simp) hlow
      obtain rfl := (value_eq_ok_iff hm).1 hn
      obtain rfl := (value_eq_ok_iff hz).1 hzero
      refine ⟨[left, high, colon, low, right], name, rest, _, rfl,
        .range hleft hhigh hm hcolon hlow hz hright hfit, hname, ?_⟩
      rwa [ofNat_toNat_succ]
    · rcases completes_word.1 h with ⟨name, rest, rfl, hname', h⟩ | h
      · exact ⟨[left], name, rest, _, rfl, .named hname, hname', h⟩
      · exact ⟨[], left, ts, _, rfl, .none, hname, h⟩
  · rintro ⟨tys, name, rest, ty, rfl, hty, hname, h⟩
    cases hty with
    | @range left high colon low right m hleft hhigh hm hcolon hlow hz hright hfit =>
      have hvalue : (UInt32.ofNat m).toNat = m := UInt32.toNat_ofNat_of_lt (by omega)
      refine completes_type_step.2 ⟨left, _, rfl, .inl ⟨hleft, completes_high.2 ⟨high, _,
        UInt32.ofNat m, rfl, hhigh, (value_eq_ok_iff hm).2 hvalue, completes_colon.2 ⟨colon, _, rfl,
        hcolon, completes_low.2 ⟨low, _, rfl, hlow, (value_eq_ok_iff hz).2 rfl,
        completes_closeRange.2 ⟨right, _, rfl, hright,
        completes_portName.2 ⟨name, rest, rfl, hname, ?_, ?_⟩⟩⟩⟩⟩⟩⟩
      · rwa [hvalue]
      · rwa [← ofNat_toNat_succ, hvalue]
    | @named t ht =>
      exact completes_type_step.2
        ⟨t, _, rfl, .inr ⟨ht, completes_word.2 (.inl ⟨name, rest, rfl, hname, h⟩)⟩⟩
    | none =>
      exact completes_type_step.2 ⟨name, rest, rfl, .inr ⟨hname, completes_word.2 (.inr h)⟩⟩

/-! ### Ports -/

/-- Behind a direction, a net keyword may come before a type and a name. -/
theorem completes_net : (net draft port).Completes ts hs ↔
    ∃ ns rest, ts = ns ++ rest ∧ IsNet ns ∧ (type draft port).Completes rest hs := by
  rw [completes_of_optional (P := fun t next => (∃ n, t.kind = .keyword (.net n)) ∧
    next = type draft port) (s := net draft port) (r := type draft port) rfl]
  · constructor
    · rintro (⟨t, rest, _, rfl, ⟨⟨n, hn⟩, rfl⟩, h⟩ | h)
      · exact ⟨[t], rest, rfl, .given hn, h⟩
      · exact ⟨[], ts, rfl, .none, h⟩
    · rintro ⟨_, rest, rfl, hns, h⟩
      cases hns with
      | given hn => exact .inl ⟨_, rest, _, rfl, ⟨⟨_, hn⟩, rfl⟩, h⟩
      | none => exact .inr h
  · rintro ⟨k, _, _⟩ _ ⟨⟨n, hn⟩, rfl⟩
    cases hn
    exact ⟨rfl, _, rfl⟩
  · rintro ⟨k, _, _⟩ - hk
    rcases k with (_ | _ | _ | _) | _ | _ | _ | _ <;>
      first | exact absurd ⟨_, ⟨_, rfl⟩, rfl⟩ hk | rfl

/-- What is read where a port begins: a direction, unless it is inherited, and the rest of the
port. -/
def Begins (inherited : Option Direction) (draft : Draft) (ts : List Token) (hs : List Header) :
    Prop :=
  ∃ t ds d rest, ts.head? = some t ∧ ts = ds ++ rest ∧ IsDirection inherited ds d ∧
    (net draft ⟨t.span, d⟩).Completes rest hs

/-- Add finished ports. -/
def Draft.extend (draft : Draft) (ps : List Port) : Draft :=
  { draft with ports := draft.ports ++ ps }

theorem Draft.extend_extend (draft : Draft) (ps qs : List Port) :
    (draft.extend ps).extend qs = draft.extend (ps ++ qs) := by
  simp only [Draft.extend, List.append_assoc]

theorem head?_concat_append (us : List Token) (u : Token) (rest : List Token) :
    (us ++ [u] ++ rest).head? = (us ++ [u]).head? := by
  cases us <;> rfl

theorem covering_concat {us : List Token} {u : Token} (h : (us ++ [u]).head? = some t) :
    covering (us ++ [u]) = t.span.merge u.span := by
  rw [covering, h, List.getLast?_concat]

/-- Behind a comma, the direction may be inherited. -/
theorem completes_nextPort :
    (nextPort draft d).Completes ts hs ↔ Begins (some d) draft ts hs := by
  cases ts with
  | nil =>
    constructor
    · exact fun h => nomatch h
    · rintro ⟨t, ds, d, rest, ht, -⟩
      cases ht
  | cons t ts =>
    rw [completes_of_optional (P := fun t next => ∃ d, t.kind = .keyword (.direction d) ∧
      next = net draft ⟨t.span, d⟩) (s := nextPort draft d) (r := net draft ⟨t.span, d⟩) rfl]
    · constructor
      · rintro (⟨_, rest, _, heq, ⟨d, hd, rfl⟩, h⟩ | h)
        · cases heq
          exact ⟨t, [t], d, ts, rfl, rfl, .given hd, h⟩
        · exact ⟨t, [], d, t :: ts, rfl, rfl, .inherited rfl, h⟩
      · rintro ⟨_, ds, d', rest, hhead, heq, hd, h⟩
        cases hhead
        cases hd with
        | given hd =>
          cases heq
          exact .inl ⟨t, rest, _, rfl, ⟨d', hd, rfl⟩, h⟩
        | inherited hd =>
          cases heq
          cases hd
          exact .inr h
    · rintro ⟨k, _, _⟩ _ ⟨d, hd, rfl⟩
      cases hd
      exact ⟨rfl, _, rfl⟩
    · rintro _ hhead hk
      cases hhead
      obtain ⟨k, _, _⟩ := t
      rcases k with (_ | _ | _ | _) | _ | _ | _ | _ <;>
        first | exact absurd ⟨_, _, rfl, rfl⟩ hk | rfl

theorem completes_firstPort : (firstPort draft).Completes ts hs ↔
    (∃ t rest, ts = t :: rest ∧ t.kind = .mark .rightParen ∧
      (headerEnd draft).Completes rest hs) ∨ Begins none draft ts hs := by
  rw [completes_of_takes (s := firstPort draft) (P := fun t next =>
    t.kind = .mark .rightParen ∧ next = headerEnd draft ∨
      ∃ d, t.kind = .keyword (.direction d) ∧ next = net draft ⟨t.span, d⟩) ⟨_, rfl⟩]
  · constructor
    · rintro ⟨t, rest, _, rfl, ⟨hright, rfl⟩ | ⟨d, hd, rfl⟩, h⟩
      · exact .inl ⟨t, rest, rfl, hright, h⟩
      · exact .inr ⟨t, [t], d, rest, rfl, rfl, .given hd, h⟩
    · rintro (⟨t, rest, rfl, hright, h⟩ | ⟨t, ds, d, rest, hhead, rfl, hd, h⟩)
      · exact ⟨t, rest, _, rfl, .inl ⟨hright, rfl⟩, h⟩
      · cases hd with
        | given hd =>
          cases hhead
          exact ⟨t, rest, _, rfl, .inr ⟨d, hd, rfl⟩, h⟩
        | inherited hd => cases hd
  · rintro ⟨k, _, _⟩ _ (⟨hk, rfl⟩ | ⟨d, hk, rfl⟩) <;> cases hk <;> rfl
  · rintro ⟨k, _, _⟩ hk
    rcases k with (_ | _ | _ | _) | _ | _ | (_ | _ | _ | _ | _ | _ | _) | _ <;>
      first
      | exact ⟨_, rfl⟩
      | exact absurd ⟨_, .inl ⟨rfl, rfl⟩⟩ hk
      | exact absurd ⟨_, .inr ⟨_, rfl, rfl⟩⟩ hk

/-- Where a port begins, a port is read. -/
theorem begins_iff_port {inherited : Option Direction} (hts : Spelled ts) :
    Begins inherited draft ts hs ↔ ∃ us p rest, ts = us ++ rest ∧ IsPort inherited us p ∧
      (portEnd (draft.extend [p]) p.direction).Completes rest hs := by
  constructor
  · rintro ⟨t, ds, d, rest, hhead, rfl, hd, h⟩
    obtain ⟨ns, rest, rfl, hns, h⟩ := completes_net.1 h
    obtain ⟨-, hts⟩ := spelled_append.1 (spelled_append.1 hts).2
    obtain ⟨tys, name, rest, ty, rfl, hty, hname, h⟩ := (completes_type hts).1 h
    have heq : ds ++ (ns ++ (tys ++ name :: rest)) = ds ++ ns ++ tys ++ [name] ++ rest := by simp
    rw [heq, head?_concat_append] at hhead
    refine ⟨_, _, rest, heq, .mk hd hns hty hname, ?_⟩
    rw [covering_concat hhead]
    exact h
  · rintro ⟨us, p, rest, rfl, hp, h⟩
    cases hp with
    | @mk ds ns tys name d ty hd hns hty hname =>
      obtain ⟨t, hhead⟩ : ∃ t, (ds ++ ns ++ tys ++ [name]).head? = some t :=
        Option.isSome_iff_exists.1 (by simp)
      have heq : ds ++ ns ++ tys ++ [name] ++ rest = ds ++ (ns ++ (tys ++ name :: rest)) := by simp
      refine ⟨t, ds, d, _, ?_, heq, hd, completes_net.2 ⟨ns, _, rfl, hns, ?_⟩⟩
      · rw [head?_concat_append]
        exact hhead
      · refine (completes_type ?_).2 ⟨tys, name, rest, ty, rfl, hty, hname, ?_⟩
        · rw [heq] at hts
          exact (spelled_append.1 (spelled_append.1 hts).2).2
        · rw [covering_concat hhead] at h
          exact h

theorem completes_portEnd : (portEnd draft d).Completes ts hs ↔
    (∃ t rest, ts = t :: rest ∧ t.kind = .mark .comma ∧ Begins (some d) draft rest hs) ∨
      ∃ t rest, ts = t :: rest ∧ t.kind = .mark .rightParen ∧
        (headerEnd draft).Completes rest hs := by
  rw [completes_of_takes (s := portEnd draft d) (P := fun t next =>
    t.kind = .mark .comma ∧ next = nextPort draft d ∨
      t.kind = .mark .rightParen ∧ next = headerEnd draft) ⟨_, rfl⟩]
  · simp [or_and_right, and_or_left, exists_or, completes_nextPort]
  · rintro ⟨k, _, _⟩ _ (⟨hk, rfl⟩ | ⟨hk, rfl⟩) <;> cases hk <;> rfl
  · rintro ⟨k, _, _⟩ hk
    rcases k with _ | _ | _ | (_ | _ | _ | _ | _ | _ | _) | _ <;>
      first
      | exact ⟨_, rfl⟩
      | exact absurd ⟨_, .inl ⟨rfl, rfl⟩⟩ hk
      | exact absurd ⟨_, .inr ⟨rfl, rfl⟩⟩ hk

/-- Where a port begins, ports are read up to the closing parenthesis. -/
theorem begins_iff_ports {inherited : Option Direction} (hts : Spelled ts) :
    Begins inherited draft ts hs ↔ ∃ us ps right rest, ts = us ++ right :: rest ∧
      IsPorts inherited us ps ∧ right.kind = .mark .rightParen ∧
      (headerEnd (draft.extend ps)).Completes rest hs := by
  constructor
  · intro h
    -- a comma leads to tokens where a port begins again, of which there are fewer
    induction hlength : ts.length using Nat.strongRecOn generalizing ts draft inherited with
    | ind _ ih
    obtain ⟨us, p, ts, rfl, hp, h⟩ := (begins_iff_port hts).1 h
    rcases completes_portEnd.1 h with ⟨comma, ts, rfl, hcomma, h⟩ | ⟨right, rest, rfl, hright, h⟩
    · obtain ⟨-, hts⟩ := spelled_cons.1 (spelled_append.1 hts).2
      obtain ⟨vs, ps, right, rest, rfl, hps, hright, h⟩ := ih ts.length (by
        simp only [← hlength, List.length_append, List.length_cons]; omega) hts h rfl
      refine ⟨us ++ comma :: vs, p :: ps, right, rest, by simp, .cons hp hcomma hps, hright, ?_⟩
      rwa [Draft.extend_extend] at h
    · exact ⟨us, [p], right, rest, rfl, .last hp, hright, h⟩
  · rintro ⟨us, ps, right, rest, rfl, hps, hright, h⟩
    induction hps generalizing draft with
    | @last inherited us p hp =>
      exact (begins_iff_port hts).2 ⟨us, p, _, rfl, hp,
        completes_portEnd.2 (.inr ⟨right, rest, rfl, hright, h⟩)⟩
    | @cons inherited us vs comma p ps hp hcomma _ ih =>
      rw [List.append_assoc, List.cons_append] at hts ⊢
      obtain ⟨-, hvs⟩ := spelled_cons.1 (spelled_append.1 hts).2
      have h : (headerEnd ((draft.extend [p]).extend ps)).Completes rest hs := by
        rwa [Draft.extend_extend]
      exact (begins_iff_port hts).2 ⟨us, p, _, rfl, hp,
        completes_portEnd.2 (.inl ⟨comma, _, rfl, hcomma, ih hvs h⟩)⟩

/-! ### Headers -/

theorem completes_outside : outside.Completes ts hs ↔ ts = [] ∧ hs = [] ∨
    ∃ t rest, ts = t :: rest ∧ t.kind = .keyword .opening ∧
      (moduleName t.span).Completes rest hs := by
  cases ts with
  | nil =>
    rw [completes_nil, finish, Except.ok.injEq, eq_comm]
    simp
  | cons t ts =>
    by_cases ht : t.kind = .keyword .opening
    · have hstep : outside.step t = .ok ([], moduleName t.span) := by
        obtain ⟨_, _, _⟩ := t
        cases ht
        rfl
      simp [completes_of_step hstep, ht]
    · have hstep : ∃ e, outside.step t = .error e := by
        obtain ⟨k, _, _⟩ := t
        rcases k with (_ | _ | _ | _) | _ | _ | _ | _ <;>
          first | exact absurd rfl ht | exact ⟨_, rfl⟩
      obtain ⟨e, he⟩ := hstep
      simp [not_completes_of_step he, ht]

/-- Behind a header, its last word may come. -/
theorem completes_closed : (closed draft last).Completes ts hs ↔ ∃ cs rest hs', ts = cs ++ rest ∧
    IsClosing cs ∧ hs = draft.close ((cs.map Token.span).getLastD last) :: hs' ∧
      outside.Completes rest hs' := by
  constructor
  · intro h
    cases ts with
    | nil =>
      cases h
      exact ⟨[], [], [], rfl, .none, rfl, rfl⟩
    | cons t ts =>
      obtain ⟨done, next, rest, hstep, h, rfl⟩ := h
      obtain ⟨k, text, span⟩ := t
      rcases k with (_ | _ | _ | _) | _ | _ | _ | _ <;> cases hstep
      · exact ⟨[], _, rest, rfl, .none, rfl, completes_outside.2 (.inr ⟨_, _, rfl, rfl, h⟩)⟩
      · exact ⟨[_], ts, rest, rfl, .given rfl, rfl, h⟩
  · rintro ⟨cs, rest, hs', rfl, hcs, rfl, h⟩
    cases hcs with
    | @given t ht =>
      obtain ⟨_, _, _⟩ := t
      cases ht
      exact ⟨_, outside, hs', rfl, h, rfl⟩
    | none =>
      rcases completes_outside.1 h with ⟨rfl, rfl⟩ | ⟨t, rest, rfl, ht, h⟩
      · rfl
      · obtain ⟨_, _, _⟩ := t
        cases ht
        exact ⟨_, _, hs', rfl, h, rfl⟩

/-- Behind the opening parenthesis, a list of ports is read up to the closing parenthesis. -/
theorem completes_ports (hts : Spelled ts) : (firstPort draft).Completes ts hs ↔
    ∃ us ps right rest, ts = us ++ right :: rest ∧ IsPortList us ps ∧
      right.kind = .mark .rightParen ∧ (headerEnd (draft.extend ps)).Completes rest hs := by
  have hempty : draft.extend [] = draft := by rw [Draft.extend, List.append_nil]
  rw [completes_firstPort, begins_iff_ports hts]
  constructor
  · rintro (⟨right, rest, rfl, hright, h⟩ | ⟨us, ps, right, rest, rfl, hps, hright, h⟩)
    · exact ⟨[], [], right, rest, rfl, .empty, hright, hempty.symm ▸ h⟩
    · exact ⟨us, ps, right, rest, rfl, .ports hps, hright, h⟩
  · rintro ⟨us, ps, right, rest, rfl, hps, hright, h⟩
    cases hps with
    | empty => exact .inl ⟨right, rest, rfl, hright, hempty ▸ h⟩
    | ports hps => exact .inr ⟨us, ps, right, rest, rfl, hps, hright, h⟩

/-- A header covers all from its first word to its semicolon, or to its last word. -/
theorem covering_header {opening left right semicolon nameToken : Token} {us cs : List Token}
    (hcs : IsClosing cs) :
    covering (opening :: nameToken :: left :: us ++ right :: semicolon :: cs) =
      opening.span.merge ((cs.map Token.span).getLastD semicolon.span) := by
  cases hcs with
  | @given u =>
    have heq : opening :: nameToken :: left :: us ++ [right, semicolon, u] =
        opening :: nameToken :: left :: us ++ [right, semicolon] ++ [u] := by simp
    rw [heq, covering_concat (t := opening) rfl]
    rfl
  | none =>
    have heq : opening :: nameToken :: left :: us ++ [right, semicolon] =
        opening :: nameToken :: left :: us ++ [right] ++ [semicolon] := by simp
    rw [heq, covering_concat (t := opening) rfl]
    rfl

/-- Outside of headers, a header is read, or the tokens end. -/
theorem completes_header (hts : Spelled ts) : outside.Completes ts hs ↔ ts = [] ∧ hs = [] ∨
    ∃ us rest h hs', ts = us ++ rest ∧ IsHeader us h ∧ hs = h :: hs' ∧
      outside.Completes rest hs' := by
  rw [completes_outside]
  refine or_congr_right ⟨?_, ?_⟩
  · rintro ⟨opening, ts, rfl, hopening, h⟩
    obtain ⟨name, ts, rfl, hname, h⟩ := completes_moduleName.1 h
    obtain ⟨left, ts, rfl, hleft, h⟩ := completes_openPorts.1 h
    have hts : Spelled ts := (spelled_cons.1 (spelled_cons.1 (spelled_cons.1 hts).2).2).2
    obtain ⟨us, ps, right, ts, rfl, hps, hright, h⟩ := (completes_ports hts).1 h
    obtain ⟨semicolon, ts, rfl, hsemicolon, h⟩ := completes_headerEnd.1 h
    obtain ⟨cs, rest, hs', rfl, hcs, rfl, hrest⟩ := completes_closed.1 h
    have hheader := IsHeader.mk hopening hname hleft hps hright hsemicolon hcs
    rw [covering_header hcs] at hheader
    exact ⟨_, rest, _, hs', by simp, hheader, rfl, hrest⟩
  · rintro ⟨us, rest, _, hs', rfl, hheader, rfl, hrest⟩
    cases hheader with
    | @mk opening name left right semicolon vs cs ps hopening hname hleft hps hright hsemi hcs =>
      have heq : opening :: name :: left :: vs ++ right :: semicolon :: cs ++ rest =
          opening :: name :: left :: (vs ++ right :: semicolon :: (cs ++ rest)) := by simp
      rw [heq] at hts ⊢
      have hts := (spelled_cons.1 (spelled_cons.1 (spelled_cons.1 hts).2).2).2
      rw [covering_header hcs]
      exact ⟨opening, _, rfl, hopening, completes_moduleName.2 ⟨name, _, rfl, hname,
        completes_openPorts.2 ⟨left, _, rfl, hleft, (completes_ports hts).2
        ⟨vs, ps, right, _, rfl, hps, hright, completes_headerEnd.2 ⟨semicolon, _, rfl, hsemi,
        completes_closed.2 ⟨cs, rest, hs', rfl, hcs, rfl, hrest⟩⟩⟩⟩⟩⟩

/-- From its first stage, the reader reads files. -/
theorem completes_outside_iff (hts : Spelled ts) : outside.Completes ts hs ↔ IsFile ts hs := by
  constructor
  · intro h
    -- a header leads to fewer tokens outside of headers
    induction hlength : ts.length using Nat.strongRecOn generalizing ts hs with
    | ind _ ih
    rcases (completes_header hts).1 h with ⟨rfl, rfl⟩ | ⟨us, rest, h, hs, rfl, hheader, rfl, hrest⟩
    · exact .nil
    · have hpos : 0 < us.length := by
        cases hheader
        simp
      refine .cons hheader (ih rest.length ?_ (spelled_append.1 hts).2 hrest rfl)
      rw [← hlength, List.length_append]
      omega
  · intro h
    induction h with
    | nil => exact completes_outside.2 (.inl ⟨rfl, rfl⟩)
    | cons hheader _ ih =>
      exact (completes_header hts).2
        (.inr ⟨_, _, _, _, rfl, hheader, rfl, ih (spelled_append.1 hts).2⟩)

/-! ### Whole texts -/

/-- If the number tokens are spelled as numbers, headers are read from the tokens in front of the
end of the text exactly if the tokens declare them. -/
theorem readTokens_eq_ok_iff (hts : Spelled ts) :
    readTokens ts = .ok hs ↔ IsFile (ts.takeWhile fun t => t.kind ≠ .endOfFile) hs := by
  have hspelled : Spelled (ts.takeWhile fun t => t.kind ≠ .endOfFile) :=
    fun t ht => hts t (List.takeWhile_subset _ ht)
  rw [readTokens, readFrom_eq_ok_iff, completes_outside_iff hspelled]

/-- Where reading fails, it fails at one of the tokens; at the last one, if it fails behind it. -/
theorem span_of_readFrom {e : SyntaxError} (h : readFrom stage last (t :: ts) = .error e) :
    ∃ u ∈ t :: ts, e.span = u.span := by
  induction ts generalizing stage last t with
  | nil =>
    refine ⟨t, List.mem_cons_self, ?_⟩
    rw [readFrom] at h
    split_ifs at h
    · obtain ⟨cause, -, rfl⟩ := mapError_eq_error_iff.1 h
      rfl
    · split at h
      · cases h
        rfl
      · obtain ⟨cause, -, rfl⟩ := mapError_eq_error_iff.1 (map_eq_error_iff.1 h)
        rfl
  | cons t' ts ih =>
    rw [readFrom] at h
    split_ifs at h
    · obtain ⟨cause, -, rfl⟩ := mapError_eq_error_iff.1 h
      exact ⟨t, List.mem_cons_self, rfl⟩
    · split at h
      · cases h
        exact ⟨t, List.mem_cons_self, rfl⟩
      · obtain ⟨u, hu, hspan⟩ := ih (map_eq_error_iff.1 h)
        exact ⟨u, List.mem_cons_of_mem _ hu, hspan⟩

/-- A text that falls into tokens is read exactly as the grammar says: headers are read from it if
and only if its tokens declare them. The same holds of any tokens whose numbers are spelled as
numbers, of which those up to the end of the text count, if there is one among them. And from
whatever tokens, either headers are read, or reading fails at one of them. -/
theorem readAll_follows_grammar :
    (∀ source, (∃ body stop, tokensOf source = .ok (body ++ [stop]) ∧ stop.kind = .endOfFile ∧
        ∀ hs, readAll source = .ok hs ↔ IsFile body hs) ∨
      ∃ e, tokensOf source = .error e ∧ readAll source = .error e) ∧
    (∀ ts, Spelled ts → ∀ hs,
      readTokens ts = .ok hs ↔ IsFile (ts.takeWhile fun t => t.kind ≠ .endOfFile) hs) ∧
    ∀ ts, (∃ hs, readTokens ts = .ok hs) ∨
      ∃ t ∈ ts, ∃ cause, readTokens ts = .error ⟨t.span, cause⟩ := by
  refine ⟨fun source => ?_, fun ts hts hs => readTokens_eq_ok_iff hts, fun ts => ?_⟩
  · cases htokens : tokensOf source with
    | error e => exact .inr ⟨e, rfl, by rw [readAll, htokens]; rfl⟩
    | ok ts =>
      obtain ⟨body, stop, rfl, hstop, hbody, hspelled⟩ :=
        spelled_of_tokens (mapError_eq_ok_iff.1 htokens)
      refine .inl ⟨body, stop, rfl, hstop, fun hs => ?_⟩
      have hts : Spelled (body ++ [stop]) :=
        spelled_append.2 ⟨hspelled, List.forall_mem_singleton.2 fun hnumber => by
          cases hstop.symm.trans hnumber⟩
      have htake : (body ++ [stop]).takeWhile (fun t => t.kind ≠ .endOfFile) = body := by
        rw [List.takeWhile_append_of_pos fun t ht => by simpa using hbody t ht,
          List.takeWhile_cons_of_neg (by simp [hstop]), List.append_nil]
      rw [readAll, htokens, ok_bind, readTokensOf, mapError_eq_ok_iff, readTokens_eq_ok_iff hts,
        htake]
  · cases h : readTokens ts with
    | ok hs => exact .inl ⟨hs, rfl⟩
    | error e =>
      refine .inr ?_
      cases ts with
      | nil => cases h
      | cons t ts =>
        obtain ⟨u, hu, hspan⟩ := span_of_readFrom h
        exact ⟨u, hu, e.cause, by rw [← hspan]⟩

/-- The second port of this header inherits the direction of the first one, but not its range. -/
theorem readAll_follows_grammar_range : ∃ body stop,
    tokensOf "module m (input [3:0] a, b);" = .ok (body ++ [stop]) ∧
      IsFile body [⟨"m", [⟨.input, .bits 4, "a", ⟨10, 23⟩⟩, ⟨.input, .bits 1, "b", ⟨25, 26⟩⟩],
        ⟨0, 28⟩⟩] := by
  rcases readAll_follows_grammar.1 "module m (input [3:0] a, b);" with
    ⟨body, stop, hbody, -, hiff⟩ | ⟨e, -, he⟩
  · exact ⟨body, stop, hbody, (hiff _).1 (by decide_cbv)⟩
  · exact absurd he (by decide_cbv)

end Netlist.Header
