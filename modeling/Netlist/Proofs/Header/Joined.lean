import Netlist.Proofs.Header.Interfaces

/-!
# Texts behind others

A line feed ends every lexeme in front of it but white space, and white space says nothing. So if a
text stands behind another one and a line feed, the tokens of both are those that each of them has
alone, and so are the headers and the interfaces.

## Main results

* `Netlist.Header.IsCut.append_line`, `Netlist.Header.IsLexed.append_line`: lexemes in front of a
  line feed.
* `Netlist.Header.tokens_append_line`, `Netlist.Header.readAll_append_line`: tokens and headers.
* `Netlist.Header.readInterfaces_append_line`: the interfaces of two texts.
-/

namespace Netlist.Header

variable {c : Char} {a b text rest blanks : List Char} {l : Lexeme} {ls ms : List Lexeme}
  {ts us front : List Token} {stop : Token} {hs hs' : List Header} {header : Header}
  {i : Interface} {is js : List Interface} {f : Nat → Nat}

/-! ### Lexemes -/

/-- Where white space begins, all of it is cut off. -/
theorem IsCut.exists_run (h : IsCut (c :: text) l rest) (hc : isBlank c = true) :
    ∃ run, text = run ++ rest ∧ (∀ d ∈ run, isBlank d = true) ∧ Stops isBlank rest ∧
      l = ⟨none, c :: run⟩ := by
  have hfirst := first_eq_ok_iff.2 h
  unfold Lexeme.first at hfirst
  rw [if_pos hc, Except.ok.injEq] at hfirst
  exact cutRun_eq_iff.1 hfirst

/-- White space in front of a text moves its tokens, and does nothing else to them. -/
theorem IsLexed.blanks_append (h : IsLexed text ls) (hne : blanks ≠ [])
    (hblanks : ∀ d ∈ blanks, isBlank d = true) : ∃ ms, IsLexed (blanks ++ text) ms ∧
      ∀ offset, tokensOfLexemes offset ms = tokensOfLexemes (offset + byteLength blanks) ls := by
  obtain ⟨c, blanks, rfl⟩ := List.exists_cons_of_ne_nil hne
  obtain ⟨hc, hrun⟩ := List.forall_mem_cons.1 hblanks
  by_cases hstops : Stops isBlank text
  · have hcut : IsCut ([c] ++ (blanks ++ text)) ⟨none, [c] ++ blanks⟩ text :=
      .run (.blank hc) hrun hstops
    exact ⟨_, .cons hcut h, fun offset => tokensOfLexemes_of_none rfl⟩
  · -- the text begins with white space, which the white space in front of it is joined to
    obtain ⟨d, hhead, hd⟩ : ∃ d, text.head? = some d ∧ isBlank d = true := by
      simpa [Stops] using hstops
    obtain ⟨text, rfl⟩ := List.head?_eq_some_iff.1 hhead
    cases h with
    | @cons _ rest l ls hcut h =>
      obtain ⟨run, rfl, hall, hstops, rfl⟩ := hcut.exists_run hd
      have hjoined : ∀ x ∈ blanks ++ d :: run, isBlank x = true :=
        List.forall_mem_append.2 ⟨hrun, List.forall_mem_cons.2 ⟨hd, hall⟩⟩
      have hcut : IsCut ([c] ++ ((blanks ++ d :: run) ++ rest)) ⟨none, [c] ++ (blanks ++ d :: run)⟩
          rest := .run (.blank hc) hjoined hstops
      refine ⟨_ :: ls, .cons (by simpa using hcut) h, fun offset => ?_⟩
      rw [tokensOfLexemes_of_none rfl, tokensOfLexemes_of_none rfl, Nat.add_assoc,
        ← byteLength_append]
      rfl

/-- A lexeme is cut off in the same way if a line feed comes behind the text, unless it is white
space up to the end of the text. -/
theorem IsCut.append_line (h : IsCut text l rest) :
    (rest = [] ∧ l.kind = none ∧ ∀ d ∈ l.text, isBlank d = true) ∨
      ∀ more, IsCut (text ++ '\n' :: more) l (rest ++ '\n' :: more) := by
  cases h with
  | @run _ begin run rest part hrun hall hstops =>
    by_cases hend : rest = [] ∧ part '\n' = true
    · obtain ⟨rfl, hline⟩ := hend
      refine .inl ⟨rfl, ?_⟩
      cases hrun with
      | blank hc => exact ⟨rfl, List.forall_mem_cons.2 ⟨hc, hall⟩⟩
      | word => exact absurd hline (by decide)
      | number => exact absurd hline (by decide)
      | line => exact absurd hline (by decide)
    · refine .inr fun more => ?_
      have hstops : Stops part (rest ++ '\n' :: more) := by
        cases rest with
        | nil =>
          rintro d hd
          cases hd
          simpa using hend
        | cons d rest => exact hstops
      rw [List.append_assoc, List.append_assoc]
      exact .run hrun hall hstops
  | mark m => exact .inr fun more => .mark m
  | @block inner rest hinner =>
    refine .inr fun more => ?_
    have h : IsCut ('/' :: '*' :: (inner ++ '*' :: '/' :: (rest ++ '\n' :: more))) _ _ :=
      .block hinner
    simpa using h

theorem IsLexed.eq_nil (h : IsLexed [] ls) : ls = [] := by
  cases h with
  | nil => rfl
  | cons hcut => exact absurd (List.append_eq_nil_iff.1 hcut.append).1 hcut.text_ne_nil

/-- The tokens of two texts with a line feed between them are those of the first one, up to its end,
and those of the second one. -/
theorem IsLexed.append_line (ha : IsLexed a ls) (hb : IsLexed b ms) :
    ∃ ns, IsLexed (a ++ '\n' :: b) ns ∧ ∀ offset, ∃ front stop,
      tokensOfLexemes offset ls = front ++ [stop] ∧
        tokensOfLexemes offset ns =
          front ++ tokensOfLexemes (offset + byteLength (a ++ ['\n'])) ms := by
  have hblank : isBlank '\n' = true := rfl
  induction ha with
  | nil =>
    obtain ⟨ns, hns, htokens⟩ :=
      hb.blanks_append (List.cons_ne_nil '\n' []) (List.forall_mem_singleton.2 hblank)
    exact ⟨ns, hns, fun offset => ⟨[], _, rfl, htokens offset⟩⟩
  | @cons a rest l ls hcut hrest ih =>
    rcases hcut.append_line with ⟨rfl, hkind, hblanks⟩ | hline
    · obtain rfl := hrest.eq_nil
      have hne : l.text ++ ['\n'] ≠ [] := by simp
      obtain ⟨ns, hns, htokens⟩ := hb.blanks_append hne
        (List.forall_mem_append.2 ⟨hblanks, List.forall_mem_singleton.2 hblank⟩)
      have ha : l.text = a := by rw [← hcut.append, List.append_nil]
      rw [ha, List.append_assoc, List.singleton_append] at hns
      rw [ha] at htokens
      exact ⟨ns, hns, fun offset => ⟨[], _, tokensOfLexemes_of_none hkind, htokens offset⟩⟩
    · obtain ⟨ns, hns, htokens⟩ := ih
      refine ⟨l :: ns, .cons (hline b) hns, fun offset => ?_⟩
      obtain ⟨front, stop, hls, hns⟩ := htokens (offset + byteLength l.text)
      have hlength : offset + byteLength l.text + byteLength (rest ++ ['\n']) =
          offset + byteLength (a ++ ['\n']) := by
        rw [← hcut.append, Nat.add_assoc, ← byteLength_append, List.append_assoc]
      rw [hlength] at hns
      cases hkind : l.kind with
      | none =>
        rw [tokensOfLexemes_of_none hkind, tokensOfLexemes_of_none hkind]
        exact ⟨front, stop, hls, hns⟩
      | some kind =>
        rw [tokensOfLexemes_of_some hkind, tokensOfLexemes_of_some hkind, hls, hns]
        exact ⟨_ :: front, stop, rfl, rfl⟩

/-- The tokens of two texts with a line feed between them are those of both, but for the end of the
first one, and those of the second one are moved. -/
theorem tokens_append_line (ha : tokens a = .ok (front ++ [stop])) (hb : tokens b = .ok us) :
    tokens (a ++ '\n' :: b) =
      .ok (front ++ us.map (Token.relocate (byteLength (a ++ ['\n']) + ·))) := by
  obtain ⟨ls, hls, hfront⟩ := map_eq_ok_iff.1 ha
  obtain ⟨ms, hms, rfl⟩ := map_eq_ok_iff.1 hb
  obtain ⟨ns, hns, htokens⟩ :=
    (lexemes_eq_ok_iff.1 hls).append_line (lexemes_eq_ok_iff.1 hms)
  obtain ⟨front', stop', hfront', hjoined⟩ := htokens 0
  obtain ⟨rfl, -⟩ := List.append_singleton_inj.1 (hfront'.symm.trans hfront)
  rw [Nat.zero_add, ← Nat.add_zero (byteLength (a ++ ['\n'])), tokensOfLexemes_add] at hjoined
  exact map_eq_ok_iff.2 ⟨ns, lexemes_eq_ok_iff.2 hns, hjoined⟩

/-! ### Headers -/

theorem IsFile.append (h : IsFile ts hs) (h' : IsFile us hs') : IsFile (ts ++ us) (hs ++ hs') := by
  induction h with
  | nil => exact h'
  | cons hheader _ ih =>
    rw [List.append_assoc]
    exact .cons hheader ih

/-- Moved tokens declare the same headers at other places. -/
theorem IsFile.relocate (hf : Monotone f) (h : IsFile ts hs) :
    IsFile (ts.map (Token.relocate f)) (hs.map (Header.relocate f)) := by
  induction h with
  | nil => exact .nil
  | cons hheader _ ih =>
    rw [List.map_append]
    exact .cons (hheader.relocate hf) ih

/-- The headers of two texts with a line feed between them are those of the one and, moved, those of
the other. -/
theorem readAll_append_line {a b : String} (ha : readAll a = .ok hs) (hb : readAll b = .ok hs') :
    readAll (a ++ "\n" ++ b) = .ok
      (hs ++ hs'.map (Header.relocate (byteLength (a.toList ++ ['\n']) + ·))) := by
  obtain ⟨front, stop, hfront, hfile⟩ := readAll_eq_ok_iff.1 ha
  obtain ⟨body, stop', hbody, hfile'⟩ := readAll_eq_ok_iff.1 hb
  have htokens := tokens_append_line hfront hbody
  have htext : (a ++ "\n" ++ b).toList = a.toList ++ '\n' :: b.toList := by simp
  rw [← htext, List.map_append, ← List.append_assoc] at htokens
  have hmono : Monotone (byteLength (a.toList ++ ['\n']) + ·) :=
    fun _ _ h => Nat.add_le_add_left h _
  exact readAll_eq_ok_iff.2 ⟨_, _, htokens, hfile.append (hfile'.relocate hmono)⟩

/-! ### Interfaces -/

/-- Where a header stands does not matter for the interface that it declares. -/
theorem Gives.relocate (h : header.Gives i) (f : Nat → Nat) : (header.relocate f).Gives i := by
  obtain ⟨hname, hdistinct, hentries⟩ := h
  have hports (d : Direction) :
      (header.relocate f).portsWith d = (header.portsWith d).map (Port.relocate f) :=
    List.filter_map
  refine ⟨hname, ?_, fun d => ?_⟩
  · rw [Header.relocate, List.map_map]
    exact hdistinct
  · rw [hentries, hports, List.map_map]
    rfl

/-- If interfaces are read from two texts, then they are read from the two as one text with a line
feed between them, in the same order. -/
theorem readInterfaces_append_line {a b : String} (ha : readInterfaces a = .ok is)
    (hb : readInterfaces b = .ok js) : readInterfaces (a ++ "\n" ++ b) = .ok (is ++ js) := by
  obtain ⟨hs, hread, hgives⟩ := readInterfaces_eq_ok_iff.1 ha
  obtain ⟨hs', hread', hgives'⟩ := readInterfaces_eq_ok_iff.1 hb
  refine readInterfaces_eq_ok_iff.2 ⟨_, readAll_append_line hread hread', ?_⟩
  exact List.rel_append hgives
    (List.forall₂_map_left_iff.2 (hgives'.imp fun header i h => h.relocate _))

/-- The first text ends with a comment and without a closing word, and the second one begins with
white space. -/
theorem readInterfaces_append_line_comment :
    let a := "module a(input x); // the first"
    let b := "  module b(output y);\nendmodule\n"
    let is : List Interface := [⟨"a", .ofList [("x", .bits 1)], .empty⟩]
    let js : List Interface := [⟨"b", .empty, .ofList [("y", .bits 1)]⟩]
    readInterfaces a = .ok is ∧ readInterfaces b = .ok js ∧
      readInterfaces (a ++ "\n" ++ b) = .ok (is ++ js) := by
  intro a b is js
  have ha : readInterfaces a = .ok is := by decide_cbv
  have hb : readInterfaces b = .ok js := by decide_cbv
  exact ⟨ha, hb, readInterfaces_append_line ha hb⟩

end Netlist.Header
