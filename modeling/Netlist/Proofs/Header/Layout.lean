import Netlist.Header.Layout
import Netlist.Proofs.Header.Lexemes

/-!
# Tokens fill the text

The lexemes of a text that are no tokens form the gaps between those that are. So the tokens of a
text lie in it one behind the other, and the span of each of them covers its spelling.

## Main results

* `Netlist.Header.isGap_append_of_isCut`, `Netlist.Header.spells_of_isCut`: lexemes are parts of
  gaps, or tokens.
* `Netlist.Header.isLayout_of_tokens`: the tokens of a text lie in it.
* `Netlist.Header.IsLayout.exists_append`, `Netlist.Header.IsLayout.pairwise`,
  `Netlist.Header.IsLayout.exists_eq_concat`: the spans of tokens.
* `Netlist.Header.tokens_of_isIdentifier`: an identifier is a single token.
-/

namespace Netlist.Header

variable {text rest gap : List Char} {l : Lexeme} {ls : List Lexeme} {offset : Nat} {t : Token}
  {ts : List Token} {kind : TokenKind}

/-! ### Lexemes -/

/-- Keywords are told apart by their spelling. -/
theorem ofText?_eq_some_iff {s : String} {k : Keyword} :
    Keyword.ofText? s = some k ↔ s = k.text := by
  constructor
  · intro h
    simpa [eq_comm] using List.find?_some h
  · rintro rfl
    rcases k with _ | _ | ⟨_ | _⟩ | ⟨_ | _ | _⟩ <;> rfl

/-- A lexeme that is no token can be put in front of a gap. -/
theorem isGap_append_of_isCut (h : IsCut text l (gap ++ rest)) (hkind : l.kind = none)
    (hgap : IsGap rest gap) : IsGap rest (l.text ++ gap) := by
  generalize hbehind : gap ++ rest = behind at h
  cases h with
  | @run _ _ run _ _ hrun hall hstops =>
    cases hrun with
    | @blank c hc =>
      have hall : ∀ d ∈ c :: run, isBlank d = true := List.forall_mem_cons.2 ⟨hc, hall⟩
      change IsGap rest (c :: run ++ gap)
      generalize c :: run = blanks at hall
      induction blanks with
      | nil => exact hgap
      | cons d blanks ih =>
        obtain ⟨hd, hblanks⟩ := List.forall_mem_cons.1 hall
        exact .blank hd (ih hblanks)
    | word => cases hkind
    | number => cases hkind
    | line =>
      refine .line (fun hmem => ?_) (fun c hc => ?_) hgap
      · exact absurd (hall _ hmem) (by decide)
      · simpa using hstops c (hbehind ▸ hc)
  | mark => cases hkind
  | block hinner =>
    have h := IsGap.block hinner hgap
    simpa using h

/-- The text of a lexeme that is a token is one that its kind stands for. -/
theorem spells_of_isCut (h : IsCut text l rest) (hkind : l.kind = some kind) :
    kind.Spells (String.ofList l.text) := by
  cases h with
  | @run _ _ run _ _ hrun hall _ =>
    cases hrun with
    | blank => cases hkind
    | @word c hc =>
      obtain rfl := Option.some.inj hkind
      unfold wordKind
      split
      · rename_i k hk
        exact ofText?_eq_some_iff.1 hk
      · rename_i hnone
        refine ⟨?_, fun k hk => ?_⟩
        · rw [isIdentifier, String.toList_ofList]
          exact Bool.and_eq_true_iff.2 ⟨hc, List.all_eq_true.2 hall⟩
        · cases hnone.symm.trans (ofText?_eq_some_iff.2 hk)
    | @number c hc =>
      obtain rfl := Option.some.inj hkind
      refine ⟨c, run, String.toList_ofList, hc, fun d hd => ?_⟩
      simpa [isNumberPart] using hall d hd
    | line => cases hkind
  | mark m =>
    obtain rfl := Option.some.inj hkind
    exact String.toList_ofList
  | block => cases hkind

/-! ### Layouts -/

/-- If each gap at the beginning of a text goes on from some characters, tokens lie in the text with
these characters in front of it as well. -/
theorem IsLayout.skip {front : List Char}
    (hfront : ∀ gap behind, text = gap ++ behind → IsGap behind gap → IsGap behind (front ++ gap))
    (h : IsLayout (offset + byteLength front) text ts) : IsLayout offset (front ++ text) ts := by
  cases h with
  | stop hgap =>
    rw [Nat.add_assoc, ← byteLength_append]
    exact .stop (hfront text [] (List.append_nil text).symm hgap)
  | @token _ gap rest t ts hgap hspells hne hspan hrest =>
    rw [← List.append_assoc]
    refine .token (hfront gap _ rfl hgap) hspells hne ?_ hrest
    rw [byteLength_append, ← Nat.add_assoc, hspan]

/-- The tokens among the lexemes of a text lie in it. -/
theorem IsLexed.isLayout (h : IsLexed text ls) (offset : Nat) :
    IsLayout offset text (tokensOfLexemes offset ls) := by
  induction h generalizing offset with
  | nil => exact .stop .nil
  | @cons text rest l ls hcut _ ih =>
    have hrest := ih (offset + byteLength l.text)
    rw [← hcut.append]
    cases hkind : l.kind with
    | none =>
      rw [tokensOfLexemes_of_none hkind]
      refine .skip (fun gap behind hgap hbehind => ?_) hrest
      exact isGap_append_of_isCut (hgap ▸ hcut) hkind hbehind
    | some kind =>
      rw [tokensOfLexemes_of_some hkind]
      have htext : (String.ofList l.text).toList = l.text := String.toList_ofList
      have hne : String.ofList l.text ≠ "" := by
        intro hempty
        exact hcut.text_ne_nil (htext.symm.trans (congrArg String.toList hempty))
      have h := @IsLayout.token offset [] rest
        ⟨kind, String.ofList l.text, ⟨offset, offset + byteLength l.text⟩⟩ _
        .nil (spells_of_isCut hcut hkind) hne (by rw [htext]; rfl) hrest
      rwa [List.nil_append, htext] at h

/-- The tokens of a text lie in it. -/
theorem isLayout_of_tokens (h : tokens text = .ok ts) : IsLayout 0 text ts := by
  obtain ⟨ls, hls, rfl⟩ := map_eq_ok_iff.1 h
  exact (lexemes_eq_ok_iff.1 hls).isLayout 0

/-! ### Spans -/

/-- Each token covers its text. -/
theorem IsLayout.exists_append {front : List Char} (h : IsLayout (byteLength front) text ts)
    (ht : t ∈ ts) : ∃ a c, front ++ text = a ++ (t.text.toList ++ c) ∧
      t.span = ⟨byteLength a, byteLength a + byteLength t.text.toList⟩ := by
  generalize hoffset : byteLength front = offset at h
  induction h generalizing front with
  | @stop _ gap =>
    obtain rfl := List.mem_singleton.1 ht
    refine ⟨front ++ gap, [], (List.append_nil _).symm, ?_⟩
    rw [byteLength_append, hoffset]
    rfl
  | @token offset gap rest u ts _ _ _ hspan _ ih =>
    have hfront : byteLength (front ++ gap) = offset + byteLength gap := by
      rw [byteLength_append, hoffset]
    rcases List.mem_cons.1 ht with rfl | ht
    · exact ⟨front ++ gap, rest, (List.append_assoc ..).symm, by rw [hfront, hspan]⟩
    · obtain ⟨a, c, hac, ha⟩ :=
        @ih (front ++ gap ++ u.text.toList) ht (by rw [byteLength_append, hfront, hspan])
      exact ⟨a, c, by rw [← hac, List.append_assoc, List.append_assoc], ha⟩

/-- The span of a token is that of its text. -/
theorem slice?_of_tokens (h : tokens text = .ok ts) (ht : t ∈ ts) :
    t.span.slice? text = some t.text.toList := by
  obtain ⟨a, c, hac, ha⟩ := @IsLayout.exists_append _ _ _ [] (isLayout_of_tokens h) ht
  rw [List.nil_append] at hac
  rw [ha, hac, Span.slice?_of_append]

/-- Tokens lie behind the place where their text begins. -/
theorem IsLayout.le_start (h : IsLayout offset text ts) (ht : t ∈ ts) :
    offset ≤ t.span.start ∧ t.span.start ≤ t.span.stop := by
  induction h with
  | stop =>
    obtain rfl := List.mem_singleton.1 ht
    exact ⟨Nat.le_add_right _ _, Nat.le_refl _⟩
  | @token offset _ _ u _ _ _ _ hspan _ ih =>
    have hu : offset ≤ u.span.start ∧ u.span.start ≤ u.span.stop := by
      rw [hspan]
      exact ⟨Nat.le_add_right _ _, Nat.le_add_right _ _⟩
    rcases List.mem_cons.1 ht with rfl | ht
    · exact hu
    · exact ⟨hu.1.trans (hu.2.trans (ih ht).1), (ih ht).2⟩

/-- Each token begins where those in front of it have ended. -/
theorem IsLayout.pairwise (h : IsLayout offset text ts) :
    ts.Pairwise fun t u => t.span.stop ≤ u.span.start := by
  induction h with
  | stop => exact List.pairwise_singleton _ _
  | token _ _ _ _ hrest ih => exact List.pairwise_cons.2 ⟨fun _ hu => (hrest.le_start hu).1, ih⟩

/-- Each token is spelled as its kind demands. -/
theorem IsLayout.spells (h : IsLayout offset text ts) (ht : t ∈ ts) : t.kind.Spells t.text := by
  induction h with
  | stop =>
    obtain rfl := List.mem_singleton.1 ht
    rfl
  | token _ hspells _ _ _ ih =>
    rcases List.mem_cons.1 ht with rfl | ht
    · exact hspells
    · exact ih ht

/-- The last token stands for the end of the text. None of the others does, and these are not
empty. -/
theorem IsLayout.exists_eq_concat (h : IsLayout offset text ts) : ∃ body, ts = body ++
      [⟨.endOfFile, "", ⟨offset + byteLength text, offset + byteLength text⟩⟩] ∧
    ∀ t ∈ body, t.kind ≠ .endOfFile ∧ t.span.start < t.span.stop := by
  induction h with
  | stop => exact ⟨[], rfl, nofun⟩
  | @token offset gap rest t ts _ hspells hne hspan _ ih =>
    obtain ⟨body, hbody, hall⟩ := ih
    have hstop : t.span.stop + byteLength rest =
        offset + byteLength (gap ++ (t.text.toList ++ rest)) := by
      rw [hspan, byteLength_append, byteLength_append, Nat.add_assoc, Nat.add_assoc]
    have hpos : 0 < byteLength t.text.toList :=
      byteLength_pos fun hnil => hne (String.toList_eq_nil_iff.1 hnil)
    refine ⟨t :: body, by rw [hbody, hstop]; rfl,
      List.forall_mem_cons.2 ⟨⟨fun hkind => ?_, ?_⟩, hall⟩⟩
    · rw [hkind] at hspells
      exact hne hspells
    · rw [hspan]
      exact Nat.lt_add_of_pos_right hpos

/-! ### Identifiers -/

/-- An identifier that is no keyword is a single token. -/
theorem tokens_of_isIdentifier {s : String} (hs : isIdentifier s = true)
    (hk : ∀ k : Keyword, s ≠ k.text) : tokens s.toList =
      .ok [⟨.name, s, ⟨0, byteLength s.toList⟩⟩,
        ⟨.endOfFile, "", ⟨byteLength s.toList, byteLength s.toList⟩⟩] := by
  have hkind : wordKind s.toList = .name := by
    have hnone : Keyword.ofText? s = none :=
      Option.eq_none_iff_forall_ne_some.2 fun k h => hk k (ofText?_eq_some_iff.1 h)
    rw [wordKind, String.ofList_toList, hnone]
  have hlexed : IsLexed s.toList [⟨some (wordKind s.toList), s.toList⟩] := by
    rw [isIdentifier] at hs
    generalize s.toList = cs at hs
    cases cs with
    | nil => cases hs
    | cons c cs =>
      obtain ⟨hc, hcs⟩ := Bool.and_eq_true_iff.1 hs
      have hcut : IsCut ([c] ++ (cs ++ [])) _ [] :=
        .run (.word hc) (List.all_eq_true.1 hcs) nofun
      rw [List.append_nil, List.singleton_append] at hcut
      exact .cons hcut .nil
  rw [tokens, lexemes_eq_ok_iff.2 hlexed, hkind]
  simp [Except.map, tokensOfLexemes]

end Netlist.Header
