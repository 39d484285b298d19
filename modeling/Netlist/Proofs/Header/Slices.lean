import Netlist.Proofs.Header.Layout
import Netlist.Proofs.Header.Reader
import Netlist.Proofs.Header.Spans

/-!
# Reading a slice of a text

A header is cut out of a text from its first token to its last one. The lexemes of the slice are
those that the text has there, so its tokens are those of the header, but moved to the beginning of
a text.

## Main results

* `Netlist.Header.exists_split`, `Netlist.Header.exists_slice`: the tokens of a slice.
* `Netlist.Header.exists_slice?_append`: a slice that ends with a token.
* `Netlist.Header.readAll_eq_ok_iff`: what is read from a text.
* `Netlist.Header.readAll_slices`: the spans of headers and ports.
-/

namespace Netlist.Header

variable {t u stop : Token} {ts us front back body : List Token} {ls : List Lexeme}
  {offset n : Nat} {text : List Char} {hs : List Header}

/-! ### Tokens among lexemes -/

/-- If the lexemes begin at another place, then so do the tokens among them. -/
theorem tokensOfLexemes_add (n offset : Nat) (ls : List Lexeme) :
    tokensOfLexemes (n + offset) ls =
      (tokensOfLexemes offset ls).map (Token.relocate (n + ·)) := by
  induction ls generalizing offset with
  | nil => rfl
  | cons l ls ih =>
    cases hkind : l.kind with
    | none =>
      rw [tokensOfLexemes_of_none hkind, tokensOfLexemes_of_none hkind, Nat.add_assoc, ih]
    | some kind =>
      rw [tokensOfLexemes_of_some hkind, tokensOfLexemes_of_some hkind, Nat.add_assoc, ih]
      rfl

/-- A token that is not the last one is a lexeme. The lexemes in front of it and behind it are those
of the other tokens. -/
theorem exists_split (h : tokensOfLexemes offset ls = front ++ t :: back) (hback : back ≠ []) :
    ∃ ls₀ l ls₁, ls = ls₀ ++ l :: ls₁ ∧
      t.span.start = offset + byteLength (ls₀.flatMap Lexeme.text) ∧
      t.span.stop = t.span.start + byteLength l.text ∧
      (∀ ms, tokensOfLexemes offset (ls₀ ++ ms) = front ++ tokensOfLexemes t.span.start ms) ∧
      (∀ ms, tokensOfLexemes t.span.start (l :: ms) = t :: tokensOfLexemes t.span.stop ms) ∧
      tokensOfLexemes t.span.stop ls₁ = back := by
  induction ls generalizing offset front with
  | nil =>
    have hlength := congrArg List.length h
    have hpos := List.length_pos_iff.2 hback
    simp only [tokensOfLexemes, List.length_append, List.length_cons, List.length_nil] at hlength
    omega
  | cons l ls ih =>
    cases hkind : l.kind with
    | none =>
      rw [tokensOfLexemes_of_none hkind] at h
      obtain ⟨ls₀, m, ls₁, rfl, hstart, hstop, hfront, ht, hls₁⟩ := ih h
      refine ⟨l :: ls₀, m, ls₁, rfl, ?_, hstop, fun ms => ?_, ht, hls₁⟩
      · rw [hstart, List.flatMap_cons, byteLength_append, Nat.add_assoc]
      · rw [List.cons_append, tokensOfLexemes_of_none hkind, hfront]
    | some kind =>
      rw [tokensOfLexemes_of_some hkind] at h
      cases front with
      | nil =>
        obtain ⟨rfl, rfl⟩ := List.cons.inj h
        exact ⟨[], l, ls, rfl, rfl, rfl, fun _ => rfl, fun _ => tokensOfLexemes_of_some hkind, rfl⟩
      | cons t' front =>
        obtain ⟨rfl, hrest⟩ := List.cons.inj h
        obtain ⟨ls₀, m, ls₁, rfl, hstart, hstop, hfront, ht, hls₁⟩ := ih hrest
        refine ⟨l :: ls₀, m, ls₁, rfl, ?_, hstop, fun ms => ?_, ht, hls₁⟩
        · rw [hstart, List.flatMap_cons, byteLength_append, Nat.add_assoc]
        · rw [List.cons_append, tokensOfLexemes_of_some hkind, hfront]
          rfl

/-- The slice of a text from one token to another one falls into the tokens that are there, moved to
the beginning of a text, and a last one for its end. -/
theorem exists_slice (h : tokens text = .ok (front ++ us ++ back)) (hback : back ≠ [])
    (hfirst : us.head? = some t) (hlast : us.getLast? = some u) :
    ∃ part us' stop, (Span.mk t.span.start u.span.stop).slice? text = some part ∧
      tokens part = .ok (us' ++ [stop]) ∧ us = us'.map (Token.relocate (t.span.start + ·)) := by
  obtain ⟨ls, hls, htokens⟩ := map_eq_ok_iff.1 h
  obtain ⟨rest, rfl⟩ := List.head?_eq_some_iff.1 hfirst
  obtain ⟨us₀, hus₀⟩ := List.getLast?_eq_some_iff.1 hlast
  rw [List.append_assoc, List.cons_append] at htokens
  -- the lexemes are cut in front of the first token, and then behind the last one
  obtain ⟨ls₀, l, ls', rfl, hstart, -, -, ht, hls'⟩ := exists_split htokens (by simp [hback])
  have hbody : tokensOfLexemes t.span.start (l :: ls') = us₀ ++ u :: back := by
    rw [ht, hls', ← List.cons_append, hus₀, List.append_assoc, List.singleton_append]
  obtain ⟨ls₁, m, ls₂, hls₁, hstart', hstop, hfront, hu, -⟩ := exists_split hbody hback
  have hcut : ls₀ ++ l :: ls' = ls₀ ++ ((ls₁ ++ [m]) ++ ls₂) := by
    rw [hls₁, List.append_assoc, List.singleton_append]
  rw [hcut] at hls
  obtain ⟨behind, rfl, -, hbehind⟩ := (lexemes_eq_ok_iff.1 hls).split
  obtain ⟨last, rfl, hpart, -⟩ := hbehind.split
  have hmoved : (tokensOfLexemes 0 (ls₁ ++ [m])).map (Token.relocate (t.span.start + ·)) =
      (t :: rest) ++ [⟨.endOfFile, "", ⟨u.span.stop, u.span.stop⟩⟩] := by
    rw [← tokensOfLexemes_add, Nat.add_zero, hfront, hu, hus₀, List.append_assoc]
    rfl
  obtain ⟨us', stops, hus', hmap, hstops⟩ := List.map_eq_append_iff.1 hmoved
  obtain ⟨stop, rfl, -⟩ := List.map_eq_singleton_iff.1 hstops
  refine ⟨(ls₁ ++ [m]).flatMap Lexeme.text, us', stop, ?_, ?_, hmap.symm⟩
  · have hspan : Span.mk t.span.start u.span.stop = ⟨byteLength (ls₀.flatMap Lexeme.text),
        byteLength (ls₀.flatMap Lexeme.text) + byteLength ((ls₁ ++ [m]).flatMap Lexeme.text)⟩ := by
      rw [hstop, hstart', hstart, List.flatMap_append, byteLength_append, List.flatMap_singleton,
        Nat.zero_add, Nat.add_assoc]
    rw [hspan, Span.slice?_of_append]
  · rw [tokens, lexemes_eq_ok_iff.2 hpart, ← hus']
    rfl

/-- The slice of a text from one token to another one behind it ends with the text of that one. -/
theorem exists_slice?_append (h : tokens text = .ok ts) (ht : t ∈ ts) (hu : u ∈ ts)
    (hle : t.span.start ≤ u.span.start) : ∃ part,
      (Span.mk t.span.start u.span.stop).slice? text = some (part ++ u.text.toList) := by
  have hlayout : IsLayout (byteLength []) text ts := isLayout_of_tokens h
  obtain ⟨a, c, hac, ha⟩ := hlayout.exists_append ht
  obtain ⟨a', c', hac', ha'⟩ := hlayout.exists_append hu
  rw [ha, ha'] at hle ⊢
  rw [List.nil_append] at hac hac'
  obtain ⟨part, rfl⟩ : ∃ part, a' = a ++ part := by
    rcases List.append_eq_append_iff.1 (hac.symm.trans hac') with ⟨x, hx, -⟩ | ⟨x, rfl, -⟩
    · exact ⟨x, hx⟩
    · refine ⟨[], ?_⟩
      have hx : x = [] := by
        by_contra hne
        have hpos := byteLength_pos hne
        have hle : byteLength (a' ++ x) ≤ byteLength a' := hle
        rw [byteLength_append] at hle
        omega
      rw [hx, List.append_nil, List.append_nil]
  have hslice := Span.slice?_of_append a (part ++ u.text.toList) c'
  rw [List.append_assoc, ← List.append_assoc a, ← hac', byteLength_append, ← Nat.add_assoc,
    ← byteLength_append] at hslice
  exact ⟨part, hslice⟩

/-! ### Headers of texts -/

/-- The headers of a text are what its tokens declare. -/
theorem readAll_eq_ok_iff {source : String} : readAll source = .ok hs ↔
    ∃ body stop, tokens source.toList = .ok (body ++ [stop]) ∧ IsFile body hs := by
  -- the last token ends the reading, and no other one does
  have hread {body : List Token} {stop : Token} (h : tokens source.toList = .ok (body ++ [stop])) :
      readAll source = .ok hs ↔ IsFile body hs := by
    obtain ⟨body', stop', heq, hstop, hbody, hspelled⟩ := spelled_of_tokens h
    obtain ⟨rfl, rfl⟩ := List.append_singleton_inj.1 heq
    have hts : Spelled (body ++ [stop]) :=
      spelled_append.2 ⟨hspelled, List.forall_mem_singleton.2 fun hnumber => by
        cases hstop.symm.trans hnumber⟩
    have htake : (body ++ [stop]).takeWhile (fun t => t.kind ≠ .endOfFile) = body :=
      takeWhile_append_of_stops (by simpa using hbody) fun t ht => by
        obtain rfl := Option.some.inj ht
        simp [hstop]
    rw [readAll, tokensOf, h]
    change readTokensOf _ (body ++ [stop]) = _ ↔ _
    rw [readTokensOf, mapError_eq_ok_iff, readTokens_eq_ok_iff hts, htake]
  constructor
  · intro h
    obtain ⟨ts, hts, -⟩ := bind_eq_ok_iff.1 h
    have htokens := mapError_eq_ok_iff.1 hts
    obtain ⟨body, stop, rfl, -⟩ := spelled_of_tokens htokens
    exact ⟨body, stop, htokens, (hread htokens).1 h⟩
  · rintro ⟨body, stop, htokens, hfile⟩
    exact (hread htokens).2 hfile

theorem inOrder_of_tokens (h : tokens text = .ok (body ++ [stop])) : InOrder body := by
  have hlayout := isLayout_of_tokens h
  obtain ⟨body', heq, hall⟩ := hlayout.exists_eq_concat
  obtain ⟨rfl, -⟩ := List.append_singleton_inj.1 heq
  exact ⟨fun t ht => (hall t ht).2, (List.pairwise_append.1 hlayout.pairwise).1⟩

/-- The slice of a text that a header covers declares this header only. -/
theorem IsHeader.exists_slice {header : Header} (h : IsHeader us header)
    (htokens : tokens text = .ok (front ++ us ++ back)) (hus : InOrder us) (hback : back ≠ []) :
    ∃ part, header.span.slice? text = some part ∧ readAll (String.ofList part) =
      .ok [header.relocate (· - header.span.start)] := by
  obtain ⟨⟨t, hfirst⟩, ⟨u, hlast⟩⟩ := exists_head?_getLast? h.ne_nil
  obtain ⟨part, us', stop, hslice, hpart, hmoved⟩ := Header.exists_slice htokens hback hfirst hlast
  have hspan : header.span = ⟨t.span.start, u.span.stop⟩ := by
    rw [h.span_eq, hus.covering_eq hfirst hlast]
  rw [hspan]
  refine ⟨part, hslice, readAll_eq_ok_iff.2 ⟨us', stop, by rwa [String.toList_ofList], ?_⟩⟩
  have hsub : Monotone (· - t.span.start) := fun a b hab => Nat.sub_le_sub_right hab _
  have hback : us.map (Token.relocate (· - t.span.start)) = us' := by
    rw [hmoved, List.map_map]
    simp [Function.comp_def, Token.relocate, Span.relocate]
  have hheader := h.relocate hsub
  rw [hback] at hheader
  simpa using IsFile.cons hheader .nil

/-- The slice of a text that a port covers ends with the name of the port. -/
theorem IsHeader.exists_slice?_name {header : Header} {p : Port} (h : IsHeader us header)
    (htokens : tokens text = .ok ts) (hus : InOrder us) (hsub : us ⊆ ts) (hp : p ∈ header.ports) :
    ∃ part, p.span.slice? text = some (part ++ p.name.toList) := by
  obtain ⟨tss, htss, hdeclares⟩ := h.exists_segments
  obtain ⟨vs, hvs, front, name, rfl, hname, hspan⟩ := exists_mem_of_forall₂ hdeclares hp
  have hvs : (front ++ [name]).Sublist us := (List.sublist_flatten_of_mem hvs).trans htss
  have horder := hus.sublist hvs
  obtain ⟨⟨t, hfirst⟩, -⟩ := @exists_head?_getLast? (front ++ [name]) (by simp)
  have ht : t ∈ front ++ [name] := List.mem_of_head? hfirst
  have hlast : name ∈ front ++ [name] := by simp
  rw [hspan, horder.covering_eq hfirst List.getLast?_concat, hname]
  exact exists_slice?_append htokens (hsub (hvs.subset ht)) (hsub (hvs.subset hlast))
    (horder.head_le hfirst hlast)

/-- The headers that are read from a text cover parts of it that come one after the other. The ports
of a header lie in it, come one after the other and end with their names. And from the slice of the
text that a header covers, this header alone is read, with its places counted from the beginning of
the slice. -/
theorem readAll_slices {source : String} (h : readAll source = .ok hs) :
    hs.Pairwise (fun header header' => header.span.stop ≤ header'.span.start) ∧
    ∀ header ∈ hs, header.span.start < header.span.stop ∧
      (∀ p ∈ header.ports, header.span.start ≤ p.span.start ∧ p.span.start < p.span.stop ∧
        p.span.stop ≤ header.span.stop) ∧
      header.ports.Pairwise (fun p q => p.span.stop ≤ q.span.start) ∧
      (∀ p ∈ header.ports, ∃ part,
        p.span.slice? source.toList = some (part ++ p.name.toList)) ∧
      ∃ part header', header.span.slice? source.toList = some part ∧
        readAll (String.ofList part) = .ok [header'] ∧
        header'.relocate (header.span.start + ·) = header := by
  obtain ⟨body, stop, htokens, hfile⟩ := readAll_eq_ok_iff.1 h
  have hbody := inOrder_of_tokens htokens
  obtain ⟨tss, rfl, htss⟩ := hfile.exists_segments
  refine ⟨hbody.pairwise_span (fun _ _ h => ⟨h.ne_nil, h.span_eq⟩) htss, fun header hheader => ?_⟩
  obtain ⟨ts, hts, hdeclares⟩ := exists_mem_of_forall₂ htss hheader
  have horder : InOrder ts := hbody.sublist (List.sublist_flatten_of_mem hts)
  refine ⟨?_, fun p hp => hdeclares.span_of_mem horder hp, hdeclares.pairwise_ports horder, ?_, ?_⟩
  · rw [hdeclares.span_eq]
    exact (horder.covering_le_covering (.refl ts) hdeclares.ne_nil).2.1
  · have hsub : ts ⊆ tss.flatten ++ [stop] :=
      fun t ht => List.mem_append_left _ (List.mem_flatten_of_mem hts ht)
    exact fun p hp => hdeclares.exists_slice?_name htokens horder hsub hp
  · obtain ⟨front, back, rfl⟩ := List.append_of_mem hts
    rw [List.flatten_append, List.flatten_cons, List.append_assoc, List.append_assoc,
      ← List.append_assoc] at htokens
    obtain ⟨part, hpart, hread⟩ := hdeclares.exists_slice htokens horder (by simp)
    exact ⟨part, _, hpart, hread, hdeclares.relocate_relocate horder⟩

/-- The second port of the first header inherits its direction, and the second header has a closing
word. In front of them stands a comment with a character of two bytes. -/
theorem readAll_slices_inherited :
    let source := "/* ü */ module a(input x, y); module b(); endmodule"
    let first : Header := ⟨"a",
      [⟨.input, .bits 1, "x", ⟨18, 25⟩⟩, ⟨.input, .bits 1, "y", ⟨27, 28⟩⟩], ⟨9, 30⟩⟩
    readAll source = .ok [first, ⟨"b", [], ⟨31, 52⟩⟩] ∧
      ∃ part header, first.span.slice? source.toList = some part ∧
        readAll (String.ofList part) = .ok [header] ∧ header.relocate (9 + ·) = first := by
  intro source first
  have hread : readAll source = .ok [first, ⟨"b", [], ⟨31, 52⟩⟩] := by decide_cbv
  exact ⟨hread, ((readAll_slices hread).2 first (by simp)).2.2.2.2⟩

end Netlist.Header
