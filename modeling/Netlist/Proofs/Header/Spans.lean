import Mathlib.Order.MinMax
import Netlist.Header.Grammar
import Netlist.Proofs.Sequencing

/-!
# The spans of declarations

A header or a port covers the tokens that declare it, from the first to the last. So if the tokens
come one after the other, then the ports of a header lie in it and come one after the other, and so
do the headers of a file. And if the tokens are moved without changing their order, then the
declarations are moved with them.

## Main definitions

* `Netlist.Span.relocate`, `Netlist.Header.relocate`: the same at other places.
* `Netlist.Header.InOrder`: tokens come one after the other.
* `Netlist.Header.Declares`: tokens that end with the name of a port and are covered by it.

## Main results

* `Netlist.Header.IsHeader.relocate`: what moved tokens declare.
* `Netlist.Header.IsFile.exists_segments`, `Netlist.Header.IsHeader.exists_segments`: the tokens of
  headers and of ports.
* `Netlist.Header.InOrder.covering_le_covering`, `Netlist.Header.InOrder.pairwise_span`: spans lie
  in others, or behind them.
* `Netlist.Header.IsHeader.span_of_mem`, `Netlist.Header.IsHeader.pairwise_ports`: the ports of a
  header.
-/

namespace Netlist

/-- A span with its ends moved. -/
def Span.relocate (f : Nat → Nat) (span : Span) : Span :=
  ⟨f span.start, f span.stop⟩

/-- A token at another place. -/
def Header.Token.relocate (f : Nat → Nat) (t : Token) : Token :=
  { t with span := t.span.relocate f }

/-- A port that is declared at another place. -/
def Header.Port.relocate (f : Nat → Nat) (p : Port) : Port :=
  { p with span := p.span.relocate f }

/-- A header that is declared at another place. -/
def Header.relocate (f : Nat → Nat) (header : Header) : Header :=
  { header with ports := header.ports.map (Port.relocate f), span := header.span.relocate f }

namespace Header

variable {t u : Token} {ts us vs : List Token} {tss : List (List Token)} {p : Port} {ps : List Port}
  {header : Header} {hs : List Header} {f : Nat → Nat} {inherited : Option Direction}

/-! ### Coverings -/

theorem covering_eq (hfirst : ts.head? = some t) (hlast : ts.getLast? = some u) :
    covering ts = t.span.merge u.span := by
  rw [covering, hfirst, hlast]

theorem exists_head?_getLast? (hne : ts ≠ []) :
    (∃ t, ts.head? = some t) ∧ ∃ u, ts.getLast? = some u :=
  ⟨⟨_, List.head?_eq_some_head hne⟩, ⟨_, List.getLast?_eq_some_getLast hne⟩⟩

theorem merge_relocate (hf : Monotone f) (a b : Span) :
    (a.relocate f).merge (b.relocate f) = (a.merge b).relocate f := by
  simp only [Span.relocate, Span.merge, hf.map_min, hf.map_max]

/-- If tokens are moved and keep their order, then what they cover moves with them. -/
theorem covering_map (hf : Monotone f) (hne : ts ≠ []) :
    covering (ts.map (Token.relocate f)) = (covering ts).relocate f := by
  obtain ⟨⟨t, hfirst⟩, ⟨u, hlast⟩⟩ := exists_head?_getLast? hne
  have hfirst' : (ts.map (Token.relocate f)).head? = some (t.relocate f) := by
    rw [List.head?_map, hfirst, Option.map_some]
  have hlast' : (ts.map (Token.relocate f)).getLast? = some (u.relocate f) := by
    rw [List.getLast?_map, hlast, Option.map_some]
  rw [covering_eq hfirst hlast, covering_eq hfirst' hlast', ← merge_relocate hf]
  rfl

/-! ### Moved tokens -/

theorem IsDirection.relocate {d : Direction} (h : IsDirection inherited ts d) :
    IsDirection inherited (ts.map (Token.relocate f)) d := by
  cases h with
  | given h => exact .given h
  | inherited h => exact .inherited h

theorem IsNet.relocate (h : IsNet ts) : IsNet (ts.map (Token.relocate f)) := by
  cases h with
  | given h => exact .given h
  | none => exact .none

theorem IsType.relocate {type : PortType} (h : IsType ts type) :
    IsType (ts.map (Token.relocate f)) type := by
  cases h with
  | range hleft hhigh hn hcolon hlow hzero hright hwidth =>
    exact .range hleft hhigh hn hcolon hlow hzero hright hwidth
  | named h => exact .named h
  | none => exact .none

theorem IsPort.relocate (hf : Monotone f) (h : IsPort inherited ts p) :
    IsPort inherited (ts.map (Token.relocate f)) (p.relocate f) := by
  cases h with
  | @mk ds ns ts name d type hd hns hts hname =>
    have h : IsPort inherited (ds.map (Token.relocate f) ++ ns.map (Token.relocate f) ++
        ts.map (Token.relocate f) ++ [name.relocate f]) _ :=
      .mk hd.relocate hns.relocate hts.relocate hname
    rw [← List.map_append, ← List.map_append, ← List.map_singleton, ← List.map_append,
      covering_map hf (by simp)] at h
    exact h

theorem IsPorts.relocate (hf : Monotone f) (h : IsPorts inherited ts ps) :
    IsPorts inherited (ts.map (Token.relocate f)) (ps.map (Port.relocate f)) := by
  induction h with
  | last hp => exact .last (hp.relocate hf)
  | @cons inherited ts rest comma p ps hp hcomma _ ih =>
    rw [List.map_append]
    exact .cons (hp.relocate hf) hcomma ih

theorem IsPortList.relocate (hf : Monotone f) (h : IsPortList ts ps) :
    IsPortList (ts.map (Token.relocate f)) (ps.map (Port.relocate f)) := by
  cases h with
  | empty => exact .empty
  | ports h => exact .ports (h.relocate hf)

theorem IsClosing.relocate (h : IsClosing ts) : IsClosing (ts.map (Token.relocate f)) := by
  cases h with
  | given h => exact .given h
  | none => exact .none

/-- Moved tokens declare the same header at another place. -/
theorem IsHeader.relocate (hf : Monotone f) (h : IsHeader ts header) :
    IsHeader (ts.map (Token.relocate f)) (header.relocate f) := by
  cases h with
  | @mk opening name left right semicolon ts cs ps hopening hname hleft hps hright hsemi hcs =>
    have h : IsHeader (opening.relocate f :: name.relocate f :: left.relocate f ::
        ts.map (Token.relocate f) ++ right.relocate f :: semicolon.relocate f ::
        cs.map (Token.relocate f)) _ :=
      .mk hopening hname hleft (hps.relocate hf) hright hsemi hcs.relocate
    simp only [← List.map_cons, ← List.map_append] at h
    rw [covering_map hf (by simp)] at h
    exact h

/-! ### Segments -/

/-- Tokens end with the name of a port, which covers them. -/
def Declares (ts : List Token) (p : Port) : Prop :=
  ∃ front name, ts = front ++ [name] ∧ p.name = name.text ∧ p.span = covering ts

theorem IsPort.declares (h : IsPort inherited ts p) : Declares ts p := by
  cases h with
  | mk => exact ⟨_, _, rfl, rfl, rfl⟩

theorem Declares.ne_nil (h : Declares ts p) : ts ≠ [] := by
  obtain ⟨front, name, rfl, -⟩ := h
  simp

theorem IsHeader.ne_nil (h : IsHeader ts header) : ts ≠ [] := by
  cases h
  simp

theorem IsHeader.span_eq (h : IsHeader ts header) : header.span = covering ts := by
  cases h
  rfl

/-- Each port has tokens of its own. -/
theorem IsPorts.exists_segments (h : IsPorts inherited ts ps) :
    ∃ tss, tss.flatten.Sublist ts ∧ List.Forall₂ Declares tss ps := by
  induction h with
  | @last _ ts _ hp => exact ⟨[ts], by simp, .cons hp.declares .nil⟩
  | @cons _ ts rest comma _ _ hp _ _ ih =>
    obtain ⟨tss, hsub, htss⟩ := ih
    exact ⟨ts :: tss, (List.Sublist.refl ts).append (hsub.cons comma), .cons hp.declares htss⟩

theorem IsHeader.exists_segments (h : IsHeader ts header) :
    ∃ tss, tss.flatten.Sublist ts ∧ List.Forall₂ Declares tss header.ports := by
  cases h with
  | @mk opening name left right semicolon ts cs ps _ _ _ hps =>
    have hts : ts.Sublist (opening :: name :: left :: ts ++ right :: semicolon :: cs) :=
      (List.sublist_append_left ts _).trans
        ((((List.Sublist.refl _).cons left).cons name).cons opening)
    cases hps with
    | empty => exact ⟨[], List.nil_sublist _, .nil⟩
    | ports hps =>
      obtain ⟨tss, hsub, htss⟩ := hps.exists_segments
      exact ⟨tss, hsub.trans hts, htss⟩

/-- The tokens of a file are those of its headers. -/
theorem IsFile.exists_segments (h : IsFile ts hs) :
    ∃ tss, ts = tss.flatten ∧ List.Forall₂ IsHeader tss hs := by
  induction h with
  | nil => exact ⟨[], rfl, .nil⟩
  | @cons ts rest _ _ hheader _ ih =>
    obtain ⟨tss, rfl, htss⟩ := ih
    exact ⟨ts :: tss, rfl, .cons hheader htss⟩

/-! ### Tokens in order -/

/-- Tokens that are not empty come one after the other. -/
def InOrder (ts : List Token) : Prop :=
  (∀ t ∈ ts, t.span.start < t.span.stop) ∧ ts.Pairwise fun t u => t.span.stop ≤ u.span.start

theorem InOrder.sublist (h : InOrder ts) (hsub : us.Sublist ts) : InOrder us :=
  ⟨fun t ht => h.1 t (hsub.subset ht), h.2.sublist hsub⟩

theorem InOrder.head_le (h : InOrder ts) (hfirst : ts.head? = some t) (hu : u ∈ ts) :
    t.span.start ≤ u.span.start := by
  obtain ⟨rest, rfl⟩ := List.head?_eq_some_iff.1 hfirst
  rcases List.mem_cons.1 hu with rfl | hu
  · exact Nat.le_refl _
  · have hlt := h.1 t List.mem_cons_self
    have hle := (List.pairwise_cons.1 h.2).1 u hu
    omega

theorem InOrder.le_getLast (h : InOrder ts) (hlast : ts.getLast? = some u) (ht : t ∈ ts) :
    t.span.stop ≤ u.span.stop := by
  obtain ⟨front, rfl⟩ := List.getLast?_eq_some_iff.1 hlast
  rcases List.mem_append.1 ht with ht | ht
  · have hlt := h.1 u (by simp)
    have hle := (List.pairwise_append.1 h.2).2.2 t ht u List.mem_cons_self
    omega
  · rw [List.mem_singleton.1 ht]

/-- Tokens in order are covered from the start of the first to the end of the last. -/
theorem InOrder.covering_eq (h : InOrder ts) (hfirst : ts.head? = some t)
    (hlast : ts.getLast? = some u) : covering ts = ⟨t.span.start, u.span.stop⟩ := by
  have hstart := h.head_le hfirst (List.mem_of_getLast? hlast)
  have hstop := h.le_getLast hlast (List.mem_of_head? hfirst)
  rw [Header.covering_eq hfirst hlast, Span.merge, Nat.min_eq_left hstart, Nat.max_eq_right hstop]

/-- What some of the tokens cover lies in what all of them cover. -/
theorem InOrder.covering_le_covering (h : InOrder ts) (hsub : us.Sublist ts) (hne : us ≠ []) :
    (covering ts).start ≤ (covering us).start ∧ (covering us).start < (covering us).stop ∧
      (covering us).stop ≤ (covering ts).stop := by
  have hne' : ts ≠ [] := by
    rintro rfl
    exact hne (List.sublist_nil.1 hsub)
  obtain ⟨⟨t, hfirst⟩, ⟨u, hlast⟩⟩ := exists_head?_getLast? hne
  obtain ⟨⟨t', hfirst'⟩, ⟨u', hlast'⟩⟩ := exists_head?_getLast? hne'
  have hus := h.sublist hsub
  rw [h.covering_eq hfirst' hlast', hus.covering_eq hfirst hlast]
  have ht := List.mem_of_head? hfirst
  have hlt := hus.1 t ht
  have hle := hus.le_getLast hlast ht
  exact ⟨h.head_le hfirst' (hsub.subset ht), by dsimp only; omega,
    h.le_getLast hlast' (hsub.subset (List.mem_of_getLast? hlast))⟩

/-- What comes after other tokens covers a place behind them. -/
theorem InOrder.covering_le_of_append (h : InOrder (ts ++ vs)) (hts : ts ≠ [])
    (hsub : us.Sublist vs) (hus : us ≠ []) : (covering ts).stop ≤ (covering us).start := by
  obtain ⟨⟨t, hfirst⟩, ⟨u, hlast⟩⟩ := exists_head?_getLast? hts
  obtain ⟨⟨t', hfirst'⟩, ⟨u', hlast'⟩⟩ := exists_head?_getLast? hus
  have hts' := h.sublist (List.sublist_append_left ts vs)
  have hus' := h.sublist (hsub.trans (List.sublist_append_right ts vs))
  rw [hts'.covering_eq hfirst hlast, hus'.covering_eq hfirst' hlast']
  exact (List.pairwise_append.1 h.2).2.2 u (List.mem_of_getLast? hlast) t'
    (hsub.subset (List.mem_of_head? hfirst'))

/-- What is declared by tokens that come one after the other has spans that do. -/
theorem InOrder.pairwise_span {α : Type} {R : List Token → α → Prop} {span : α → Span}
    (hR : ∀ ts a, R ts a → ts ≠ [] ∧ span a = covering ts) {as : List α}
    (h : InOrder tss.flatten) (htss : List.Forall₂ R tss as) :
    as.Pairwise fun a b => (span a).stop ≤ (span b).start := by
  induction htss with
  | nil => exact .nil
  | @cons ts a tss as ha htss ih =>
    rw [List.flatten_cons] at h
    refine List.pairwise_cons.2 ⟨fun b hb => ?_, ih (h.sublist (List.sublist_append_right _ _))⟩
    obtain ⟨us, hus, hb⟩ := exists_mem_of_forall₂ htss hb
    obtain ⟨hts, ha⟩ := hR ts a ha
    obtain ⟨hne, hb⟩ := hR us b hb
    rw [ha, hb]
    exact h.covering_le_of_append hts (List.sublist_flatten_of_mem hus) hne

/-- The ports of a header lie in it. -/
theorem IsHeader.span_of_mem (h : IsHeader ts header) (hts : InOrder ts) (hp : p ∈ header.ports) :
    header.span.start ≤ p.span.start ∧ p.span.start < p.span.stop ∧
      p.span.stop ≤ header.span.stop := by
  obtain ⟨tss, hsub, htss⟩ := h.exists_segments
  obtain ⟨us, hus, hdeclares⟩ := exists_mem_of_forall₂ htss hp
  have hne := hdeclares.ne_nil
  obtain ⟨_, _, -, -, hspan⟩ := hdeclares
  rw [h.span_eq, hspan]
  exact hts.covering_le_covering ((List.sublist_flatten_of_mem hus).trans hsub) hne

/-- The ports of a header come one after the other. -/
theorem IsHeader.pairwise_ports (h : IsHeader ts header) (hts : InOrder ts) :
    header.ports.Pairwise fun p q => p.span.stop ≤ q.span.start := by
  obtain ⟨tss, hsub, htss⟩ := h.exists_segments
  refine (hts.sublist hsub).pairwise_span (fun us p hus => ⟨hus.ne_nil, ?_⟩) htss
  obtain ⟨_, _, -, -, hspan⟩ := hus
  exact hspan

/-- A header that is moved back and forth is the same again. -/
theorem IsHeader.relocate_relocate (h : IsHeader ts header) (hts : InOrder ts) :
    (header.relocate (· - header.span.start)).relocate (header.span.start + ·) = header := by
  have hspan {span : Span} (hstart : header.span.start ≤ span.start)
      (hlt : span.start < span.stop) : (span.relocate (· - header.span.start)).relocate
        (header.span.start + ·) = span := by
    have hstop : header.span.start ≤ span.stop := hstart.trans hlt.le
    simp only [Span.relocate, Nat.add_sub_cancel' hstart, Nat.add_sub_cancel' hstop]
  have hlt : header.span.start < header.span.stop := by
    rw [h.span_eq]
    exact (hts.covering_le_covering (.refl ts) h.ne_nil).2.1
  have hports : (header.ports.map (Port.relocate (· - header.span.start))).map
      (Port.relocate (header.span.start + ·)) = header.ports := by
    rw [List.map_map, List.map_congr_left (g := id), List.map_id]
    intro p hp
    have hp := h.span_of_mem hts hp
    simp only [Function.comp_apply, Port.relocate, hspan hp.1 hp.2.1, id]
  simp only [Header.relocate, hports, hspan le_rfl hlt]

end Header

end Netlist
