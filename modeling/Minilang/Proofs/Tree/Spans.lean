import Minilang.Proofs.Tree.Parsed

/-!
# The places of nodes

The spans of a program that is read from a text are nested.
-/

namespace Minilang

/-- A node in its place: it lies in the text, it begins and ends with a token or with a position of
a float literal, and its parts lie in it one after the other. -/
structure Outline.Placed (text : Bytes) (toks : Tokens) (o : Outline) : Prop where
  inText : 0 ≤ o.span.first.offset ∧ o.span.first.offset ≤ o.span.last.offset ∧
    o.span.last.offset < text.length
  begins : ∃ piece ∈ toks.flatMap Parser.pieces, piece.first = o.span.first
  ends : ∃ piece ∈ toks.flatMap Parser.pieces, piece.last = o.span.last
  inside : ∀ part ∈ o.parts, o.span.first.offset ≤ part.span.first.offset ∧
    part.span.last.offset ≤ o.span.last.offset
  apart : o.parts.Pairwise fun part next => part.span.last.offset < next.span.first.offset

lemma Outline.placed_of_mem {text : Bytes} {t : Located Token} {toks : Tokens} {p : Program Unit}
    (htoks : tokenize text = .ok (t :: toks)) (hparse : parseTokens (t :: toks) = .ok p)
    (hne : p.decls ≠ []) : ∀ o ∈ Outline.listAll p.outline, o.Placed text (t :: toks) := by
  intro o ho
  obtain ⟨c', u, hu, hwithin⟩ :=
    (Parser.gives_parseTokens (Parser.ofText_of_tokenize htoks) hparse).2 hne
  have htiled := (Parser.tiled_of_tokenize htoks).1
  obtain ⟨hnested, hlo, hhi⟩ := Outline.Fits.of_mem_all.2 _ _ _ hwithin o ho
  have hforward := hnested.forward
  -- The token in front of the first one is not among those that a node reaches.
  have hpieces : ∀ piece ∈ (Parser.sentinel t :: t :: toks).flatMap Parser.pieces,
      piece ≠ (Parser.sentinel t).span →
      piece ∈ (t :: toks).flatMap Parser.pieces := fun piece hpiece hother =>
    (List.mem_append.mp hpiece).resolve_left fun h => hother (List.mem_singleton.mp h)
  have hinside : ∀ piece : Span, piece.first = o.span.first ∨ piece.last = o.span.last →
      piece ≠ (Parser.sentinel t).span := by
    rintro piece (hpiece | hpiece) rfl
    · exact hlo.ne (congrArg Pos.offset hpiece)
    · exact (hlo.trans_le hforward).ne (congrArg Pos.offset hpiece)
  have hnext : u.tok ∈ t :: toks := by
    refine (List.mem_cons.mp hu.step.mem).resolve_left fun heq => ?_
    have hafter := hu.step.after
    rw [heq] at hafter
    exact lt_irrefl _ (hafter.trans (hlo.trans_le (hforward.trans hhi)))
  have hstart := (htiled.placed t List.mem_cons_self).1.bounds.1
  have hstop := (htiled.placed _ hnext).1.bounds.2
  have hafter := hu.step.after
  have hfirst : t.span.first.offset - 1 < o.span.first.offset := hlo
  obtain ⟨s, parts⟩ := o
  obtain ⟨⟨q, hq, hqfirst⟩, ⟨q', hq', hqlast⟩, -, hfits⟩ := hnested
  obtain ⟨hparts, hpairs⟩ := hfits.parts
  refine ⟨⟨by omega, hforward, by omega⟩, ⟨q, hpieces q hq (hinside q (.inl hqfirst)), hqfirst⟩,
    ⟨q', hpieces q' hq' (hinside q' (.inr hqlast)), hqlast⟩, fun part hpart => ?_, hpairs⟩
  exact ⟨Int.sub_one_lt_iff.mp (hparts part hpart).1, (hparts part hpart).2⟩

/-- **The spans of a tree are nested.**  The outline of a program that a text is read as has all its
nodes, and if there is a declaration then each of them is in its place. -/
theorem placed_of_parse {text : Bytes} {p : Program Unit} (h : parse text = .ok p)
    (hne : p.decls ≠ []) : (Outline.listAll p.outline).map Outline.span = p.nodes.map Node.span ∧
    ∃ toks, tokenize text = .ok toks ∧ ∀ o ∈ Outline.listAll p.outline, o.Placed text toks := by
  obtain ⟨t, toks, htoks, hparse⟩ := parse_ok h
  exact ⟨Outline.spans_program p, t :: toks, htoks, Outline.placed_of_mem htoks hparse hne⟩

/-- A text with a parenthesis, a selection by two positions and a conditional without a semicolon.
-/
def nestings : Bytes :=
  "fn f(s: S) \x7b if s.0.1 < (1) \x7b m = -s \x7d x \x7d"

theorem placed_of_parse_nestings : ∃ p, parse nestings = .ok p ∧ p.nodes.length = 22 ∧
    ∃ toks, tokenize nestings = .ok toks ∧ ∀ o ∈ Outline.listAll p.outline,
    o.Placed nestings toks := by
  have hparse : ((parse nestings).toOption.map fun p => (p.decls.length, p.nodes.length)) =
      some (1, 22) := by
    decide +kernel
  cases h : parse nestings with
  | error e =>
    rw [h] at hparse
    cases hparse
  | ok p =>
    rw [h] at hparse
    obtain ⟨hdecls, hnodes⟩ := Prod.mk.inj (Option.some.inj hparse)
    have hne : p.decls ≠ [] := List.ne_nil_of_length_eq_add_one hdecls
    exact ⟨p, rfl, hnodes, (placed_of_parse h hne).2⟩

end Minilang
