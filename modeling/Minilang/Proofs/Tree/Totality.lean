import Minilang.Proofs.Tree.Parallel

/-!
# Parsing comes to an end

A sequence of tokens with an end of the text in it is read up to that token, whatever follows, and
the bounds of the parser are never what stops it: the levels of the grammar may stand on any other
parsers.
-/

namespace Minilang.Parser

variable {β : Type} [Unplace β] {v : Sides}

/-- The program that the parsers of a level read. -/
def programWith (inner : Inner) : Tokens → Except (Located ParseError) (Program Unit)
  | [] => .error ⟨.none, .unended⟩
  | tok :: rest => (program inner).run' ⟨tok, rest, tok.span⟩

lemma Sides.Agree.map_fst {res res' : Except (Located ParseError) (β × State)}
    (h : v.Agree res res')
    (hexact : v.exact = true) (hleft : v.left = []) : res.map Prod.fst = res'.map Prod.fst := by
  cases h with
  | ok hx ht => exact congrArg Except.ok (hx.2 hexact)
  | error he => exact congrArg Except.error (he hexact)
  | beyond h => simp [hleft] at h
  | failed h => exact absurd hleft h

lemma tracks_program {k : Nat} {inner inner' : Inner}
    (h : v.TracksInner k inner inner') (start : Span) : v.Tracks (k + 1) 0 (fun _ => True)
      (decls inner inner.limit [] >>= fun ds => spanFrom start >>= fun s => pure (Program.mk s ds))
      (decls inner' inner'.limit [] >>= fun ds => spanFrom start >>= fun s =>
      pure (Program.mk s ds)) := by
  refine .seq (tracks_decls h .refl) fun hds => ?_
  refine .finish .refl fun hs => ?_
  simp_all [Alike, Unplace.unplaced, Program.unplaced]

/-- Nothing after the end of the text is read, and nothing below the levels that the tokens need. -/
theorem programWith_append {bottom : Inner} (hbottom : 0 < bottom.limit) {init : Tokens}
    {e : Located Token} (he : e.val.kind = .eof) (more : Tokens) {n m : Nat}
    (hn : (init ++ [e]).length ≤ n) (hm : (init ++ [e]).length ≤ m) :
    programWith (levels bottom m) (init ++ e :: more) = programWith (nested n) (init ++ [e]) := by
  obtain ⟨tok, rest, hrest⟩ := List.exists_cons_of_ne_nil (List.concat_ne_nil e init)
  have hmore : init ++ e :: more = tok :: (rest ++ more) := by
    rw [List.append_cons, hrest]
    rfl
  rw [hmore, hrest]
  let v : Sides := ⟨true, [], more⟩
  have hsee (ts : Tokens) : ts.map v.see = ts := List.map_id ts
  have habreast : v.Abreast ((init ++ [e]).length + 1) (init ++ [e]) ⟨tok, rest, tok.span⟩
      ⟨tok, rest ++ more, tok.span⟩ := by
    refine ⟨⟨?_, ?_, .refl⟩, Nat.lt_succ_self _, .eof rfl rfl he, init, e, hrest.symm, he⟩
    · rw [hsee, hrest]
      exact (List.append_nil _).symm
    · rw [hsee, hrest]
      rfl
  have hprogram := tracks_program (v := v) (tracks_nested hbottom hn hm) tok.span
  exact ((hprogram.agree habreast trivial).map_fst rfl rfl).symm

lemma parseTokens_eq {toks : Tokens} (hne : toks ≠ [])
    (hlast : ∀ e ∈ toks.getLast?, e.val.kind = .eof) :
    parseTokens toks = programWith (nested toks.length) toks := by
  obtain ⟨tok, rest, rfl⟩ := List.exists_cons_of_ne_nil hne
  refine if_pos ?_
  rw [List.getLast?_eq_getLast_of_ne_nil hne, Option.map_some,
    hlast _ (List.getLast?_eq_getLast_of_ne_nil hne)]

lemma moves_nested (m : Nat) {s t : State} (hs : s.Ended)
    (hrun : (∃ x, typeExpr (nested m) s = .ok (x, t)) ∨
      (∃ structs x, expr (nested m) structs s = .ok (x, t)) ∨
      (∃ x, item (nested m) s = .ok (x, t)) ∨ ∃ x, decl (nested m) s = .ok (x, t)) :
      Moves 1 s t := by
  have h : (Sides.mk true [] []).TracksInner 0 (nested m) (levels (nested 0) m) :=
    tracks_nested one_pos (Nat.zero_le m) (Nat.zero_le m)
  obtain ⟨x, hrun⟩ | ⟨structs, x, hrun⟩ | ⟨x, hrun⟩ | ⟨x, hrun⟩ := hrun
  · exact (tracks_typeExpr (K := fun _ => True) h).moves hs trivial hrun
  · exact (tracks_expr (K := fun _ => True) h structs).moves hs trivial hrun
  · exact (tracks_item (K := fun _ => True) h).moves hs trivial hrun
  · exact (tracks_decl (K := fun _ => True) h).moves hs trivial hrun

/-- **Parsing is total and blind past the end.**  Behind an end of the text anything may follow, and
below as many levels of the grammar as there are tokens any parsers may stand: the result is the
same, so no bound is ever reached and nothing outside of the tokens is read.  A type, an expression,
an item of a block or a declaration that is read takes a token at least, and the end of the text is
never taken. -/
theorem parseTokens_total (init : Tokens) (e : Located Token) (he : e.val.kind = .eof)
    (more : Tokens) (bottom : Inner) (hbottom : 0 < bottom.limit) (n : Nat)
    (hn : (init ++ [e]).length ≤ n) :
    programWith (levels bottom n) (init ++ e :: more) = parseTokens (init ++ [e]) ∧
      ((∀ e' ∈ more.getLast?, e'.val.kind = .eof) →
        parseTokens (init ++ e :: more) = parseTokens (init ++ [e])) ∧
      ∀ m s t, s.Ended →
        ((∃ x, typeExpr (nested m) s = .ok (x, t)) ∨
          (∃ structs x, expr (nested m) structs s = .ok (x, t)) ∨
          (∃ x, item (nested m) s = .ok (x, t)) ∨ ∃ x, decl (nested m) s = .ok (x, t)) →
          Moves 1 s t := by
  have hparse : parseTokens (init ++ [e]) = programWith (nested (init ++ [e]).length)
      (init ++ [e]) :=
    parseTokens_eq (List.concat_ne_nil e init) (by simpa using he)
  refine ⟨?_, fun hmore => ?_, fun m s t hs hrun => moves_nested m hs hrun⟩
  · rw [hparse, programWith_append hbottom he more le_rfl hn]
  · have hlast : ∀ e' ∈ (init ++ e :: more).getLast?, e'.val.kind = .eof := by
      cases more with
      | nil => simpa using he
      | cons t more => simpa [List.getLast?_append] using hmore
    rw [parseTokens_eq (by simp) hlast, hparse, nested_eq_levels (init ++ e :: more).length]
    exact programWith_append Nat.one_pos he more le_rfl (by simp)

/-- The declaration of an alias, and a parenthesis behind the end of the text. -/
theorem parseTokens_total_alias :
    let toks :=
      [TokenKind.kwType, .ident, .assign, .ident, .semicolon].map fun k =>
        (⟨.none, ⟨k, []⟩⟩ : Located Token)
    let e : Located Token := ⟨.none, ⟨.eof, []⟩⟩
    (parseTokens (toks ++ [e])).toOption.map (·.decls.length) = some 1 ∧
      parseTokens (toks ++ e :: [⟨.none, ⟨.rparen, []⟩⟩, e]) = parseTokens (toks ++ [e]) :=
  ⟨rfl, (parseTokens_total _ _ rfl _ (nested 0) Nat.one_pos 6 le_rfl).2.1 (by simp)⟩

end Minilang.Parser
