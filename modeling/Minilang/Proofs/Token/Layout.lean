import Minilang.Proofs.Token.Tiling

/-!
# Layout

What stands between the tokens of a text can be replaced by other white space and comments, if there
is something between each two of them and it starts with white space: the tokens stay the same.  For
each token needs no more than to be told where it ends (`Spelled.cut`), and what follows is skipped.
-/

namespace Minilang

open List

variable {toks : Tokens}

namespace Lexer

/-- White space, and comments that end with their lines. -/
inductive Layout : Bytes → Prop
  | nil : Layout []
  | space {b : UInt8} {gap : Bytes} (hb : isSpace b = true) (h : Layout gap) : Layout (b :: gap)
  | comment {body gap : Bytes} (hbody : Bytes.newline ∉ body) (h : Layout gap) :
    Layout (47 :: 47 :: (body ++ Bytes.newline :: gap))

/-- Tokens as they are written one after the other behind a text. -/
inductive Laid : Bytes → Tokens → Bytes → Prop
  | nil {before} : Laid before [] []
  | cons {before lexeme gap text t toks}
    (ht : Cut t lexeme (gap ++ text)) (hgap : Layout gap)
    (h : Laid (before ++ (lexeme ++ gap)) toks text) :
    Laid before (⟨.ofLength (.behind before) lexeme.length, t⟩ :: toks) (lexeme ++ (gap ++ text))

variable {before text body gap : Bytes}

lemma skipFrom_comment (h : Bytes.newline ∉ body) (before rest : Bytes) :
    skipFrom true (.behind before) (body ++ Bytes.newline :: rest) =
      skipFrom false (.behind (before ++ (body ++ [Bytes.newline]))) rest := by
  induction body generalizing before with
  | nil => simp [skipFrom, Pos.behind_concat]
  | cons b body ih =>
    obtain ⟨hb, hbody⟩ := not_or.mp (mt mem_cons.mpr h)
    rw [cons_append, skipFrom, decide_eq_true (symm hb), ← Pos.behind_concat, ih hbody]
    simp

lemma Layout.skipFrom_append (h : Layout gap) (before rest : Bytes) :
    skipFrom false (.behind before) (gap ++ rest) =
    skipFrom false (.behind (before ++ gap)) rest := by
  induction h generalizing before with
  | nil => simp
  | @space b gap hb _ ih =>
    rw [cons_append, skipFrom, if_pos hb, ← Pos.behind_concat, ih]
    simp
  | @comment body gap hbody _ ih =>
    have hslash : Bytes.newline ∉ 47 :: body := not_mem_cons_of_ne_of_not_mem (by decide) hbody
    have hcomment := skipFrom_comment hslash (before ++ [47]) (gap ++ rest)
    rw [ih, Pos.behind_concat] at hcomment
    simpa [skipFrom, isSpace] using hcomment

namespace Laid

lemma join {t : Token} {lexeme : Bytes} (ht : Cut t lexeme text)
    (h : Laid (before ++ lexeme) toks text) :
    Laid before (⟨.ofLength (.behind before) lexeme.length, t⟩ :: toks) (lexeme ++ text) :=
  have hlaid : Laid (before ++ (lexeme ++ [])) toks text := by rwa [append_nil]
  .cons ht .nil hlaid

variable (h : Laid before toks text)

include h

lemma skip (p : Pos) : skipFrom false p text = ⟨p, text⟩ := by
  cases h with
  | nil => rfl
  | cons ht _ _ => exact ht.skip p

lemma length_le : toks.length ≤ text.length := by
  induction h with
  | nil => exact le_refl _
  | cons ht _ _ ih =>
    have := length_pos_of_ne_nil ht.spelled.ne_nil
    simp only [length_cons, length_append]
    omega

lemma scanFrom_eq {n : Nat} (hn : toks.length < n) {done : Tokens} {c : Cursor}
    (hc : Lexer.skip c = ⟨.behind before, text⟩) :
    scanFrom n done c = ⟨done.reverse ++ (toks ++ [endToken (before ++ text)]), none⟩ := by
  induction h generalizing n done c with
  | nil =>
    obtain ⟨n, rfl⟩ := Nat.exists_eq_add_of_lt hn
    simp [scanFrom, next, hc, tokenAt, endToken]
  | @cons before lexeme gap text t toks ht hgap h ih =>
    obtain ⟨n, rfl⟩ := Nat.exists_eq_add_of_lt hn
    have hskip : Lexer.skip ⟨.behind (before ++ lexeme), gap ++ text⟩ =
        ⟨.behind (before ++ (lexeme ++ gap)), text⟩ := by
      rw [Lexer.skip, hgap.skipFrom_append, append_assoc, h.skip]
    rw [scanFrom, next, hc, ht.tokenAt]
    simp only [token, Cursor.advance, if_neg ht.spelled.kind_ne_eof, drop_left]
    rw [← Pos.behind_append before ht.spelled.line, ih (by simp; omega) hskip]
    simp

lemma tokenize_eq (hbefore : Layout before) :
    tokenize (before ++ text) = .ok (toks ++ [endToken (before ++ text)]) := by
  have hskip : Lexer.skip ⟨.start, before ++ text⟩ = ⟨.behind before, text⟩ :=
    (hbefore.skipFrom_append [] text).trans (h.skip _)
  have hn : toks.length < (before ++ text).length + 1 := by
    have := h.length_le
    rw [length_append]
    omega
  simp only [tokenize, scan, h.scanFrom_eq hn hskip, reverse_nil, nil_append]

end Laid

end Lexer

/-! ### Texts with spaces -/

/-- Tokens with a blank after each. -/
def spaced (ts : List Token) : Bytes :=
  ts.flatMap fun t => t.text ++ [32]

namespace Lexer

lemma spelled_keyword {k : TokenKind} (h : k ∈ TokenKind.keywords) :
    Spelled ⟨k, k.text⟩ k.text := by
  have hkeywords : ∀ k ∈ TokenKind.keywords, isWord k.text = true ∧ wordKind k.text = k := by decide
  obtain ⟨hword, hkind⟩ := hkeywords k h
  have hspelled := Spelled.word hword
  rwa [hkind] at hspelled

variable {text : Bytes} {ts : List Token}

lemma spelled_name (h : isName text = true) : Spelled ⟨.ident, text⟩ text := by
  simp only [isName, Bool.and_eq_true, decide_eq_true_eq] at h
  rw [← h.2]
  exact .word h.1

lemma laid_spaced {before : Bytes}
    (h : ∀ t ∈ ts, Spelled t t.text) (hlaid : Laid (before ++ spaced ts) toks text) :
    ∃ pre, Laid before (pre ++ toks) (spaced ts ++ text) ∧ pre.map Located.val = ts := by
  induction ts generalizing before with
  | nil => exact ⟨[], by simpa [spaced] using hlaid, rfl⟩
  | cons t ts ih =>
    obtain ⟨ht, hts⟩ := forall_mem_cons.mp h
    obtain ⟨pre, hpre, hvals⟩ :=
      @ih (before ++ (t.text ++ [32])) hts (by simpa [spaced] using hlaid)
    have hcons := Laid.cons (ht.cut fun b hb => by cases hb; rfl) (.space rfl .nil) hpre
    exact ⟨_ :: pre, by simpa [spaced] using hcons, by rw [map_cons, hvals]⟩

lemma tokenize_spaced (h : ∀ t ∈ ts, Spelled t t.text) :
    ∃ toks, tokenize (spaced ts) = .ok toks ∧ toks.map Located.val = ts ++ [⟨.eof, []⟩] := by
  obtain ⟨toks, hlaid, hvals⟩ := @laid_spaced [] [] ts [] h .nil
  rw [append_nil, append_nil] at hlaid
  exact ⟨_, hlaid.tokenize_eq .nil, by rw [map_append, hvals]; rfl⟩

/-! ### Texts with other gaps -/

/-- What each token of a text is written as there, with a gap behind each. -/
def relaid (text : Bytes) (toks : Tokens) (gaps : List Bytes) : Bytes :=
  (List.zipWith (fun t gap => (SourceFile.mk [] text).slice t.span ++ gap) toks gaps).flatten

lemma laid_relaid (before : Bytes) {gaps : List Bytes}
    (hwritten : ∀ t ∈ toks, Written text t) (hlength : toks.length = gaps.length)
    (hgaps : ∀ gap ∈ gaps, Layout gap ∧ Apart gap) (hbetween : ∀ gap ∈ gaps.dropLast, gap ≠ []) :
    ∃ toks', Laid before toks' (relaid text toks gaps) ∧ toks'.map Located.val =
    toks.map Located.val := by
  induction toks generalizing gaps before with
  | nil => exact ⟨[], .nil, rfl⟩
  | cons t toks ih =>
    cases gaps with
    | nil => cases hlength
    | cons gap gaps =>
      obtain ⟨ht, htoks⟩ := forall_mem_cons.mp hwritten
      obtain ⟨hgap, hrest⟩ := forall_mem_cons.mp hgaps
      have hbetween' : ∀ gap ∈ gaps.dropLast, gap ≠ [] := by
        cases gaps with
        | nil => simp
        | cons gap' gaps => exact (forall_mem_cons.mp hbetween).2
      have hapart : Apart (gap ++ relaid text toks gaps) := by
        cases gap with
        | cons b gap => exact hgap.2
        | nil =>
          -- Only the last gap may be empty.
          cases gaps with
          | nil => simpa [relaid] using hgap.2
          | cons gap' gaps => exact absurd rfl (hbetween [] mem_cons_self)
      obtain ⟨toks', hlaid, hvals⟩ :=
        ih (before ++ ((SourceFile.mk [] text).slice t.span ++ gap)) htoks
        (Nat.succ.inj hlength) hrest hbetween'
      have hcons := Laid.cons ((ht.slice []).cut hapart) hgap.1 hlaid
      rw [← append_assoc _ gap] at hcons
      exact ⟨_, hcons, by rw [map_cons, hvals, map_cons]⟩

end Lexer

/-- **Layout does not matter.**  Each gap between the tokens of a text may be replaced by another
one that starts with white space, and what stands before and behind them by any layout or by
nothing. -/
theorem tokenize_relaid {text first : Bytes} {toks : Tokens} {gaps : List Bytes}
    (h : tokenize text = .ok toks) (hfirst : Lexer.Layout first)
    (hgaps : ∀ gap ∈ gaps, Lexer.Layout gap ∧ Lexer.Apart gap)
    (hbetween : ∀ gap ∈ gaps.dropLast, gap ≠ []) (hlength : toks.length = gaps.length + 1) :
    ∃ toks', tokenize (first ++ Lexer.relaid text toks gaps) = .ok toks' ∧
      toks'.map Located.val = toks.map Located.val := by
  obtain ⟨init, rfl, hinit⟩ := Lexer.covered_of_tokenize h
  have hlength' : init.length = gaps.length := by simpa using hlength
  obtain ⟨toks', hlaid, hvals⟩ := Lexer.laid_relaid first hinit.written hlength' hgaps hbetween
  have hrelaid : Lexer.relaid text (init ++ [Lexer.endToken text]) gaps =
      Lexer.relaid text init gaps := by
    rw [Lexer.relaid, ← append_nil gaps, zipWith_append hlength']
    simp [Lexer.relaid]
  rw [hrelaid]
  exact ⟨_, hlaid.tokenize_eq hfirst, by rw [map_append, hvals, map_append]; rfl⟩

/-- A line comment and a tabulator instead of nothing, and nothing instead of a comment. -/
theorem tokenize_relaid_sum : ∃ toks toks', tokenize "a+1.5//c" = .ok toks ∧
    tokenize "\na //\"\n+\t1.5" = .ok toks' ∧ toks'.map Located.val = toks.map Located.val := by
  have htokens : ((tokenize "a+1.5//c").toOption.map fun toks =>
      (toks.length, "\n" ++ Lexer.relaid "a+1.5//c" toks [" //\"\n", "\t", ""])) =
      some (4, ("\na //\"\n+\t1.5" : Bytes)) := by
    decide +kernel
  cases h : tokenize "a+1.5//c" with
  | error e =>
    rw [h] at htokens
    cases htokens
  | ok toks =>
    rw [h] at htokens
    obtain ⟨hlength, htext⟩ := Prod.mk.inj (Option.some.inj htokens)
    have hfirst : Lexer.Layout "\n" := .space rfl .nil
    have hcomment : Lexer.Layout " //\"\n" :=
      .space rfl (@Lexer.Layout.comment "\"" _ (by decide) .nil)
    have hgaps : ∀ gap ∈ ([" //\"\n", "\t", ""] : List Bytes), Lexer.Layout gap ∧
        Lexer.Apart gap := by
      simp only [List.forall_mem_cons, List.not_mem_nil, false_implies, implies_true, and_true]
      exact ⟨⟨hcomment, by decide +kernel⟩, ⟨.space rfl .nil, by decide +kernel⟩,
        ⟨.nil, by decide +kernel⟩⟩
    obtain ⟨toks', htoks⟩ := tokenize_relaid h hfirst hgaps (by decide +kernel) hlength
    rw [htext] at htoks
    exact ⟨toks, toks', rfl, htoks⟩

end Minilang
