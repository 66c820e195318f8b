import Minilang.Proofs.Tree.Precedence

/-!
# Chains of positions

The lexer takes the positions of `x.0.1.2` two at a time for float literals, and one that is left
over for an integer literal.  The parser takes the float literals apart again, so that each position
gives a selection and each name is placed at its own digits.
-/

namespace Minilang

open List

/-- Positions one after the other, with a point in front of each. -/
def positions (ns : List Bytes) : Bytes :=
  ns.flatMap (46 :: ·)

/-- The tokens of positions behind a text. -/
def positionTokens (before : Bytes) : List Bytes → Tokens
  | [] => []
  | [n] => [⟨.ofLength (.behind before) 1, .fixed .dot⟩,
      ⟨.ofLength (.behind (before ++ [46])) n.length, ⟨.int, n⟩⟩]
  | n :: m :: ns => ⟨.ofLength (.behind before) 1, .fixed .dot⟩ ::
      ⟨.ofLength (.behind (before ++ [46])) (n ++ 46 :: m).length, ⟨.float, n ++ 46 :: m⟩⟩ ::
      positionTokens (before ++ 46 :: (n ++ 46 :: m)) ns

/-- The names that positions behind a text are read as, each with the span of its own digits. -/
def positionNames (before : Bytes) : List Bytes → List Name
  | [] => []
  | n :: ns => ⟨.ofLength (.behind (before ++ [46])) n.length, Decimal.ofNat (Decimal.value n)⟩ ::
      positionNames (before ++ 46 :: n) ns

/-- The beginning of a main function. -/
def mainOpening : List Token :=
  [.fixed .kwFn, .ident "main", .fixed .lparen, .fixed .rparen, .fixed .lbrace]

/-- Selections of fields from an expression, one after the other. -/
inductive Selects (x : Expr Unit) : List Name → Expr Unit → Prop
  | none : Selects x [] x
  | field {names y name span} (h : Selects x names y) :
    Selects x (names ++ [name]) (.field span () y name)

lemma selects_selectAll (x : Expr Unit) (names : List Name) :
    Selects x names (Parser.selectAll x names) := by
  induction names using reverseRecOn with
  | nil => exact .none
  | append_singleton names name ih =>
    rw [Parser.selectAll, foldl_append]
    exact .field ih

lemma length_le_positionTokens (before : Bytes) (ns : List Bytes) :
    ns.length ≤ (positionTokens before ns).length := by
  fun_induction positionTokens before ns with
  | case1 | case2 => simp
  | case3 before n m ns ih => simpa using ih

lemma slice_positionNames {file : SourceFile} {before rest : Bytes} {ns : List Bytes}
    (hns : ∀ n ∈ ns, Digits n) (htext : file.text = before ++ (positions ns ++ rest)) :
    (positionNames before ns).map (file.slice ·.span) = ns := by
  induction ns generalizing before with
  | nil => rfl
  | cons n ns ih =>
    obtain ⟨hn, hns⟩ := forall_mem_cons.mp hns
    have hlength := length_pos_of_ne_nil hn.1
    have hcut : file.text = (before ++ [46]) ++ (n ++ (positions ns ++ rest)) := by
      simpa [positions] using htext
    rw [positionNames, map_cons, ih hns (by simpa using hcut), SourceFile.slice_eq hcut rfl]
    simp [Span.ofLength, Pos.shift, Pos.behind]
    omega

/-! ### Tokens -/

variable {toks : Tokens}

namespace Lexer

variable {before rest x n m : Bytes} {ns : List Bytes}

lemma symbol?_point {d : UInt8} (hd : d ≠ 46) (rest : Bytes) :
    symbol? (46 :: d :: rest) = some .dot := by
  have hne : (46 == d) = false := beq_eq_false_iff_ne.mpr hd.symm
  have htwo : TokenKind.dotDot.text.isPrefixOf (46 :: d :: rest) = false := by
    show (true && ((46 == d) && _)) = false
    rw [hne]
    rfl
  simp only [symbol?, symbols, cons_append, find?_cons, htwo]
  rfl

lemma cut_point (hn : Digits n) (rest : Bytes) : Cut (.fixed .dot) [46] (n ++ rest) := by
  obtain ⟨d, more, rfl⟩ := exists_cons_of_ne_nil hn.1
  have hd := of_isDigit (hn.2 d mem_cons_self)
  have hmem : TokenKind.dot ∈ symbols := by decide
  exact ⟨.symbol hmem, by simpa using hd.2.1,
    fun p => Spelled.tokenAt_symbol hmem (symbol?_point hd.2.2.2 _) p⟩

lemma laid_positions (hns : ∀ n ∈ ns, Digits n)
    (hrest : ∀ b ∈ rest.head?, Decimal.isDigit b = false ∧ b ≠ 46 ∧ b ≠ 47)
    (h : Laid (before ++ positions ns) toks rest) :
    Laid before (positionTokens before ns ++ toks) (positions ns ++ rest) := by
  fun_induction positionTokens before ns with
  | case1 before => simpa [positions] using h
  | case2 before n =>
    have hn := hns n mem_cons_self
    have hint : Laid (before ++ [46]) _ (n ++ rest) :=
      .join (Spelled.cut_int hn hrest) (by simpa [positions] using h)
    simpa [positions] using hint.join (cut_point hn rest)
  | case3 before n m ns ih =>
    obtain ⟨hn, hm, hns⟩ : Digits n ∧ Digits m ∧ ∀ n ∈ ns, Digits n := by simpa using hns
    have hfollow : ∀ b ∈ (positions ns ++ rest).head?, Decimal.isDigit b = false ∧ b ≠ 47 := by
      cases ns with
      | nil => exact fun b hb => ⟨(hrest b hb).1, (hrest b hb).2.2⟩
      | cons => exact fun b hb => by cases hb; decide
    have hmore := ih hns (by simpa [positions] using h)
    have hfloat : Laid (before ++ [46]) _ ((n ++ 46 :: m) ++ (positions ns ++ rest)) :=
      .join (Spelled.cut_float hn hm hfollow) (by simpa using hmore)
    rw [append_assoc] at hfloat
    simpa [positions] using hfloat.join (cut_point hn _)

lemma cut_name (hx : isName x = true) (hne : ns ≠ []) (rest : Bytes) :
    Cut (.ident x) x (positions ns ++ rest) := by
  obtain ⟨n, ns, rfl⟩ := exists_cons_of_ne_nil hne
  simp only [isName, Bool.and_eq_true, decide_eq_true_eq] at hx
  refine ⟨spelled_name (by simp [isName, hx]), by simp [positions], fun p => ?_⟩
  rw [tokenAt_word hx.1 (fun b hb => by cases hb; rfl) p, hx.2]
  rfl

lemma tokenize_positions (hx : isName x = true) (hne : ns ≠ []) (hns : ∀ n ∈ ns, Digits n) :
    ∃ pre span close stop,
    tokenize (spaced mainOpening ++ (x ++ (positions ns ++ [125]))) =
      .ok (pre ++ ⟨span, .ident x⟩ :: (positionTokens (spaced mainOpening ++ x) ns ++
        [⟨close, .fixed .rbrace⟩, ⟨stop, ⟨.eof, []⟩⟩])) ∧ pre.map Located.val = mainOpening := by
  have hnone : ∀ t ∈ ([] : List Token), Spelled t t.text := by simp
  have hall : ∀ t ∈ mainOpening ++ [Token.fixed .rbrace], Spelled t t.text :=
    spelled_mainTokens hnone
  obtain ⟨hopening, hbrace⟩ := forall_mem_append.mp hall
  have hclose : Laid (spaced mainOpening ++ x ++ positions ns) _ ([125] ++ []) :=
    .join ((hbrace _ mem_cons_self).cut fun b hb => by cases hb) .nil
  have hrest : ∀ b ∈ ([125] ++ [] : Bytes).head?, Decimal.isDigit b = false ∧ b ≠ 46 ∧ b ≠ 47 :=
    fun b hb => by cases hb; decide
  have hvalue := (laid_positions hns hrest hclose).join (cut_name hx hne _)
  obtain ⟨pre, hpre, hvals⟩ := @laid_spaced _ _ _ [] hopening hvalue
  have htokenize := hpre.tokenize_eq .nil
  simp only [append_assoc, cons_append] at htokenize
  exact ⟨pre, _, _, _, htokenize, hvals⟩

end Lexer

/-! ### Runs of the parser -/

namespace Parser

variable {β γ : Type} {inner : Inner} {s : State} {before n m : Bytes} {x : Expr Unit}
  {close : Located Token} {rest : Tokens} {prev : Span}

lemma run_map (g : β → γ) (p : P β) (s : State) :
    (g <$> p) s = (p s).bind fun res => .ok (g res.1, res.2) := rfl

lemma run_pure (a : β) (s : State) : (pure a : P β) s = .ok (a, s) := rfl

lemma run_get (s : State) : (get : P State) s = .ok (s, s) := rfl

lemma run_kind (s : State) : kind s = .ok (s.tok.val.kind, s) := rfl

lemma run_next (s : State) : next s = .ok (s.tok, s.next) := rfl

attribute [local simp] run_bind run_map run_pure run_get run_kind run_next Except.bind State.next

lemma run_position (hn : Digits n) (hlt : Decimal.value n < 2 ^ 63) (span : Span) (s : State) :
    position span n s = .ok (⟨span, Decimal.ofNat (Decimal.value n)⟩, s) := by
  rw [position, Decimal.readInt?_digits hn.1 hn.2, if_pos hlt]
  rfl

lemma selectors_int (hn : Digits n) (hlt : Decimal.value n < 2 ^ 63) {span : Span} :
    selectors ⟨⟨span, ⟨.int, n⟩⟩, close :: rest, prev⟩ =
      .ok ([⟨span, Decimal.ofNat (Decimal.value n)⟩], ⟨close, rest, span⟩) := by
  simp [selectors, run_position hn hlt]

lemma selectors_float (hn : Digits n) (hm : Digits m) (hlt : Decimal.value n < 2 ^ 63)
    (hlt' : Decimal.value m < 2 ^ 63) {span : Span}
    (hspan : span = .ofLength (.behind before) (n ++ 46 :: m).length) :
    selectors ⟨⟨span, ⟨.float, n ++ 46 :: m⟩⟩, close :: rest, prev⟩ =
      .ok ([⟨.ofLength (.behind before) n.length, Decimal.ofNat (Decimal.value n)⟩,
        ⟨.ofLength (.behind (before ++ (n ++ [46]))) m.length, Decimal.ofNat (Decimal.value m)⟩],
        ⟨close, rest, span⟩) := by
  have hlength := length_pos_of_ne_nil hn.1
  have hlength' := length_pos_of_ne_nil hm.1
  have hline : Bytes.newline ∉ n ++ [46] := by
    simp only [mem_append, not_or]
    exact ⟨fun h => (by cases hn.2 _ h), by decide⟩
  rw [Pos.behind_append before hline]
  simp [selectors, run_position hn hlt, run_position hm hlt', cutPoint_eq hn, hspan,
    Span.ofLength, Pos.shift]
  omega

variable (hclose : close.val.kind = .rbrace)

include hclose

lemma suffixes_stop (k : Nat) :
    suffixes inner (k + 1) x ⟨close, rest, prev⟩ = .ok (x, ⟨close, rest, prev⟩) := by
  simp [suffixes, hclose]

omit hclose in
lemma suffixes_point {t : Located Token} {names : List Name} {span : Span} {s' : State}
    (h : selectors ⟨t, rest, span⟩ = .ok (names, s')) (k : Nat) :
    suffixes inner (k + 1) x ⟨⟨span, .fixed .dot⟩, t :: rest, prev⟩ =
    suffixes inner k (selectAll x names) s' := by
  simp [suffixes, h]

/-- Each round of the loop reads a point and what follows it. -/
theorem suffixes_positions {ns : List Bytes} (hns : ∀ n ∈ ns, Digits n ∧ Decimal.value n < 2 ^ 63)
    {k : Nat} (hk : ns.length < k)
    (hs : s.tok :: s.rest = positionTokens before ns ++ close :: rest) :
    ∃ prev, suffixes inner k x s =
    .ok (selectAll x (positionNames before ns), ⟨close, rest, prev⟩) := by
  obtain ⟨k, rfl⟩ := Nat.exists_eq_add_of_lt hk
  obtain ⟨tok, rest', prev⟩ := s
  fun_induction positionTokens before ns generalizing k x tok rest' prev with
  | case1 before =>
    cases hs
    exact ⟨prev, suffixes_stop hclose _⟩
  | case2 before n =>
    cases hs
    obtain ⟨hn, hlt⟩ := hns n mem_cons_self
    have hfuel : [n].length + k + 1 = k + 1 + 1 := by simp; omega
    rw [hfuel]
    exact ⟨_, (suffixes_point (selectors_int hn hlt) _).trans (suffixes_stop hclose _)⟩
  | case3 before n m ns ih =>
    rw [cons_append, cons_append] at hs
    obtain ⟨rfl, rfl⟩ := cons.inj hs
    obtain ⟨⟨hn, hlt⟩, ⟨hm, hlt'⟩, hns⟩ : (Digits n ∧ Decimal.value n < 2 ^ 63) ∧
      (Digits m ∧ Decimal.value m < 2 ^ 63) ∧ ∀ n ∈ ns, Digits n ∧
      Decimal.value n < 2 ^ 63 := by simpa using hns
    obtain ⟨t, ts, hts⟩ := exists_cons_of_ne_nil
      (append_ne_nil_of_right_ne_nil (positionTokens (before ++ 46 :: (n ++ 46 :: m)) ns)
        (cons_ne_nil close rest))
    have hfuel : (n :: m :: ns).length + k + 1 = ns.length + (k + 1) + 1 + 1 := by simp; omega
    have hnames : positionNames before (n :: m :: ns) =
        ⟨.ofLength (.behind (before ++ [46])) n.length, Decimal.ofNat (Decimal.value n)⟩ ::
        ⟨.ofLength (.behind (before ++ [46] ++ (n ++ [46]))) m.length, Decimal.ofNat
          (Decimal.value m)⟩ ::
        positionNames (before ++ 46 :: (n ++ 46 :: m)) ns := by
      simp [positionNames]
    rw [hfuel, hts, suffixes_point (selectors_float hn hm hlt hlt' rfl), hnames]
    exact ih hns (k + 1) (by omega) t ts _ hts.symm

lemma expr_positions {ns : List Bytes} (hne : ns ≠ [])
    (hns : ∀ n ∈ ns, Digits n ∧ Decimal.value n < 2 ^ 63) (hlimit : ns.length < inner.limit)
    {name : Bytes} {span : Span} :
    ∃ prev', expr inner true ⟨⟨span, .ident name⟩, positionTokens before ns ++ close :: rest,
      prev⟩ =
      .ok (selectAll (.var span () name) (positionNames before ns), ⟨close, rest, prev'⟩) := by
  obtain ⟨dot, toks, htoks, hdot⟩ :
    ∃ dot toks, positionTokens before ns ++ close :: rest = dot :: toks ∧
      dot.val.kind = .dot := by
    fun_cases positionTokens before ns with
    | case1 => exact absurd rfl hne
    | case2 | case3 => exact ⟨_, _, rfl, rfl⟩
  obtain ⟨prev', hrun⟩ :=
    @suffixes_positions inner ⟨dot, toks, span⟩ _ (.var span () name) _ _ hclose _ hns _
    hlimit htoks.symm
  obtain ⟨l, hl⟩ := Nat.exists_eq_add_of_lt hlimit
  rw [htoks]
  have hpostfix : postfixExpr inner true ⟨⟨span, .ident name⟩, dot :: toks, prev⟩ =
      .ok (selectAll (.var span () name) (positionNames before ns), ⟨close, rest, prev'⟩) := by
    simp [postfixExpr, primary, startsStruct, kindAfter, hdot, hrun]
  have hops : ∀ x, operations inner true 1 inner.limit x ⟨close, rest, prev'⟩ =
      .ok (x, ⟨close, rest, prev'⟩) := by
    intro x
    rw [hl]
    simp [operations, hclose]
    rfl
  have hbinary : binary inner true 1 ⟨⟨span, .ident name⟩, dot :: toks, prev⟩ =
      .ok (selectAll (.var span () name) (positionNames before ns), ⟨close, rest, prev'⟩) := by
    simp [binary, unary, hpostfix, hops]
  simp [expr, hbinary, hclose]

/-- A main function is read with the value of its body. -/
theorem program_main {stop tok : Located Token} (hstop : stop.val.kind = .eof)
    (htok : tok.val.kind = .ident) {n : Nat} {span prev' : Span}
    (hrun : expr (nested n) true ⟨tok, toks, span⟩ = .ok (x, ⟨close, [stop], prev'⟩))
    (s1 s2 s3 s4 : Span) :
    program (nested (n + 1)) ⟨⟨s1, .fixed .kwFn⟩, ⟨s2, .ident "main"⟩ :: ⟨s3, .fixed .lparen⟩ ::
        ⟨s4, .fixed .rparen⟩ :: ⟨span, .fixed .lbrace⟩ :: tok :: toks, prev⟩ =
      .ok (⟨s1.through close.span, [.func ⟨s1.through close.span, ⟨s2, "main"⟩, [], none,
        .mk (span.through close.span) () [] (some x)⟩]⟩, ⟨stop, [], close.span⟩) := by
  simp [program, decls, decl, funcDecl, name, expect, signature, list, elements, accept, block,
    items, item, nested, spanFrom, hrun, htok, hclose, hstop]

end Parser

/-- **Chains of positions are read as written.**  Positions one after the other behind a name are
read as selections of the fields with these numbers one from the other, and each number is placed at
its own digits. -/
theorem parse_positions {x : Bytes} {ns : List Bytes} (hx : Lexer.isName x = true) (hne : ns ≠ [])
    (hns : ∀ n ∈ ns, Digits n ∧ Decimal.value n < 2 ^ 63) :
    ∃ p f body span value, parse (spaced mainOpening ++ (x ++ (positions ns ++ [125]))) = .ok p ∧
      p.decls = [.func f] ∧ f.body = .mk body () [] (some value) ∧
      Selects (.var span () x) (positionNames (spaced mainOpening ++ x) ns) value ∧
      ∀ name, (positionNames (spaced mainOpening ++ x) ns).map (fun n =>
        (SourceFile.mk name (spaced mainOpening ++ (x ++ (positions ns ++ [125])))).slice n.span) =
        ns := by
  have hdigits : ∀ n ∈ ns, Digits n := fun n hn => (hns n hn).1
  have hslice : ∀ name, (positionNames (spaced mainOpening ++ x) ns).map (fun n =>
      (SourceFile.mk name (spaced mainOpening ++ (x ++ (positions ns ++ [125])))).slice n.span) =
        ns :=
    fun name => @slice_positionNames _ _ [125] _ hdigits (by simp)
  obtain ⟨pre, span, close, stop, htokenize, hpre⟩ := Lexer.tokenize_positions hx hne hdigits
  obtain ⟨⟨s1, _⟩, pre1, rfl, rfl, h1⟩ := map_eq_cons_iff.mp hpre
  obtain ⟨⟨s2, _⟩, pre2, rfl, rfl, h2⟩ := map_eq_cons_iff.mp h1
  obtain ⟨⟨s3, _⟩, pre3, rfl, rfl, h3⟩ := map_eq_cons_iff.mp h2
  obtain ⟨⟨s4, _⟩, pre4, rfl, rfl, h4⟩ := map_eq_cons_iff.mp h3
  obtain ⟨⟨s5, _⟩, pre5, rfl, rfl, h5⟩ := map_eq_cons_iff.mp h4
  obtain rfl := map_eq_nil_iff.mp h5
  simp only [cons_append, nil_append] at htokenize
  have hlimit : ns.length < (Parser.nested
      ((positionTokens (spaced mainOpening ++ x) ns).length + 7)).limit := by
    have := length_le_positionTokens (spaced mainOpening ++ x) ns
    rw [Parser.limit_nested]
    omega
  obtain ⟨prev', hrun⟩ := @Parser.expr_positions _ (spaced mainOpening ++ x) ⟨close, .fixed .rbrace⟩
    [⟨stop, ⟨.eof, []⟩⟩] s5 rfl ns hne hns hlimit x span
  have hprogram : Parser.program _ ⟨_, _, s1⟩ = _ :=
    Parser.program_main rfl rfl rfl hrun s1 s2 s3 s4
  refine ⟨⟨s1.through close, [.func
    ⟨s1.through close, ⟨s2, "main"⟩, [], none, .mk (s5.through close) () [] _⟩]⟩,
    _, _, span, _, ?_, rfl, rfl, selects_selectAll _ _, hslice⟩
  rw [parse, htokenize]
  simp only [parseTokens]
  rw [if_pos (by simp [getLast?_cons, getLast?_append])]
  simp only [Nat.add_assoc, Nat.reduceAdd] at hprogram
  simp only [length_cons, length_append, length_nil, Nat.add_assoc, Nat.reduceAdd,
    StateT.run', hprogram]
  rfl

/-- A chain of odd length with a leading zero. -/
theorem parse_positions_three : ∃ p f body span value,
    parse "fn main ( ) \x7b x.007.1.23\x7d" = .ok p ∧ p.decls = [.func f] ∧
      f.body = .mk body () [] (some value) ∧
      Selects (.var span () "x")
        [⟨⟨⟨16, 1, 17⟩, ⟨18, 1, 19⟩⟩, "7"⟩, ⟨⟨⟨20, 1, 21⟩, ⟨20, 1, 21⟩⟩, "1"⟩,
          ⟨⟨⟨22, 1, 23⟩, ⟨23, 1, 24⟩⟩, "23"⟩] value := by
  obtain ⟨p, f, body, span, value, hparse, hdecls, hbody, hselects, -⟩ :=
    @parse_positions "x" ["007", "1", "23"] (by decide) (by simp) (by
      simp only [forall_mem_cons, Digits]
      decide +kernel)
  have hnames : positionNames (spaced mainOpening ++ "x") ["007", "1", "23"] =
      [⟨⟨⟨16, 1, 17⟩, ⟨18, 1, 19⟩⟩, "7"⟩, ⟨⟨⟨20, 1, 21⟩, ⟨20, 1, 21⟩⟩, "1"⟩,
        ⟨⟨⟨22, 1, 23⟩, ⟨23, 1, 24⟩⟩, "23"⟩] := by
    decide +kernel
  rw [hnames] at hselects
  exact ⟨p, f, body, span, value, hparse, hdecls, hbody, hselects⟩

end Minilang
