import Minilang.Proofs.Tree.Parallel
import Minilang.Proofs.Tree.Parsed

/-!
# Optional semicolons

A block is read as the same block with and without a semicolon after a conditional or a block in it,
if what follows does not start like a call, a subscript or a subtraction.
-/

namespace Minilang.Parser

open List Sides

/-! ### Items -/

variable {structs : Bool} {u s s' : State} {x : Expr Unit} {inner : Inner} {n : Nat} {i : Item}
  {xs ss : List (Stmt Unit)}

/-- An expression can begin with such a token. -/
def startsExpr (k : TokenKind) : Bool :=
  k ∈ [.int, .float, .string, .kwTrue, .kwFalse, .ident, .lparen, .lbracket, .lbrace, .kwIf,
    .kwFn, .minus, .bang]

lemma startsExpr_of_run (h : (nested n).expr structs s = .ok (x, u)) :
    startsExpr s.tok.val.kind = true := by
  cases n with
  | zero => cases h
  | succ n =>
    obtain ⟨⟨span, kind, text⟩, rest, prev⟩ := s
    cases kind <;> first | rfl | cases h

lemma item_eq (h : startsExpr s.tok.val.kind = true) :
    item inner s = (inner.expr true >>= exprItem) s := by
  obtain ⟨⟨span, kind, text⟩, rest, prev⟩ := s
  cases kind <;> first | rfl | cases h

lemma item_semicolon (h : (nested n).expr true s = .ok (x, u))
    (hk : u.tok.val.kind = .semicolon) : item (nested n) s = .ok (.stmt (.expr x), u.next) := by
  rw [item_eq (startsExpr_of_run h), run_bind, h]
  obtain ⟨⟨span, kind, text⟩, rest, prev⟩ := u
  obtain rfl : kind = .semicolon := hk
  rfl

lemma item_blockLike (h : (nested n).expr true s = .ok (x, u)) (hx : x.isBlockLike = true)
    (hk : stops u.tok.val.kind = true) (hsemi : u.tok.val.kind ≠ .semicolon) :
    item (nested n) s = .ok (.stmt (.expr x), u) := by
  rw [item_eq (startsExpr_of_run h), run_bind, h]
  change exprItem x u = _
  obtain ⟨⟨span, kind, text⟩, rest, prev⟩ := u
  have hrun : exprItem x ⟨⟨span, kind, text⟩, rest, prev⟩ =
      (if x.isBlockLike then pure (.stmt (.expr x)) else unexpected "; or \x7d")
      ⟨⟨span, kind, text⟩, rest, prev⟩ := by
    cases kind <;> first | rfl | cases hk; done | exact absurd rfl hsemi
  rw [hrun, hx]
  rfl

/-- The item is a part of the block. -/
def Item.isPart : Item → Bool
  | .finish value => value.isSome
  | .stmt _ => true
  | .skip => false

lemma stops_of_item (h : item (nested n) s = .ok (i, u)) (hi : i.isPart = true)
    (hfirst : s.tok.val.kind ∉ [.lparen, .lbracket, .minus]) :
    stops s.tok.val.kind = true ∧ s.tok.val.kind ≠ .semicolon := by
  obtain ⟨⟨span, kind, text⟩, rest, prev⟩ := s
  cases n <;> cases kind <;>
    first | cases h <;> cases hi | simp at hfirst; done | exact ⟨rfl, by simp⟩

/-- The statements of an item that is not the end of its block. -/
def Item.stmts? : Item → Option (List (Stmt Unit))
  | .finish _ => none
  | .stmt s => some [s]
  | .skip => some []

lemma items_step (hi : item inner s = .ok (i, s')) (hxs : i.stmts? = some xs) (start : Span)
    (m : Nat) (done : List (Stmt Unit)) :
    items inner start (m + 1) done s = items inner start m (xs.reverse ++ done) s' := by
  rw [items, run_bind, hi]
  cases i <;> cases hxs <;> rfl

/-- There are only statements and semicolons between two places of a block. -/
inductive Passes (inner : Inner) : (s : State) → (ss : List (Stmt Unit)) → (s' : State) → Prop where
  | refl {s : State} : Passes inner s [] s
  | step {s s' s'' : State} {i : Item} {xs ss : List (Stmt Unit)} (hi : item inner s = .ok (i, s'))
    (hxs : i.stmts? = some xs) (h : Passes inner s' ss s'') : Passes inner s (xs ++ ss) s''

lemma moves_item (hs : s.Ended) (h : item (nested n) s = .ok (i, s')) : Moves 1 s s' :=
  (tracks_item (K := fun _ => True) (tracks_nested_self (v := ⟨false, [], []⟩) n)).moves hs trivial
    h

namespace Passes

variable {s'' : State}

lemma snoc {x : Stmt Unit} (h : Passes inner s ss s') (hx : item inner s' = .ok (.stmt x, s'')) :
    Passes inner s (ss ++ [x]) s'' := by
  induction h with
  | refl =>
    have hlast : Passes inner _ ([x] ++ []) s'' := .step hx rfl .refl
    exact hlast
  | step hi hxs _ ih =>
    rw [append_assoc]
    exact .step hi hxs (ih hx)

variable (h : Passes (nested n) s ss s')

include h

lemma moves (hs : s.Ended) : Moves 0 s s' := by
  induction h with
  | refl => exact .refl _
  | step hi hxs h ih =>
    have hmoves := moves_item hs hi
    exact (hmoves.trans (ih (hmoves.ended hs))).mono (Nat.zero_le _)

lemma items_eq (hs : s.Ended) (start : Span) {m : Nat} (hm : s.toks.length < m)
    (done : List (Stmt Unit)) : ∃ m', s'.toks.length < m' ∧
      items (nested n) start m done s = items (nested n) start m' (ss.reverse ++ done) s' := by
  induction h generalizing m done with
  | refl => exact ⟨m, hm, rfl⟩
  | @step s w s' i xs ss hi hxs h ih =>
    obtain ⟨m, rfl⟩ := Nat.exists_eq_add_one_of_ne_zero (ne_zero_of_lt hm)
    have hmoves := moves_item hs hi
    have hlen := hmoves.length
    obtain ⟨m', hm', heq⟩ := @ih (hmoves.ended hs) m (by omega) (xs.reverse ++ done)
    exact ⟨m', hm', by rw [items_step hi hxs, heq, reverse_append, append_assoc]⟩

lemma after {all : Tokens} {c : Located Token} (hs : s.After all c) : ∃ c', s'.After all c' := by
  induction h generalizing c with
  | refl => exact ⟨c, hs⟩
  | step hi _ _ ih =>
    obtain ⟨c', hs', -⟩ := gives_item (K := fun _ => True) (givesInner_nested n) _ _ _ hs trivial hi
    exact ih hs'

end Passes

/-! ### Both sides of a missing semicolon -/

variable {v : Sides} {t : State} {ts : Tokens}

/-- A run on the left that has not gone beyond the tokens in common has one on the right. -/
theorem Sides.Agree.right {β : Type} [Unplace β] {x : β}
    {res : Except (Located ParseError) (β × State)} (h : v.Agree (.ok (x, s)) res)
    (hs : v.left.length ≤ s.toks.length) :
    ∃ y t common, res = .ok (y, t) ∧ Alike v.exact x y ∧ v.Beside common s t := by
  cases h with
  | ok hx ht => exact ⟨_, _, _, rfl, hx, ht⟩
  | beyond h => omega

lemma stmts?_alike {exact : Bool} {i' : Item} (h : Alike exact i i') (hxs : i.stmts? = some xs) :
    ∃ xs', i'.stmts? = some xs' ∧ Alike exact xs xs' := by
  cases i <;> cases i' <;> cases hxs <;> simp_all +contextual [Alike, Unplace.unplaced, Item.stmts?]

lemma Passes.right {k : Nat} (hk : k ≤ n) (h : Passes (nested n) s ss s')
    {common : Tokens} (hs : v.Abreast k common s t) (hleft : v.left.length ≤ s'.toks.length) :
    ∃ t' ss' common', Passes (nested n) t ss' t' ∧ Alike v.exact ss ss' ∧
      v.Abreast k common' s' t' := by
  induction h generalizing t common with
  | refl => exact ⟨t, [], common, .refl, .refl, hs⟩
  | @step s w s' i xs ss hi hxs h ih =>
    have hmoves := moves_item hs.ended hi
    have hlen := (h.moves (hmoves.ended hs.ended)).length
    have hagree :=
      (tracks_item (K := fun _ => True) ((tracks_nested_self n).mono hk)).agree hs trivial
    rw [hi] at hagree
    obtain ⟨i', w', common', hi', hii', hw⟩ := hagree.right (by omega)
    obtain ⟨xs', hxs', hxx'⟩ := stmts?_alike hii' hxs
    obtain ⟨t', ss', common'', hpass, hss, ht'⟩ :=
      ih ((hs.after hmoves hw).mono (Nat.sub_le k 1)) hleft
    exact ⟨t', xs' ++ ss', common'', .step hi' hxs' hpass, by simp_all +contextual
      [Alike, Unplace.unplaced], ht'⟩

/-- The token without its place. -/
def blur (t : Located Token) : Located Token :=
  ⟨.none, t.val⟩

lemma map_blur_eq {ts' : Tokens} (h : ts.map Located.val = ts'.map Located.val) :
    ts.map blur = ts'.map blur := by
  have hblur : blur = Located.mk .none ∘ Located.val := rfl
  rw [hblur, ← map_map, h, map_map]

lemma State.ended_of_vals (h : s.toks.map Located.val = ts.map Located.val) {init : Tokens}
    {e : Located Token} (hts : ts = init ++ [e]) (he : e.val.kind = .eof) : s.Ended := by
  rw [hts, map_append] at h
  obtain ⟨init', last, htoks, -, hlast⟩ := map_eq_append_iff.mp h
  obtain ⟨e', rfl, he'⟩ := map_eq_singleton_iff.mp hlast
  exact ⟨init', e', htoks, he' ▸ he⟩

lemma items_alike {m m' : Nat} (hs : s.Ended)
    (hst : s.toks.map Located.val = t.toks.map Located.val) (hn : s.toks.length < n)
    (hm : s.toks.length < m) (hm' : s.toks.length < m') (start start' : Span)
    {ss' : List (Stmt Unit)} (hss : Alike false ss ss') :
    (items (nested n) start m ss s).toOption.map
    (fun r => (r.1.unplaced, r.2.toks.map Located.val)) =
      (items (nested n) start' m' ss' t).toOption.map fun r =>
      (r.1.unplaced, r.2.toks.map Located.val) := by
  let v : Sides := ⟨false, [], []⟩
  obtain ⟨init, e, hinit, he⟩ := id hs
  have habreast : v.Abreast (s.toks.length + 1) (s.toks.map blur) s t := by
    refine ⟨⟨(append_nil _).symm, ?_, rfl, nofun⟩, by simp, ?_, hs⟩
    · exact (map_blur_eq hst.symm).trans (append_nil _).symm
    · exact .eof (e := blur e) rfl (by rw [hinit, map_append]; rfl) he
  have htracks := tracks_items (K := fun _ => True) ((tracks_nested_self n).mono hn)
    (⟨rfl, nofun⟩ : Alike v.exact start start') hm hm' hss
  have hagree := htracks.agree habreast trivial
  generalize items (nested n) start m ss s = left at hagree
  generalize items (nested n) start' m' ss' t = right at hagree
  cases hagree with
  | ok hx ht =>
    have htoks := congrArg (map Located.val) (ht.left.trans ht.right.symm)
    rw [map_map, map_map] at htoks
    exact congrArg some (Prod.ext hx.1 htoks)
  | error he => rfl
  | beyond h => exact absurd h (Nat.not_lt_zero _)
  | failed h => exact absurd rfl h

lemma block_eq (h : s.tok.val.kind = .lbrace) :
    block inner s = items inner s.tok.span inner.limit [] s.next := by
  obtain ⟨⟨span, kind, text⟩, rest, prev⟩ := s
  obtain rfl : kind = .lbrace := h
  rfl

lemma moves_expr (hs : s.Ended) (h : (nested n).expr structs s = .ok (x, u)) : Moves 1 s u :=
  ((tracks_nested_self (v := ⟨false, [], []⟩) n).expr (K := fun _ => True) structs).moves hs trivial
    h

/-- A conditional or a block, and the statements before it, without the semicolon after it. -/
theorem Passes.without {s1 : State} {read : Tokens} (h : Passes (nested n) s ss s1)
    (hx : (nested n).expr true s1 = .ok (x, u)) (hlike : x.isBlockLike = true)
    (hsemi : u.tok.val.kind = .semicolon)
    (hnext : stops u.next.tok.val.kind = true ∧ u.next.tok.val.kind ≠ .semicolon) (hended : s.Ended)
    (hs : s.toks = read ++ u.toks) (hn : read.length < n)
    (hread : ∀ c ∈ read.getLast?, c.val.kind = .rbrace ∨ c.val.kind = .rparen)
    (ht : t.toks.map Located.val = (read ++ u.next.toks).map Located.val) :
    ∃ t' ss', Passes (nested n) t ss' t' ∧
      Alike false (ss ++ [.expr x]) ss' ∧ t'.toks.map Located.val =
      u.next.toks.map Located.val := by
  let v : Sides := ⟨false, u.toks.map blur, u.next.toks.map blur⟩
  have habreast : v.Abreast (read.length + 1) (read.map blur) s t := by
    refine ⟨⟨?_, ?_, rfl, nofun⟩, by simp, ?_, hended⟩
    · exact (congrArg (map blur) hs).trans (map_append ..)
    · exact (map_blur_eq ht).trans (map_append ..)
    · refine .seam rfl hsemi rfl hnext.1 fun c hc => ?_
      rw [getLast?_map] at hc
      obtain ⟨w, hw, rfl⟩ := Option.mem_map.mp hc
      exact hread w hw
  have hleft : v.left.length = u.toks.length := length_map ..
  have hlen := (moves_expr (h.moves hended |>.ended hended) hx).length
  obtain ⟨t1, ss', common, hpass, hss, ht1⟩ := h.right hn habreast (by omega)
  have hagree := (((tracks_nested_self n).mono hn).expr (K := fun _ => True) true).agree ht1 trivial
  rw [hx] at hagree
  obtain ⟨x', t', common', hx', hxx', ht'⟩ := hagree.right hleft.le
  -- At the semicolon there is nothing left in common.
  obtain rfl : common' = [] := append_left_eq_self.mp ht'.left.symm
  have htoks : t'.toks.map blur = u.next.toks.map blur := ht'.right
  have hvals : t'.toks.map Located.val = u.next.toks.map Located.val := by
    simpa [Function.comp_def, blur] using congrArg (map Located.val) htoks
  have hkind : t'.tok.val.kind = u.next.tok.val.kind := congrArg Token.kind (cons.inj hvals).1
  refine ⟨t', ss' ++ [.expr x'], hpass.snoc (item_blockLike hx' ?_ ?_ ?_), ?_, hvals⟩
  · rw [← hxx'.isBlockLike, hlike]
  · rw [hkind, hnext.1]
  · rw [hkind]
    exact hnext.2
  · simp_all +contextual [Alike, Unplace.unplaced, Stmt.unplaced]

/-- In the block that starts at `s`, the semicolon at `u` stands between a conditional or a block
and a statement or the value of the block. -/
structure SeparatesItems (n : Nat) (s u : State) : Prop where
  opens : s.tok.val.kind = .lbrace
  blockLike : ∃ ss s1 x, Passes (nested n) s.next ss s1 ∧ (nested n).expr true s1 = .ok (x, u) ∧
    x.isBlockLike = true
  semicolon : u.tok.val.kind = .semicolon
  follows : ∃ i u', item (nested n) u.next = .ok (i, u') ∧ i.isPart = true

/-- **Semicolons after conditionals and blocks are optional**, unless what follows starts like a
call, a subscript or a subtraction: a block of a text is read as the same block, up to places,
without such a semicolon. -/
theorem block_semicolon {text : Bytes} {before read : Tokens} {n : Nat}
    {s u t : State} (htext : tokenize text = .ok (before ++ s.toks)) (hn : s.toks.length ≤ n)
    (hsep : SeparatesItems n s u)
    (hfirst : u.next.tok.val.kind ∉ [.lparen, .lbracket, .minus]) (hs : s.toks = read ++ u.toks)
    (ht : t.toks.map Located.val = (read ++ u.rest).map Located.val) :
    (block (nested n) s).toOption.map (fun r => (r.1.unplaced, r.2.toks.map Located.val)) =
      (block (nested n) t).toOption.map fun r => (r.1.unplaced, r.2.toks.map Located.val) := by
  obtain ⟨hopen, ⟨ss, s₁, x, hpass, hx, hlike⟩, hsemi, i, u', hi, hpart⟩ := hsep
  have hof := ofText_of_tokenize htext
  obtain ⟨init, e, hinit, he⟩ := id hof.ended
  have hended : s.Ended := State.ended_of_append hinit he
  have hne : s.tok.val.kind ≠ .eof := by simp [hopen]
  obtain ⟨hnext, hprev⟩ := State.next_eq hne (hended.rest_ne_nil hne)
  have hended' : s.next.Ended := (moves_next hended hne).ended hended
  have hended₁ := (hpass.moves hended').ended hended'
  have hmoves := moves_expr hended₁ hx
  have hneu : u.tok.val.kind ≠ .eof := by simp [hsemi]
  obtain ⟨hnextu, -⟩ := State.next_eq hneu ((hmoves.ended hended₁).rest_ne_nil hneu)
  have hstops := stops_of_item hi hpart hfirst
  -- The opening brace is read, and the conditional or block ends with a closing token.
  have hlen := (hpass.moves hended').length
  have hlen' := hmoves.length
  obtain _ | ⟨a, read⟩ := read
  · rw [hnext] at hlen
    have := congrArg List.length hs
    simp [State.toks] at this hlen hlen'
    omega
  obtain ⟨rfl, hrest⟩ : s.tok = a ∧ s.rest = read ++ u.toks := List.cons.inj hs
  obtain ⟨htok, htrest⟩ : t.tok.val = s.tok.val ∧ t.rest.map Located.val =
      (read ++ u.rest).map Located.val :=
    List.cons.inj ht
  obtain ⟨c₁, hs₁⟩ := hpass.after ⟨hof, ⟨before, by rw [hnext]; rfl⟩, hprev⟩
  obtain ⟨c, hu, hgood⟩ := (givesInner_nested n).expr (K := fun _ => True) true _ _ _ hs₁ trivial hx
  have hlast : ∀ w ∈ read.getLast?, w.val.kind = .rbrace ∨ w.val.kind = .rparen := by
    intro w hw
    obtain ⟨init', rfl⟩ := List.getLast?_eq_some_iff.mp hw
    obtain ⟨before', hbefore'⟩ := hu.toks
    rw [hs, List.append_cons before', ← List.append_assoc before] at hbefore'
    have hsame := List.append_cancel_right hbefore'
    rw [← List.cons_append, ← List.append_assoc] at hsame
    obtain ⟨-, hwc⟩ := List.append_inj' hsame rfl
    exact (List.cons.inj hwc).1 ▸ hgood.closes hlike
  -- Both blocks come to the same tokens with the same statements.
  have hendedu : u.next.Ended :=
    (moves_next (hmoves.ended hended₁) hneu).ended (hmoves.ended hended₁)
  obtain ⟨init', e', hinit', he'⟩ := id hendedu
  have hopen' : t.tok.val.kind = .lbrace := htok ▸ hopen
  rw [← hnextu] at htrest
  have hnextt : t.next.toks = t.rest := by
    refine (State.next_eq (by simp [hopen']) fun hnil => ?_).1
    simp [hnil, State.toks] at htrest
  rw [← hnextt] at htrest
  have hendedt : t.next.Ended :=
    State.ended_of_vals htrest (by rw [hinit', ← List.append_assoc]) he'
  have hlimit := (tracks_nested_self (v := ⟨false, [], []⟩) n).limit
  have hlens := congrArg List.length (hnext.trans hrest)
  have hlent := congrArg List.length htrest
  have hlenu : u.toks.length = u.next.toks.length + 1 := by rw [hnextu]; rfl
  simp only [List.length_append, List.length_map] at hlens hlent
  have hshort := (moves_next hended hne).length
  obtain ⟨t', ss', hpass', hss, hvals⟩ :=
    hpass.without hx hlike hsemi hstops hended' (hnext.trans hrest) (by omega) hlast htrest
  have hlenv := congrArg List.length hvals
  rw [List.length_map, List.length_map] at hlenv
  obtain ⟨m, hm, hleft⟩ := (hpass.snoc (item_semicolon hx hsemi)).items_eq hended' s.tok.span
    (m := (nested n).limit) (by omega) []
  obtain ⟨m', hm', hright⟩ :=
    hpass'.items_eq hendedt t.tok.span (m := (nested n).limit) (by omega) []
  rw [block_eq hopen, block_eq hopen', hleft, hright]
  refine items_alike hendedu hvals.symm (by omega) hm (by omega) _ _
    ⟨?_, fun h => absurd h Bool.false_ne_true⟩
  simpa [Unplace.unplaced] using congrArg List.reverse hss.1

/-- A token on the first line, from one offset to another. -/
def onLine (first last : Nat) (t : Token) : Located Token :=
  ⟨⟨⟨first, 1, first + 1⟩, ⟨last, 1, last + 1⟩⟩, t⟩

/-- The tokens of `if b {}`. -/
def conditional : Tokens :=
  [onLine 2 3 ⟨.kwIf, "if"⟩, onLine 5 5 ⟨.ident, "b"⟩, onLine 7 7 ⟨.lbrace, "\x7b"⟩,
    onLine 8 8 ⟨.rbrace, "\x7d"⟩]

/-- The semicolon of `{ if b {}; x }`, and what follows it. -/
def separated : State :=
  ⟨onLine 9 9 ⟨.semicolon, ";"⟩,
    [onLine 11 11 ⟨.ident, "x"⟩, onLine 13 13 ⟨.rbrace, "\x7d"⟩, onLine 14 14 ⟨.eof, []⟩],
    (onLine 8 8 ⟨.rbrace, "\x7d"⟩).span⟩

theorem block_semicolon_conditional :
    let start (rest : Tokens) : State :=
      ⟨onLine 0 0 ⟨.lbrace, "\x7b"⟩, conditional ++ rest, .none⟩
    let result (s : State) :=
      (block (nested 9) s).toOption.map fun r => (r.1.unplaced, r.2.toks.map Located.val)
    tokenize "\x7b if b \x7b\x7d; x \x7d" = .ok ([] ++ (start separated.toks).toks) ∧
      (result (start separated.toks)).isSome ∧ result (start separated.toks) =
      result (start separated.rest) := by
  intro start result
  have htext : tokenize "\x7b if b \x7b\x7d; x \x7d" = .ok ([] ++ (start separated.toks).toks) := by
    decide +kernel
  have hsep : SeparatesItems 9 (start separated.toks) separated :=
    ⟨rfl, ⟨[], _, _, .refl, rfl, rfl⟩, rfl, _, _, rfl, rfl⟩
  refine ⟨htext, by decide +kernel, ?_⟩
  exact @block_semicolon _ [] (start []).toks 9 _ _ (start separated.rest) htext (Nat.le_refl 9)
    hsep (by decide) rfl rfl

/-- A minus sign after a conditional takes it for the left operand. -/
theorem text_conditional_minus :
    (parse "fn f() \x7b if b \x7b\x7d -1 \x7d").toOption.map Program.text =
      some "(program (fn f () (block (- (if b (block)) 1))))" ∧
    (parse "fn f() \x7b if b \x7b\x7d; -1 \x7d").toOption.map Program.text =
      some "(program (fn f () (block (if b (block)) (- 1))))" := by
  decide +kernel

end Minilang.Parser
