import Minilang.Proofs.Tree.Abreast

/-!
# The grammar side by side

The functions of the grammar agree on tokens in common, one lemma for each of them, for inner
parsers that agree.  The number of levels of the grammar and what is below them do not matter.
-/

namespace Minilang.Parser

open Sides

attribute [local simp] Alike Unplace.unplaced Name.unplaced TypeExpr.unplaced
  TypeExpr.unplaced_func Param.unplaced
  Expr.unplaced Expr.unplaced_cond Expr.listUnplaced_eq_map FieldValue.unplaced
    FieldValue.listUnplaced_eq_map
  Block.unplaced_mk Stmt.unplaced VariantDecl.unplaced

variable {β : Type} {v : Sides} {k k' n : Nat} {K : TokenKind → Prop} [Unplace β]
  {inner inner' : Inner}

/-- Inner parsers that run side by side. -/
structure Sides.TracksInner (v : Sides) (k : Nat) (inner inner' : Inner) : Prop where
  limit : k < inner.limit
  limit' : k < inner'.limit
  type {K : TokenKind → Prop} : v.Tracks k 1 K inner.type inner'.type
  block {K : TokenKind → Prop} : v.Tracks k 1 K inner.block inner'.block
  cond : v.Tracks k 1 (· = .kwIf) inner.cond inner'.cond
  expr {K : TokenKind → Prop} (structs : Bool) :
    v.Tracks k 1 K (inner.expr structs) (inner'.expr structs)
  binary {K : TokenKind → Prop} (structs : Bool) (minPrec : Nat) :
    v.Tracks k 1 K (inner.binary structs minPrec) (inner'.binary structs minPrec)
  unary {K : TokenKind → Prop} (structs : Bool) :
    v.Tracks k 1 K (inner.unary structs) (inner'.unary structs)

section Grammar

variable (h : v.TracksInner k inner inner') {s s' : Span} {x x' : Expr Unit}

include h

lemma tracks_list {p q : P β} {closing : TokenKind} (hp : ∀ {K}, v.Tracks k 1 K p q)
    (hclosing : closing ≠ .eof ∧ closing ≠ .semicolon) :
    v.Tracks k 1 K (list inner.limit closing p) (list inner'.limit closing q) :=
  .list hp h.limit.le h.limit'.le hclosing

/-! Types. -/

lemma tracks_typeExpr : v.Tracks (k + 1) 1 K (typeExpr inner) (typeExpr inner') := by
  refine .look ?_
  rintro s s' ⟨kind, text⟩ _ _ _ _ hs
  cases kind with
  | ident => exact .read (.next (by simp)) fun _ => .pure (by simp_all)
  | lbracket =>
    refine .read (.next (by simp)) fun ht => ?_
    refine .seq h.type fun htype => ?_
    refine .seq (.expect (by simp)) fun _ => ?_
    refine .finish (by simp_all) fun hs' => ?_
    simp_all
  | kwFn =>
    refine .read (.next (by simp)) fun ht => ?_
    refine .seq (.expect (by simp)) fun _ => ?_
    refine .seq (tracks_list h h.type (by simp)) fun hxs => ?_
    refine .accept (.inl rfl) fun _ => ?_
    refine .optional h.type fun htype => ?_
    refine .finish (by simp_all) fun hs' => ?_
    simp_all
  | _ => exact .unexpected

lemma tracks_param : v.Tracks (k + 1) 1 K (param inner) (param inner') := by
  refine .read .name fun hn => ?_
  refine .seq (.expect (by simp)) fun _ => ?_
  refine .seq (tracks_typeExpr h).less fun htype => ?_
  refine .finish (by simp_all) fun hs => ?_
  simp_all

lemma tracks_signature : v.Tracks (k + 1) 1 K (signature inner) (signature inner') := by
  refine .read (.expect (by simp)) fun _ => ?_
  refine .seq (tracks_list h (tracks_param h).less (by simp)) fun hxs => ?_
  refine .accept (.inl rfl) fun _ => ?_
  refine .optional (tracks_typeExpr h).less fun htype => ?_
  exact .pure (by simp_all)

/-! Statements. -/

lemma tracks_letStmt : v.Tracks (k + 1) 1 (· = .kwLet) (letStmt inner) (letStmt inner') := by
  refine .read (.next (by simp)) fun ht => ?_
  refine .seq .name fun hn => ?_
  refine .accept (.inl rfl) fun _ => ?_
  refine .optional h.type fun htype => ?_
  refine .seq (.expect (by simp)) fun _ => ?_
  refine .seq (h.expr true) fun hx => ?_
  refine .seq (.expect (by simp)) fun _ => ?_
  refine .finish (by simp_all) fun hs => ?_
  simp_all

lemma tracks_returnStmt : v.Tracks (k + 1) 1 (· = .kwReturn) (returnStmt inner)
    (returnStmt inner') := by
  refine .read (.next (by simp)) @fun t t' ht => ?_
  have hrest {d K} {x x' : Option (Expr Unit)} (hx : Alike v.exact x x')
      (hsemi : v.Tracks k d K (accept .semicolon) (accept .semicolon)) : v.Tracks k d K
      (spanFrom t.span >>= fun s => accept .semicolon >>= fun _ => pure (Stmt.ret s x))
      (spanFrom t'.span >>= fun s => accept .semicolon >>= fun _ => pure (Stmt.ret s x')) :=
    .spanFrom (by simp_all) fun hs => .keep hsemi fun _ => .pure (.ret hs hx)
  refine .branch (fun x _ => .ite ?_ ?_) fun _ => hrest .refl .readSemicolon
  · exact hrest .refl .acceptSemicolon
  · exact .seq ((h.expr true).map (by simp_all +contextual)) fun hx => hrest hx .acceptSemicolon

lemma tracks_whileStmt : v.Tracks (k + 1) 1 (· = .kwWhile) (whileStmt inner)
    (whileStmt inner') := by
  refine .read (.next (by simp)) fun ht => ?_
  refine .seq (h.expr false) fun hx => ?_
  refine .seq h.block fun hb => ?_
  refine .finish (by simp_all) fun hs => ?_
  simp_all

lemma tracks_forStmt : v.Tracks (k + 1) 1 (· = .kwFor) (forStmt inner) (forStmt inner') := by
  refine .read (.next (by simp)) fun ht => ?_
  refine .seq .name fun hn => ?_
  refine .seq (.expect (by simp)) fun _ => ?_
  refine .seq (h.expr false) fun hx => ?_
  refine .accept (.inl rfl) fun _ => ?_
  refine .ite ?_ ?_
  · refine .seq (h.expr false) fun hy => ?_
    refine .seq h.block fun hb => ?_
    refine .finish (by simp_all) fun hs => ?_
    simp_all
  · refine .seq h.block fun hb => ?_
    refine .finish (by simp_all) fun hs => ?_
    simp_all

lemma tracks_item : v.Tracks k 1 K (item inner) (item inner') := by
  refine .turn fun x _ => ?_
  cases x with
  | rbrace | semicolon => exact .keep (.next (by simp)) fun _ => .pure .refl
  | kwLet => exact (tracks_letStmt h).less.map (by simp_all +contextual)
  | kwReturn => exact (tracks_returnStmt h).less.map (by simp_all +contextual)
  | kwWhile => exact (tracks_whileStmt h).less.map (by simp_all +contextual)
  | kwFor => exact (tracks_forStmt h).less.map (by simp_all +contextual)
  | eof => exact .unexpected
  | _ =>
    refine .keep (h.expr true) fun hx => ?_
    refine .accept (.inl rfl) fun _ => ?_
    refine .ite (.pure (by simp_all)) ?_
    refine .accept (.inr rfl) fun _ => ?_
    refine .ite (.pure (by simp_all)) ?_
    rw [hx.isBlockLike]
    exact .ite (.pure (by simp_all)) .unexpected

lemma tracks_items (hs : Alike v.exact s s') {n' : Nat} (hn : k ≤ n)
    (hn' : k ≤ n') {ss ss' : List (Stmt Unit)} (hss : Alike v.exact ss ss') :
    v.Tracks k 0 K (items inner s n ss) (items inner' s' n' ss') := by
  refine .loop (fun _ _ => .unexpected) ?_ hn hn' hss
  intro n n' j K ss ss' hj hss ih
  refine .drop (.read ((tracks_item h).shrink hj) @fun x x' hx => ?_)
  cases x <;> cases x' <;> simp at hx
  · refine .finish hs fun hs' => ?_
    simp_all
  · exact ih (by simp_all)
  · exact ih hss

lemma tracks_block : v.Tracks (k + 1) 1 K (block inner) (block inner') :=
  .read (.expect (by simp)) fun _ => tracks_items h (by simp_all) h.limit.le h.limit'.le .refl

/-! Expressions. -/

omit h in
lemma tracks_position (hs : Alike v.exact s s') (text : Bytes) :
    v.Tracks k 0 K (position s text) (position s' text) := by
  unfold position
  cases Decimal.readInt? text with
  | some n => exact .pure (by simp_all)
  | none => exact .fail (by simp_all)

omit h in
lemma tracks_selectors : v.Tracks k 1 K selectors selectors := by
  refine .look ?_
  rintro s s' ⟨kind, text⟩ _ _ _ _ hs
  cases kind with
  | int =>
    refine .keep (.next (by simp)) fun ht => ?_
    refine .seq (tracks_position hs _) fun hx => ?_
    exact .pure (by simp_all)
  | float =>
    refine .keep (.next (by simp)) fun ht => ?_
    refine .seq (tracks_position (by simp_all +contextual) _) fun hx => ?_
    refine .seq (tracks_position (by simp_all +contextual) _) fun hy => ?_
    exact .pure (by simp_all)
  | _ => exact .keep .name fun _ => .pure (by simp_all)

lemma tracks_fieldValue : v.Tracks (k + 1) 1 K (fieldValue inner) (fieldValue inner') := by
  refine .read .name fun hn => ?_
  refine .seq (.expect (by simp)) fun _ => ?_
  refine .seq (h.expr true) fun hx => ?_
  refine .finish (by simp_all) fun hs => ?_
  simp_all

lemma tracks_structLit : v.Tracks (k + 1) 1 K (structLit inner) (structLit inner') := by
  refine .read .name fun hn => ?_
  refine .seq .advance fun _ => ?_
  refine .seq (tracks_list h (tracks_fieldValue h).less (by simp)) fun hxs => ?_
  refine .finish (by simp_all) fun hs => ?_
  simp_all

lemma tracks_cond : v.Tracks (k + 1) 1 (· = .kwIf) (cond inner) (cond inner') := by
  refine .read (.next (by simp)) @fun t t' _ => ?_
  refine .seq (h.expr false) @fun x x' _ => ?_
  refine .seq h.block @fun b b' _ => ?_
  have hrest {K} {e e' : Option (Expr Unit)} (he : Alike v.exact e e') : v.Tracks k 0 K
      (spanFrom t.span >>= fun s => pure (Expr.cond s () x b e))
      (spanFrom t'.span >>= fun s => pure (Expr.cond s () x' b' e')) := by
    refine .finish (by simp_all) fun hs => ?_
    simp_all
  have hblock {K} : v.Tracks k 1 K _ _ :=
    .keep (h.block.map (g := some ∘ Expr.block) (by simp_all +contextual)) hrest
  refine .accept (.inl rfl) fun _ => ?_
  refine .ite ?_ (hrest .refl)
  refine .branch (fun c _ => ?_) fun _ => hblock
  by_cases hc : c = .kwIf
  · subst hc
    exact .seq (h.cond.map (by simp_all +contextual)) hrest
  · rw [if_neg hc, if_neg hc]
    exact hblock.drop

lemma tracks_lambda : v.Tracks (k + 1) 1 (· = .kwFn) (lambda inner) (lambda inner') := by
  refine .read (.next (by simp)) fun ht => ?_
  refine .seq (tracks_signature h).less fun hsig => ?_
  refine .seq h.block fun hb => ?_
  refine .finish (by simp_all) fun hs => ?_
  simp_all

lemma tracks_primary (structs : Bool) :
    v.Tracks (k + 1) 1 K (primary inner structs) (primary inner' structs) := by
  refine .look ?_
  rintro s s' ⟨kind, text⟩ _ _ _ _ hs
  cases kind with
  | int =>
    refine .read (.next (by simp)) fun _ => ?_
    cases Decimal.readInt? text with
    | some n => exact .pure (by simp_all)
    | none => exact .fail (by simp_all)
  | float =>
    refine .read (.next (by simp)) fun _ => ?_
    cases Double.read? text with
    | some n => exact .pure (by simp_all)
    | none => exact .fail (by simp_all)
  | string | kwTrue | kwFalse => exact .read (.next (by simp)) fun _ => .pure (by simp_all)
  | ident =>
    exact .startsStruct fun c => .ite (tracks_structLit h) (.read (.next (by simp)) fun _ =>
      .pure (by simp_all))
  | lparen =>
    refine .read (.next (by simp)) fun ht => ?_
    refine .seq (h.expr true) fun hx => ?_
    refine .seq (.expect (by simp)) fun _ => ?_
    exact .pure hx
  | lbracket =>
    refine .read (.next (by simp)) fun ht => ?_
    refine .seq (tracks_list h (h.expr true) (by simp)) fun hxs => ?_
    refine .finish (by simp_all) fun hs' => ?_
    simp_all
  | lbrace => exact (tracks_block h).map (by simp_all +contextual)
  | kwIf => exact tracks_cond h
  | kwFn => exact tracks_lambda h
  | _ => exact .unexpected

omit h in
lemma alike_selectAll {ns ns' : List Name} (hx : Alike v.exact x x')
    (hns : Alike v.exact ns ns') : Alike v.exact (selectAll x ns) (selectAll x' ns') := by
  refine ⟨?_, fun hexact => by rw [hx.2 hexact, hns.2 hexact]⟩
  replace hx := hx.1
  replace hns := hns.1
  induction ns generalizing x x' ns' with
  | nil =>
    cases ns' with
    | nil => exact hx
    | cons n' ns' => cases hns
  | cons n ns ih =>
    cases ns' with
    | nil => cases hns
    | cons n' ns' =>
      obtain ⟨hn, hns⟩ := List.cons.inj hns
      exact @ih (.field (x.span.through n.span) () x n)
        (.field (x'.span.through n'.span) () x' n') ns'
        (by simp_all) hns

lemma tracks_suffixes (hx : Alike v.exact x x') :
    v.Tracks k 0 K (suffixes inner inner.limit x) (suffixes inner' inner'.limit x') := by
  refine .loop (fun _ _ => .pure .refl) ?_ h.limit.le h.limit'.le hx
  intro n n' j K x x' hj hx ih
  have hj' : j - 1 ≤ k := (Nat.sub_le j 1).trans hj
  refine .peek (fun c _ => ?_) fun c hc => ?_
  · cases c with
    | lparen =>
      refine .drop (.read (.next (by simp)) fun ht => ?_)
      refine .seq ((tracks_list h (h.expr true) (by simp)).shrink hj') fun hxs => ?_
      refine .spanFrom (by simp_all) fun _ => ?_
      exact ih (by simp_all)
    | dot =>
      refine .drop (.read (.next (by simp)) fun ht => ?_)
      refine .seq tracks_selectors fun hns => ?_
      exact ih (alike_selectAll hx hns)
    | lbracket =>
      refine .drop (.read (.next (by simp)) fun ht => ?_)
      refine .seq ((h.expr true).shrink hj') fun hy => ?_
      refine .seq (.expect (by simp)) fun _ => ?_
      refine .spanFrom (by simp_all) fun _ => ?_
      exact ih (by simp_all)
    | _ => exact .pure hx
  · cases c with
    | lparen | dot | lbracket => cases hc
    | _ => rfl

variable (structs : Bool)

include structs

lemma tracks_postfixExpr :
    v.Tracks (k + 1) 1 K (postfixExpr inner structs) (postfixExpr inner' structs) :=
  .read (tracks_primary h structs) fun hx => tracks_suffixes h hx

lemma tracks_negated (op : UnaryOp) {c : TokenKind} (hc : c ≠ .eof) :
    v.Tracks (k + 1) 1 (· = c) (negated inner structs op) (negated inner' structs op) := by
  refine .read (.next (by simp [hc])) fun ht => ?_
  refine .seq (h.unary structs) fun hx => ?_
  exact .pure (by simp_all)

lemma tracks_unary : v.Tracks (k + 1) 1 K (unary inner structs) (unary inner' structs) := by
  refine .turn fun c _ => ?_
  cases c with
  | minus => exact .leastInt? (tracks_negated h structs .neg (by simp)) fun hx => .pure hx
  | bang => exact tracks_negated h structs .not (by simp)
  | _ => exact tracks_postfixExpr h structs

lemma tracks_operations (minPrec : Nat) (hx : Alike v.exact x x') :
    v.Tracks k 0 K (operations inner structs minPrec inner.limit x)
      (operations inner' structs minPrec inner'.limit x') := by
  refine .loop (fun _ _ => .pure .refl) ?_ h.limit.le h.limit'.le hx
  intro n n' j K x x' hj hx ih
  refine .peek (fun c _ => ?_) fun c hc => ?_
  · cases hop : BinaryOp.ofToken? c with
    | none => exact .pure hx
    | some op =>
      refine .ite (.pure hx) (.drop (.read (.next ?_) fun _ =>
        .seq ((h.binary structs _).shrink ((Nat.sub_le j 1).trans hj)) fun _ => ih (by simp_all)))
      rintro _ rfl rfl
      cases hop
  · have hnone : BinaryOp.ofToken? c = none := by simpa using (Bool.and_eq_true_iff.mp hc).2
    rw [hnone]
    rfl

lemma tracks_binary (minPrec : Nat) :
    v.Tracks (k + 1) 1 K (binary inner structs minPrec) (binary inner' structs minPrec) :=
  .read (tracks_unary h structs) fun hx => tracks_operations h structs minPrec hx

lemma tracks_expr : v.Tracks (k + 1) 1 K (expr inner structs) (expr inner' structs) := by
  refine .read (tracks_binary h structs 1) fun hx => .peek (fun c _ => ?_) fun c hc => ?_
  · rw [hx.isTarget]
    by_cases hc : c = .assign
    · rw [if_pos hc, if_pos hc]
      refine .seq (.next (by simp [hc])) fun _ => ?_
      refine .ite ?_ ?_
      · refine .seq (h.expr structs) fun hy => ?_
        exact .pure (by simp_all)
      · exact .fail (by simp_all)
    · rw [if_neg hc, if_neg hc]
      exact .pure hx
  · have hne : c ≠ .assign := by rintro rfl; cases hc
    rw [if_neg hne]
    rfl

end Grammar

/-! ### Levels -/

lemma Sides.TracksInner.mono (h : v.TracksInner k inner inner')
    (hk : k' ≤ k) : v.TracksInner k' inner inner' :=
  ⟨hk.trans_lt h.limit, hk.trans_lt h.limit', h.type.shrink hk, h.block.shrink hk, h.cond.shrink hk,
    fun structs => (h.expr structs).shrink hk, fun structs minPrec =>
    (h.binary structs minPrec).shrink hk, fun structs => (h.unary structs).shrink hk⟩

lemma Sides.TracksInner.zero {inner'' : Inner} (h : v.TracksInner k inner inner')
    (hlimit : 0 < inner''.limit) : v.TracksInner 0 inner inner'' :=
  ⟨(Nat.zero_le k).trans_lt h.limit, hlimit, h.type.zero, h.block.zero, h.cond.zero,
    fun structs => (h.expr structs).zero, fun structs minPrec => (h.binary structs minPrec).zero,
    fun structs => (h.unary structs).zero⟩

/-- `n` levels of the grammar on top of given parsers. -/
def levels (bottom : Inner) : Nat → Inner
  | 0 => bottom
  | n + 1 =>
    let inner := levels bottom n
    ⟨inner.limit + 1, typeExpr inner, block inner, cond inner, expr inner,
      binary inner, unary inner⟩

lemma levels_limit (bottom : Inner) (n : Nat) : (levels bottom n).limit = bottom.limit + n := by
  induction n with
  | zero => rfl
  | succ n ih => exact congrArg (· + 1) ih

lemma nested_eq_levels (n : Nat) : nested n = levels (nested 0) n := by
  induction n with
  | zero => rfl
  | succ n ih =>
    rw [levels, ← ih]
    cases n <;> rfl

/-- **The bounds do not matter**: with as many levels as there are tokens in common the parsers
agree, whatever is below these levels on the right. -/
theorem tracks_nested {bottom : Inner} (hbottom : 0 < bottom.limit) {m : Nat} (hn : k ≤ n)
    (hm : k ≤ m) : v.TracksInner k (nested n) (levels bottom m) := by
  induction n generalizing k m with
  | zero =>
    obtain rfl := Nat.le_zero.mp hn
    have h : v.TracksInner 0 (nested 0) (nested 0) := ⟨one_pos, one_pos, .unexpected, .unexpected,
      .unexpected, fun _ => .unexpected, fun _ _ => .unexpected, fun _ => .unexpected⟩
    exact h.zero (by rw [levels_limit]; omega)
  | succ n ih =>
    have hsucc {k m : Nat} (hn : k ≤ n) (hm : k ≤ m) :
        v.TracksInner (k + 1) (nested (n + 1)) (levels bottom (m + 1)) := by
      have h : v.TracksInner k (nested n) (levels bottom m) := ih hn hm
      exact ⟨Nat.lt_succ_of_le (Nat.succ_le_succ hn), by rw [levels_limit]; omega,
        tracks_typeExpr h, tracks_block h,
        tracks_cond h, tracks_expr h, tracks_binary h, tracks_unary h⟩
    cases m with
    | zero =>
      obtain rfl := Nat.le_zero.mp hm
      exact (hsucc (Nat.zero_le n) le_rfl).zero hbottom
    | succ m =>
      cases k with
      | zero => exact (hsucc (Nat.zero_le n) (Nat.zero_le m)).mono (Nat.zero_le 1)
      | succ k => exact hsucc (Nat.le_of_succ_le_succ hn) (Nat.le_of_succ_le_succ hm)

lemma tracks_nested_self (n : Nat) : v.TracksInner n (nested n) (nested n) := by
  have h : v.TracksInner n (nested n) (levels (nested 0) n) := tracks_nested one_pos le_rfl le_rfl
  rwa [← nested_eq_levels] at h

/-! ### Declarations -/

section Declarations

variable (h : v.TracksInner k inner inner')

include h

lemma tracks_variant : v.Tracks (k + 1) 1 K (variant inner) (variant inner') := by
  refine .read .name fun hn => ?_
  refine .accept (.inl rfl) fun _ => ?_
  refine .ite ?_ ?_
  · refine .seq (tracks_list h (tracks_typeExpr h).less (by simp)) fun hxs => ?_
    refine .finish (by simp_all) fun hs => ?_
    simp_all
  · refine .seq (.pure .refl) fun _ => ?_
    refine .finish (by simp_all) fun hs => ?_
    simp_all

lemma tracks_decl : v.Tracks (k + 1) 1 K (decl inner) (decl inner') := by
  refine .turn fun x _ => ?_
  cases x with
  | kwFn =>
    refine .read (.next (by simp)) fun ht => ?_
    refine .seq .name fun hn => ?_
    refine .seq (tracks_signature h).less fun hsig => ?_
    refine .seq (tracks_block h).less fun hb => ?_
    refine .finish (by simp_all) fun hs => ?_
    simp_all [Decl.unplaced]
  | kwStruct =>
    refine .read (.next (by simp)) fun ht => ?_
    refine .seq .name fun hn => ?_
    refine .seq (.expect (by simp)) fun _ => ?_
    refine .seq (tracks_list h (tracks_param h).less (by simp)) fun hxs => ?_
    refine .finish (by simp_all) fun hs => ?_
    simp_all [Decl.unplaced]
  | kwEnum =>
    refine .read (.next (by simp)) fun ht => ?_
    refine .seq .name fun hn => ?_
    refine .seq (.expect (by simp)) fun _ => ?_
    refine .seq (tracks_list h (tracks_variant h).less (by simp)) @fun vs vs' hvs => ?_
    refine .spanFrom (by simp_all) fun hs => ?_
    have hempty : vs.isEmpty = vs'.isEmpty := by
      cases vs <;> cases vs' <;> first | rfl | cases hvs.1
    rw [hempty]
    exact .ite (.fail (by simp_all)) (.pure (by simp_all +contextual [Decl.unplaced]))
  | kwType =>
    refine .read (.next (by simp)) fun ht => ?_
    refine .seq .name fun hn => ?_
    refine .seq (.expect (by simp)) fun _ => ?_
    refine .seq (tracks_typeExpr h).less fun htype => ?_
    refine .seq (.expect (by simp)) fun _ => ?_
    refine .finish (by simp_all) fun hs => ?_
    simp_all [Decl.unplaced]
  | _ => exact .unexpected

lemma tracks_decls {ds ds' : List (Decl Unit)} (hds : Alike v.exact ds ds') :
    v.Tracks (k + 1) 0 K (decls inner inner.limit ds) (decls inner' inner'.limit ds') := by
  refine .loop (fun _ _ => .pure .refl) ?_ h.limit h.limit' hds
  intro n n' j K ds ds' hj hds ih
  have hround {K} : v.Tracks j 1 K (decl inner >>= fun x => decls inner n (x :: ds))
      (decl inner' >>= fun x => decls inner' n' (x :: ds')) :=
    .read ((tracks_decl h).shrink hj) fun _ => ih (by simp_all)
  exact .branch (fun x _ => .ite (.pure (by simp_all)) hround.drop) fun _ => hround

end Declarations

end Minilang.Parser
