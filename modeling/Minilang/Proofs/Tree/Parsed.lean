import Minilang.Proofs.Double.Reading
import Minilang.Proofs.Token.Lexed
import Minilang.Proofs.Tree.Outline
import Minilang.Proofs.Tree.Runs
import Minilang.Proofs.Tree.Writing

/-!
# What texts are read as

The trees that the parser gives for the tokens of a text are writable, and their spans are nested.
`Gives` says what holds of the results of a parser behind a given token; there is one rule for each
step of a parser, and one lemma for each function of the grammar, for any inner parsers that give
such trees themselves.
-/

namespace Minilang

open List

variable {text : Bytes} {p : Program Unit}

namespace Parser

/-- The spans of the two positions that a float literal behind a point stands for. -/
def positions (t : Located Token) : Span × Span :=
  let n : Int := (cutPoint t.val.text).1.length
  let p := t.span.first
  (⟨p, ⟨p.offset + n - 1, p.line, p.col + n - 1⟩⟩,
    ⟨⟨p.offset + n + 1, p.line, p.col + n + 1⟩, t.span.last⟩)

/-- The spans of a token that parts of a tree begin and end with. -/
def pieces (t : Located Token) : List Span :=
  if t.val.kind = .float then [t.span, (positions t).1, (positions t).2] else [t.span]

variable {all : Tokens}

lemma span_mem_pieces {t : Located Token} (ht : t ∈ all) : t.span ∈ all.flatMap pieces := by
  refine mem_flatMap.mpr ⟨t, ht, ?_⟩
  unfold pieces
  split_ifs <;> simp

/-- What is known of the tokens of a text. -/
structure OfText (all : Tokens) : Prop where
  lexed : ∀ t ∈ all, t.val.Lexed
  forward : ∀ t ∈ all, t.span.first.offset ≤ t.span.last.offset
  apart : all.Pairwise fun t u => t.span.last.offset < u.span.first.offset
  float : ∀ t ∈ all, t.val.kind = .float → t.span.last.offset =
    t.span.first.offset + t.val.text.length - 1
  ended : ∃ init e, all = init ++ [e] ∧ e.val.kind = .eof

/-- The state behind the token `c` of a text. -/
structure State.After (all : Tokens) (c : Located Token) (s : State) : Prop where
  text : OfText all
  toks : ∃ before, all = before ++ c :: s.toks
  prev : s.prev = c.span

/-- A token that stands behind another one. -/
structure Step (all : Tokens) (c t : Located Token) : Prop where
  mem : t ∈ all
  after : c.span.last.offset < t.span.first.offset
  forward : t.span.first.offset ≤ t.span.last.offset
  lexed : t.val.Lexed
  float : t.val.kind = .float → t.span.last.offset = t.span.first.offset + t.val.text.length - 1

variable {β γ : Type} {c c' t : Located Token} {s : State} {b : Prop} {span : Span}
  {K : Located Token → Prop} {S : Located Token → γ → Prop} {Q : Located Token → β → Prop}

lemma Step.le (h : Step all c t) : c.span.last.offset ≤ t.span.last.offset :=
  (h.after.trans_le h.forward).le

lemma State.After.mem (h : s.After all c) : c ∈ all := by
  obtain ⟨before, hall⟩ := h.toks
  simp [hall]

lemma State.After.step (h : s.After all c) : Step all c s.tok := by
  obtain ⟨before, hall⟩ := h.toks
  have hmem : s.tok ∈ all := by simp [hall, State.toks]
  refine ⟨hmem, ?_, h.text.forward _ hmem, h.text.lexed _ hmem, h.text.float _ hmem⟩
  have hapart := h.text.apart
  rw [hall, pairwise_append] at hapart
  exact (pairwise_cons.mp hapart.2.1).1 s.tok mem_cons_self

lemma State.After.next (h : s.After all c) (hk : s.tok.val.kind ≠ .eof) :
    s.next.After all s.tok := by
  obtain ⟨before, hall⟩ := h.toks
  obtain ⟨init, e, hinit, he⟩ := h.text.ended
  rw [append_cons] at hall
  have hended : s.Ended := ended_of_append (hall.symm.trans hinit) he
  obtain ⟨htoks, hprev⟩ := next_eq hk (hended.rest_ne_nil hk)
  exact ⟨h.text, ⟨before ++ [c], by rw [hall, htoks]; rfl⟩, hprev⟩

/-- Behind the token `c`, at a token that `K` holds of, the parser gives only what `Q` holds of. -/
def Gives (all : Tokens) (K : Located Token → Prop) (c : Located Token) (p : P β)
    (Q : Located Token → β → Prop) : Prop :=
  ∀ s x u, s.After all c → K s.tok → p s = .ok (x, u) → ∃ c', u.After all c' ∧ Q c' x

namespace Gives

variable {p q : P β} {f : β → P γ} {K' : Located Token → Prop} {R : Located Token → β → Prop}

lemma mono (h : Gives all K c p Q) (hK : ∀ t, K' t → K t) (hQ : ∀ c' x, Q c' x → R c' x) :
    Gives all K' c p R := by
  intro s x u hs hk hrun
  obtain ⟨c', hu, hx⟩ := h _ _ _ hs (hK _ hk) hrun
  exact ⟨c', hu, hQ c' x hx⟩

lemma bind (h : Gives all K c p Q)
    (hf : ∀ {c' x}, Q c' x → Gives all (fun _ => True) c' (f x) S) : Gives all K c (p >>= f) S := by
  intro s y u hs hk hrun
  obtain ⟨x, w, hw, hrun⟩ := bind_ok hrun
  obtain ⟨c', hw, hx⟩ := h _ _ _ hs hk hw
  exact hf hx _ _ _ hw trivial hrun

lemma pure {x : β} (h : Q c x) : Gives all K c (pure x) Q := by
  intro s y u hs hk hrun
  cases hrun
  exact ⟨c, hs, h⟩

lemma map {g : β → γ} (h : Gives all K c p Q) (hg : ∀ {c' x}, Q c' x → S c' (g x)) :
    Gives all K c (g <$> p) S := by
  exact h.bind fun hx => .pure (hg hx)

lemma ite [Decidable b] (hp : b → Gives all K c p Q) (hq : ¬ b → Gives all K c q Q) :
    Gives all K c (if b then p else q) Q := by
  split_ifs with hb
  · exact hp hb
  · exact hq hb

/-! The steps of a parser. -/

variable {k : TokenKind} {start : Span}

lemma fail {e : ParseError} : Gives all K c (fail span e) Q := by
  intro s x u hs hk hrun
  cases hrun

lemma unexpected {what : Bytes} : Gives all K c (unexpected what) Q := by
  intro s x u hs hk hrun
  cases hrun

lemma look {f : State → P β}
    (h : ∀ {span kind text r q}, Step all c ⟨span, kind, text⟩ → Gives all (· = ⟨span, kind, text⟩)
      c (f ⟨⟨span, kind, text⟩, r, q⟩) Q) : Gives all K c (get >>= f) Q := by
  rintro ⟨⟨span, kind, text⟩, r, q⟩ x u hs hk hrun
  exact h hs.step _ _ _ hs rfl hrun

lemma kind {f : TokenKind → P β} (h : ∀ k, Gives all (·.val.kind = k) c (f k) Q) :
    Gives all K c (kind >>= f) Q :=
  fun s _ _ hs _ hrun => h s.tok.val.kind _ _ _ hs rfl hrun

lemma next {f : Located Token → P β} (hK : ∀ t, K t → t.val.kind ≠ .eof)
    (hf : ∀ {t}, Step all c t → K t → Gives all (fun _ => True) t (f t) Q) :
    Gives all K c (next >>= f) Q :=
  fun _ _ _ hs hk hrun => hf hs.step hk _ _ _ (hs.next (hK _ hk)) trivial hrun

lemma advance {f : Located Token → P β}
    (hf : ∀ {t c'}, c.span.last.offset ≤ c'.span.last.offset → Gives all (fun _ => True) c'
      (f t) Q) : Gives all K c (Parser.next >>= f) Q := by
  intro s x u hs hk hrun
  by_cases hkind : s.tok.val.kind = .eof
  · have hstay : s.next.After all c := by rwa [State.next_eof hkind]
    exact hf le_rfl _ _ _ hstay trivial hrun
  · exact hf hs.step.le _ _ _ (hs.next hkind) trivial hrun

lemma expect {f : Located Token → P β} (hk : k ≠ .eof)
    (hf : ∀ {t}, Step all c t → t.val.kind = k → Gives all (fun _ => True) t (f t) Q) :
    Gives all K c (expect k >>= f) Q := by
  intro s x u hs _ hrun
  obtain ⟨t, w, hw, hrun⟩ := bind_ok hrun
  change (if s.tok.val.kind = k then Parser.next else Parser.unexpected k.text) s = _ at hw
  split_ifs at hw with hkind
  · cases hw
    exact hf hs.step hkind _ _ _ (hs.next (hkind ▸ hk)) trivial hrun
  · cases hw

lemma accept {f : Bool → P β} (hk : k ≠ .eof)
    (hf : ∀ {c' b}, c.span.last.offset ≤ c'.span.last.offset → (b = true → c'.val.kind = k) ∧
      (b = false → c' = c) → Gives all (fun _ => True) c' (f b) Q) :
    Gives all K c (accept k >>= f) Q := by
  intro s x u hs _ hbind
  obtain ⟨b, w, hw, hrun⟩ := bind_ok hbind
  obtain ⟨rfl, hkind, rfl⟩ | ⟨rfl, -, rfl⟩ := accept_ok hw
  · exact hf hs.step.le ⟨fun _ => hkind, by simp⟩ _ _ _ (hs.next (hkind ▸ hk)) trivial hrun
  · exact hf le_rfl ⟨by simp, fun _ => rfl⟩ _ _ _ hs trivial hrun

lemma name {f : Name → P β} (hf : ∀ {t}, Step all c t → (Name.mk t.span t.val.text).isPosition =
      false →
    Gives all (fun _ => True) t (f ⟨t.span, t.val.text⟩) Q) : Gives all K c (name >>= f) Q := by
  have hname : (Parser.name >>= f) = Parser.expect .ident >>= fun t => f ⟨t.span, t.val.text⟩ :=
    bind_assoc ..
  rw [hname]
  exact .expect (by simp) fun ht hkind => hf ht (ht.lexed.ident hkind)

lemma spanFrom {f : Span → P β} (h : c ∈ all → Gives all K c (f (start.through c.span)) Q) :
    Gives all K c (spanFrom start >>= f) Q := by
  intro s x u hs hk hrun
  have hprev : (Parser.spanFrom start >>= f) s = f (start.through c.span) s := by
    rw [← hs.prev]; rfl
  exact h hs.mem _ _ _ hs hk (hprev ▸ hrun)

lemma finish {F : Span → β} (h : c ∈ all → Q c (F (start.through c.span))) :
    Gives all K c (Parser.spanFrom start >>= fun u => Pure.pure (F u)) Q :=
  .spanFrom fun hc => .pure (h hc)

end Gives

/-! ### Good results -/

variable {lo mid hi : Int} {x : Expr Unit} {c1 c0 : Located Token} {inner : Inner}
  {parts : List Outline}

/-- The outline of a tree, what makes it writable, and whether a brace or a parenthesis closes it.
-/
class Result (β : Type) where
  outline : β → List Outline
  Writable : β → Prop := fun _ => True
  closed : β → Bool := fun _ => false

section Instances

instance : Result Name := { outline := Name.outline, Writable := Name.Selects }
instance : Result TypeExpr := { outline := TypeExpr.outline }
instance : Result Param := { outline := Param.outline }
instance : Result VariantDecl := { outline := VariantDecl.outline }
instance : Result (Expr Unit) := ⟨Expr.outline, Expr.Writable, Expr.isBlockLike⟩
instance : Result (FieldValue Unit) :=
  { outline := FieldValue.outline, Writable := FieldValue.Writable }
instance : Result (Block Unit) := ⟨Block.outline, Block.Writable, fun _ => true⟩
instance : Result (Stmt Unit) := { outline := Stmt.outline, Writable := Stmt.Writable }
instance : Result (Decl Unit) := { outline := Decl.outline, Writable := Decl.Writable }
instance [Result β] [Result γ] : Result (β × γ) :=
  { outline := fun x => Result.outline x.1 ++ Result.outline x.2 }

instance [Result β] : Result (Option β) where
  outline x := x.elim [] Result.outline
  Writable x := ∀ y ∈ x, Result.Writable y

instance [Result β] : Result (List β) where
  outline xs := xs.flatMap Result.outline
  Writable xs := ∀ x ∈ xs, Result.Writable x

instance : Result Item where
  outline
    | .finish value => Result.outline value
    | .stmt s => s.outline
    | .skip => []
  Writable
    | .finish value => Result.Writable value
    | .stmt s => s.Writable
    | .skip => True
  closed
    | .finish _ => true
    | _ => false

end Instances

/-- The outlines fit between two tokens. -/
def Within (all : Tokens) (c c' : Located Token) (os : List Outline) : Prop :=
  Outline.Fits (all.flatMap pieces) c.span.last.offset c'.span.last.offset os

/-- A tree that is read between two tokens. -/
structure Good [Result β] (all : Tokens) (c c' : Located Token) (x : β) : Prop where
  within : Within all c c' (Result.outline x)
  writable : Result.Writable x
  closes : Result.closed x = true → c'.val.kind = .rbrace ∨ c'.val.kind = .rparen

lemma Step.leaf (h : Step all c t) : Within all c t [.node t.span []] :=
  .node ⟨t.span, span_mem_pieces h.mem, rfl⟩ ⟨t.span, span_mem_pieces h.mem, rfl⟩ h.forward
    (sub_le_self _ Int.one_nonneg |>.trans h.forward) h.after le_rfl

namespace Within

variable {os os' : List Outline} {x : Expr Unit}

lemma skip (h : Within all c c1 os) (hle : c1.span.last.offset ≤ c'.span.last.offset) :
    Within all c c' os :=
  h.mono le_rfl hle

lemma behind (h : Within all c1 c' os) (hle : c.span.last.offset ≤ c1.span.last.offset) :
    Within all c c' os :=
  h.mono hle le_rfl

lemma append (h : Within all c c1 os) (h' : Within all c1 c' os') : Within all c c' (os ++ os') :=
  Outline.Fits.append h h'

lemma node (ht : Step all c t) (hc : c' ∈ all) (h : Within all t c' os) :
    Within all c c' [.node (t.span.through c'.span) os] := by
  have hle := h.le
  have hforward := ht.forward
  exact Outline.Fits.node ⟨t.span, span_mem_pieces ht.mem, rfl⟩ ⟨c'.span, span_mem_pieces hc, rfl⟩
    (hforward.trans hle) (h.mono (by change t.span.first.offset - 1 ≤ _; omega) le_rfl)
    ht.after le_rfl

lemma named (ht : Step all c t) (hc : c' ∈ all) (h : Within all t c' os) :
    Within all c c' [.node (t.span.through c'.span) (.node t.span [] :: os)] := by
  have hle := h.le
  have hforward := ht.forward
  exact Outline.Fits.node ⟨t.span, span_mem_pieces ht.mem, rfl⟩ ⟨c'.span, span_mem_pieces hc, rfl⟩
    (hforward.trans hle) ⟨Int.sub_one_lt_of_le le_rfl, ht.leaf.2.1, h⟩ ht.after le_rfl

lemma enclose (h : Within all c c1 x.outline) (h' : Within all c1 c' os) (hc : c' ∈ all) :
    Within all c c' [.node (x.span.through c'.span) (x.outline ++ os)] := by
  have happend := h.append h'
  obtain ⟨xs, hx⟩ := x.outline_eq
  rw [hx] at happend ⊢
  obtain ⟨hlo, hnode, hos⟩ := happend
  exact Outline.Fits.node hnode.1 ⟨c'.span, span_mem_pieces hc, rfl⟩ (hnode.forward.trans hos.le)
    ⟨Int.sub_one_lt_of_le le_rfl, hnode, hos⟩ hlo le_rfl

lemma unary (ht : Step all c t) (h : Within all t c' x.outline) :
    Within all c c' [.node (t.span.through x.span) x.outline] := by
  obtain ⟨xs, hx⟩ := x.outline_eq
  rw [hx] at h ⊢
  obtain ⟨hlo, hnode, hos⟩ := h
  have hforward := ht.forward
  have hforward' := hnode.forward
  exact Outline.Fits.node ⟨t.span, span_mem_pieces ht.mem, rfl⟩ hnode.2.1
    (hforward.trans (hlo.le.trans hforward'))
    ⟨by change t.span.first.offset - 1 < _; omega, hnode, le_rfl⟩ ht.after hos

lemma wrap (h : Within all c c' x.outline) : Within all c c' [.node x.span x.outline] := by
  obtain ⟨xs, hx⟩ := x.outline_eq
  rw [hx] at h ⊢
  obtain ⟨hlo, hnode, hos⟩ := h
  exact Outline.Fits.node hnode.1 hnode.2.1 hnode.forward
    ⟨Int.sub_one_lt_of_le le_rfl, hnode, le_rfl⟩ hlo hos

end Within

lemma fits_join {pieces : List Span} (h : Outline.Fits pieces lo mid x.outline)
    (h' : Outline.Fits pieces mid hi [.node span parts]) :
    Outline.Fits pieces lo hi [.node (x.span.through span) (x.outline ++ [.node span parts])] := by
  obtain ⟨xs, hx⟩ := x.outline_eq
  rw [hx] at h ⊢
  obtain ⟨hlo, hnode, hos⟩ := h
  obtain ⟨hlo', hnode', hos'⟩ := h'
  have hafter := hos.le.trans_lt hlo'
  exact Outline.Fits.node hnode.1 hnode'.2.1 (hnode.forward.trans (hafter.le.trans hnode'.forward))
    ⟨Int.sub_one_lt_of_le le_rfl, hnode, hafter, hnode', le_rfl⟩ hlo hos'

lemma Within.join {y : Expr Unit} (h : Within all c c1 x.outline)
    (h' : Within all c1 c' y.outline) :
    Within all c c' [.node (x.span.through y.span) (x.outline ++ y.outline)] := by
  obtain ⟨parts, hy⟩ := y.outline_eq
  rw [hy] at h' ⊢
  exact fits_join h h'

namespace Good

variable [Result β] {x : β} {done : List β}

lemma skip (h : Good all c c1 x) (hx : Result.closed x = false)
    (hle : c1.span.last.offset ≤ c'.span.last.offset) : Good all c c' x :=
  ⟨h.within.skip hle, h.writable, fun hclosed => by rw [hx] at hclosed; cases hclosed⟩

lemma nil : Good all c c ([] : List β) :=
  ⟨le_rfl, forall_mem_nil _, nofun⟩

lemma none : Good all c c (none : Option β) :=
  ⟨le_rfl, nofun, nofun⟩

lemma some (h : Good all c c' x) : Good all c c' (some x) :=
  ⟨h.within, by simpa [Result.Writable] using h.writable, nofun⟩

lemma snoc (hdone : Good all c c1 done.reverse) (hx : Good all c1 c' x) :
    Good all c c' (x :: done).reverse := by
  refine ⟨?_, ?_, nofun⟩
  · rw [reverse_cons]
    simpa [Result.outline] using hdone.within.append hx.within
  · have := hdone.writable
    simp_all [Result.Writable, or_imp, hx.writable]

lemma types {ts : List TypeExpr} (h : Good all c c' ts) :
    Within all c c' (TypeExpr.listOutline ts) := by
  rw [TypeExpr.listOutline_eq]
  exact h.within

lemma exprs {xs : List (Expr Unit)} (h : Good all c c' xs) :
    Within all c c' (Expr.listOutline xs) ∧ Expr.ListWritable xs := by
  rw [Expr.listOutline_eq, Expr.listWritable_iff]
  exact ⟨h.within, h.writable⟩

lemma fields {fs : List (FieldValue Unit)} (h : Good all c c' fs) :
    Within all c c' (FieldValue.listOutline fs) ∧ FieldValue.ListWritable fs := by
  rw [FieldValue.listOutline_eq, FieldValue.listWritable_iff]
  exact ⟨h.within, h.writable⟩

lemma stmts {ss : List (Stmt Unit)} (h : Good all c c' ss) :
    Within all c c' (Stmt.listOutline ss) ∧ Stmt.ListWritable ss := by
  rw [Stmt.listOutline_eq, Stmt.listWritable_iff]
  exact ⟨h.within, h.writable⟩

end Good

namespace Gives

variable [Result β] {p : P β} {closing : TokenKind}

lemma optional [Decidable b] {f : Option β → P γ} (hp : Gives all K c p (Good all c))
    (hf : ∀ {c' x}, Good all c c' x → Gives all (fun _ => True) c' (f x) S) :
    Gives all K c (if b then (some <$> p) >>= f else Pure.pure none >>= f) S :=
  .ite (fun _ => .bind (hp.map .some) hf) fun _ => .bind (.pure .none) hf

variable (hp : ∀ c K, Gives all K c p (Good all c))

include hp

lemma elements (n : Nat) {done : List β} (hdone : Good all c0 c done.reverse) :
    Gives all K c (elements closing p n done) (Good all c0) := by
  induction n generalizing c done K with
  | zero => exact .pure hdone
  | succ n ih =>
    refine .kind fun k => ?_
    refine .ite (fun _ => .pure hdone) fun _ => ?_
    refine .bind (hp c _) fun hx => ?_
    refine .accept (by simp) fun hle _ => ?_
    have hmore := (hdone.snoc hx).skip rfl hle
    exact .ite (fun _ => ih hmore) fun _ => .pure hmore

lemma list {limit : Nat} (hc : closing ≠ .eof) :
    Gives all K c (list limit closing p) fun c' xs => Good all c c' xs ∧ c'.val.kind = closing := by
  refine .bind (elements hp limit .nil) fun hxs => ?_
  refine .expect hc fun ht hk => ?_
  exact .pure ⟨hxs.skip rfl ht.le, hk⟩

end Gives

/-! ### The functions of the grammar -/

/-- The inner parsers give good trees. -/
structure GivesInner (all : Tokens) (inner : Inner) : Prop where
  type {c : Located Token} {K : Located Token → Prop} : Gives all K c inner.type (Good all c)
  block {c : Located Token} {K : Located Token → Prop} : Gives all K c inner.block (Good all c)
  cond {c : Located Token} : Gives all (·.val.kind = .kwIf) c inner.cond
    fun c' x => Good all c c' x ∧ x.isBlockLike = true
  expr {c : Located Token} {K : Located Token → Prop} (structs : Bool) :
    Gives all K c (inner.expr structs) (Good all c)
  binary {c : Located Token} {K : Located Token → Prop} (structs : Bool) (minPrec : Nat) :
    Gives all K c (inner.binary structs minPrec) (Good all c)
  unary {c : Located Token} {K : Located Token → Prop} (structs : Bool) :
    Gives all K c (inner.unary structs) (Good all c)

section Grammar

variable (h : GivesInner all inner)

include h

/-! Types. -/

lemma gives_typeExpr : Gives all K c (typeExpr inner) (Good all c) := by
  refine .look fun {span kind text _ _} ht => ?_
  cases kind with
  | ident =>
    refine .next (by simp) ?_
    rintro _ ht rfl
    exact .pure ⟨ht.leaf, trivial, nofun⟩
  | lbracket =>
    refine .next (by simp) ?_
    rintro _ ht rfl
    refine .bind h.type fun hx => ?_
    refine .expect (by simp) fun he _ => ?_
    refine .finish fun hc => ?_
    exact ⟨.node ht hc (hx.within.skip he.le), trivial, nofun⟩
  | kwFn =>
    refine .next (by simp) ?_
    rintro _ ht rfl
    refine .expect (by simp) fun ho _ => ?_
    refine .bind (.list (fun _ _ => h.type) (by simp)) fun hps => ?_
    refine .accept (by simp) fun hle _ => ?_
    refine .optional h.type fun {_ r} hr => ?_
    refine .finish fun hc => ⟨?_, trivial, nofun⟩
    have hparts := ((hps.1.types.behind ho.le).skip hle).append hr.within
    cases r with
    | none => exact .node ht hc (by simpa [Result.outline] using hparts)
    | some r => exact .node ht hc hparts
  | _ => exact .unexpected

lemma gives_param : Gives all K c (param inner) (Good all c) := by
  refine .name fun hn _ => ?_
  refine .expect (by simp) fun hq _ => ?_
  refine .bind (gives_typeExpr h) fun hx => ?_
  refine .finish fun hc => ?_
  exact ⟨.named hn hc (hx.within.behind hq.le), trivial, nofun⟩

lemma gives_signature : Gives all K c (signature inner) (Good all c) := by
  refine .expect (by simp) fun ho _ => ?_
  refine .bind (.list (fun _ _ => gives_param h) (by simp)) fun hps => ?_
  refine .accept (by simp) fun hle _ => ?_
  refine .optional (gives_typeExpr h) fun hr => ?_
  exact .pure ⟨((hps.1.within.behind ho.le).skip hle).append hr.within, trivial, nofun⟩

/-! Statements. -/

section

variable (hK : ∀ t, K t → t.val.kind ≠ .eof)

include hK

lemma gives_letStmt : Gives all K c (letStmt inner) (Good all c) := by
  refine .next hK fun ht _ => ?_
  refine .name fun hn _ => ?_
  refine .accept (by simp) fun hle _ => ?_
  refine .optional h.type fun hty => ?_
  refine .expect (by simp) fun hq _ => ?_
  refine .bind (h.expr true) fun hx => ?_
  refine .expect (by simp) fun hs _ => ?_
  refine .finish fun hc => ?_
  have hparts := (((hn.leaf.skip hle).append hty.within).skip hq.le).append hx.within
  exact ⟨.node ht hc (hparts.skip hs.le), hx.writable, nofun⟩

lemma gives_returnStmt : Gives all K c (returnStmt inner) (Good all c) := by
  refine .next hK fun {t} ht _ => ?_
  have hrest : ∀ {c'} {v : Option (Expr Unit)}, Good all t c' v → Gives all (fun _ => True) c'
      (spanFrom t.span >>= fun span => accept .semicolon >>= fun _ => pure (Stmt.ret span v))
      (Good all c) := by
    intro c' v hv
    refine .spanFrom fun hc => ?_
    refine .accept (by simp) fun hle _ => .pure ?_
    have hnode := (Within.node ht hc hv.within).skip hle
    cases v with
    | none => exact ⟨hnode, trivial, nofun⟩
    | some v => exact ⟨hnode, hv.writable v rfl, nofun⟩
  refine .kind fun _ => .ite (fun _ => ?_) fun _ => ?_
  · exact .bind (.pure .none) hrest
  · exact .bind ((h.expr true).map .some) hrest

lemma gives_whileStmt : Gives all K c (whileStmt inner) (Good all c) := by
  refine .next hK fun ht _ => ?_
  refine .bind (h.expr false) fun hx => ?_
  refine .bind h.block fun hb => ?_
  refine .finish fun hc => ?_
  exact ⟨.node ht hc (hx.within.append hb.within), ⟨hx.writable, hb.writable⟩, nofun⟩

lemma gives_forStmt : Gives all K c (forStmt inner) (Good all c) := by
  refine .next hK fun ht _ => ?_
  refine .name fun hn _ => ?_
  refine .expect (by simp) fun hq _ => ?_
  refine .bind (h.expr false) fun hx => ?_
  refine .accept (by simp) fun hle _ => ?_
  have hfirst := ((hn.leaf.skip hq.le).append hx.within).skip hle
  refine .ite (fun _ => ?_) fun _ => ?_
  · refine .bind (h.expr false) fun hy => ?_
    refine .bind h.block fun hb => ?_
    refine .finish fun hc => ?_
    have hparts := (hfirst.append hy.within).append hb.within
    exact ⟨.node ht hc hparts, ⟨hx.writable, hy.writable, hb.writable⟩, nofun⟩
  · refine .bind h.block fun hb => ?_
    refine .finish fun hc => ?_
    exact ⟨.node ht hc (hfirst.append hb.within), ⟨hx.writable, hb.writable⟩, nofun⟩

end

lemma gives_exprItem : Gives all K c (inner.expr true >>= exprItem) (Good all c) := by
  refine .bind (h.expr true) fun {_ x} hx => ?_
  refine .accept (by simp) fun hle hb => ?_
  refine .ite (fun hbrace => ?_) fun _ => ?_
  · exact .pure ⟨hx.within.skip hle, hx.some.writable, fun _ => .inl (hb.1 hbrace)⟩
  · refine .accept (by simp) fun {c' _} hle' _ => ?_
    have hstmt : Good all c c' (Item.stmt (.expr x)) :=
      ⟨hx.within.wrap.skip (hle.trans hle'), hx.writable, nofun⟩
    exact .ite (fun _ => .pure hstmt) fun _ => .ite (fun _ => .pure hstmt) fun _ => .unexpected

lemma gives_item : Gives all K c (item inner) (Good all c) := by
  refine .kind fun k => ?_
  cases k with
  | rbrace => exact .next (by simp +contextual) fun ht hk => .pure ⟨ht.le, nofun, fun _ => .inl hk⟩
  | kwLet =>
    exact .map (gives_letStmt h (by simp +contextual)) fun hs => ⟨hs.within, hs.writable, nofun⟩
  | kwReturn =>
    exact .map (gives_returnStmt h (by simp +contextual)) fun hs => ⟨hs.within, hs.writable, nofun⟩
  | kwWhile =>
    exact .map (gives_whileStmt h (by simp +contextual)) fun hs => ⟨hs.within, hs.writable, nofun⟩
  | kwFor =>
    exact .map (gives_forStmt h (by simp +contextual)) fun hs => ⟨hs.within, hs.writable, nofun⟩
  | semicolon => exact .next (by simp +contextual) fun ht _ => .pure ⟨ht.le, trivial, nofun⟩
  | eof => exact .unexpected
  | _ => exact gives_exprItem h

lemma gives_items (ht : Step all c0 t) (n : Nat) {done : List (Stmt Unit)}
    (hdone : Good all t c done.reverse) :
    Gives all K c (items inner t.span n done) (Good all c0) := by
  induction n generalizing c done K with
  | zero => exact .unexpected
  | succ n ih =>
    refine .bind (gives_item h) fun {_ i} hi => ?_
    cases i with
    | finish v =>
      refine .finish fun hc => ?_
      cases v with
      | none =>
        have hparts := hdone.stmts.1.skip hi.within.le
        exact ⟨.node ht hc hparts, hdone.stmts.2, fun _ => hi.closes rfl⟩
      | some v =>
        have hparts := hdone.stmts.1.append hi.within
        exact ⟨.node ht hc hparts, ⟨hdone.stmts.2, hi.writable v rfl⟩, fun _ => hi.closes rfl⟩
    | stmt s => exact ih (hdone.snoc ⟨hi.within, hi.writable, nofun⟩)
    | skip => exact ih (hdone.skip rfl hi.within.le)

lemma gives_block : Gives all K c (block inner) (Good all c) :=
  .expect (by simp) fun ht _ => gives_items h ht _ .nil

end Grammar

/-! Selections and literals. -/

variable {ns : List Name} {k : Int}

lemma gives_position (span : Span) (ht : Digits text) :
    Gives all K c (position span text) fun c' n => c' = c ∧ n.span = span ∧ n.Selects := by
  unfold position
  rw [Decimal.readInt?_digits ht.1 ht.2]
  split_ifs with hlt
  · exact .pure ⟨rfl, rfl, fun _ => ⟨Decimal.value text, hlt, rfl⟩⟩
  · exact .fail

lemma cutPoint_eq {whole fraction : Bytes} (hw : Digits whole) :
    cutPoint (whole ++ 46 :: fraction) = (whole, fraction) := by
  have hpoint := Double.digit_ne hw.2 (c := 46) rfl
  rw [cutPoint, takeWhile_append_of_pos hpoint, dropWhile_append_of_pos hpoint]
  simp

lemma Step.positions (h : Step all c t) (hk : t.val.kind = .float) :
    Within all c t [.node (positions t).1 [], .node (positions t).2 []] := by
  obtain ⟨whole, fraction, htext, hw, hf⟩ := h.lexed.float hk
  have hpiece : ∀ q ∈ pieces t, q ∈ all.flatMap pieces := fun q hq => mem_flatMap.mpr ⟨t, h.mem, hq⟩
  simp only [pieces, hk, if_true, forall_mem_cons] at hpiece
  have hlast := h.float hk
  have hwhole := length_pos_iff.mpr hw.1
  have hfraction := length_pos_iff.mpr hf.1
  simp only [htext, length_append, length_cons] at hlast
  have hfirst := h.after
  refine ⟨hfirst, ⟨⟨_, hpiece.2.1, rfl⟩, ⟨_, hpiece.2.1, rfl⟩, ?_, ?_⟩, ?_,
    ⟨⟨_, hpiece.2.2.1, rfl⟩, ⟨_, hpiece.2.2.1, rfl⟩,
    ?_, ?_⟩, ?_⟩ <;> simp only [Outline.span, Outline.Fits, Parser.positions, htext,
      cutPoint_eq hw] <;> omega

lemma gives_selectors : Gives all K c selectors fun c' ns => Good all c c' ns ∧ ns ≠ [] := by
  have hname : ∀ K, Gives all K c (name >>= fun n => pure [n]) fun c' ns =>
      Good all c c' ns ∧ ns ≠ [] := by
    refine fun K => .name fun ht hn => .pure ⟨⟨ht.leaf, ?_, nofun⟩, cons_ne_nil _ _⟩
    simpa [Result.Writable, Name.Selects] using fun hpos => absurd (hn.symm.trans hpos)
      Bool.false_ne_true
  refine .look fun {span kind text _ _} _ => ?_
  cases kind with
  | int =>
    refine .next (by simp) ?_
    rintro _ ht rfl
    refine .bind (gives_position span (ht.lexed.int rfl)) ?_
    rintro _ n ⟨rfl, hspan, hn⟩
    refine .pure ⟨⟨?_, by simpa [Result.Writable] using hn, nofun⟩, cons_ne_nil _ _⟩
    simpa [Result.outline, Name.outline, hspan] using ht.leaf
  | float =>
    refine .next (by simp) ?_
    rintro _ ht rfl
    have hparts := ht.positions rfl
    obtain ⟨whole, fraction, htext, hw, hf⟩ := ht.lexed.float rfl
    subst htext
    simp only [positions, cutPoint_eq hw] at hparts ⊢
    refine .bind (gives_position _ hw) ?_
    rintro _ m ⟨rfl, hm, hsm⟩
    refine .bind (gives_position _ hf) ?_
    rintro _ n ⟨rfl, hn, hsn⟩
    refine .pure ⟨⟨?_, by simpa [Result.Writable] using ⟨hsm, hsn⟩, nofun⟩, cons_ne_nil _ _⟩
    simpa [Result.outline, Name.outline, hm, hn] using hparts
  | _ => exact hname _

lemma writable_selectAll (hx : x.Writable) (hns : ∀ n ∈ ns, n.Selects) :
    (selectAll x ns).Writable := by
  induction ns generalizing x with
  | nil => exact hx
  | cons n ns ih =>
    exact ih ⟨hx, hns n mem_cons_self⟩ fun m hm => hns m (mem_cons_of_mem n hm)

lemma fits_selectAll {pieces : List Span} (hx : Outline.Fits pieces lo mid x.outline)
    (hns : Outline.Fits pieces mid hi (ns.flatMap Name.outline)) :
    Outline.Fits pieces lo hi (selectAll x ns).outline := by
  induction ns generalizing x mid with
  | nil => exact hx.mono le_rfl hns
  | cons n ns ih =>
    obtain ⟨hlo, hnode, hns⟩ := hns
    exact ih (fits_join hx ⟨hlo, hnode, le_rfl⟩) hns

lemma isBlockLike_selectAll (h : x.isBlockLike = false ∨ ns ≠ []) :
    (selectAll x ns).isBlockLike = false := by
  induction ns generalizing x with
  | nil => exact h.resolve_right (absurd rfl)
  | cons n ns ih => exact ih (.inl rfl)

lemma Good.selectAll (hx : Good all c c1 x) (hns : Good all c1 c' ns) (hne : ns ≠ []) :
    Good all c c' (selectAll x ns) := by
  refine ⟨fits_selectAll hx.within hns.within, writable_selectAll hx.writable hns.writable,
    fun hclosed => ?_⟩
  cases (isBlockLike_selectAll (.inr hne)).symm.trans hclosed

lemma writable_int (ht : Digits text) (hk : Decimal.readInt? text = some k) :
    (Literal.int (.ofInt k)).Writable := by
  rw [Decimal.readInt?_digits ht.1 ht.2] at hk
  split_ifs at hk with hlt
  cases hk
  left
  rw [Int64.le_iff_toInt_le, Int64.toInt_ofInt_of_le (by omega) (by omega)]
  exact Int.natCast_nonneg _

lemma writable_leastInt (ht : Digits text) (hnone : Decimal.readInt? text = none)
    (hk : Decimal.readInt? (45 :: text) = some k) : (Literal.int (.ofInt k)).Writable := by
  rw [Decimal.readInt?_digits ht.1 ht.2] at hnone
  rw [Decimal.readInt?_minus ht.1 ht.2] at hk
  split_ifs at hnone hk with hlt hle
  cases hk
  have hvalue : Decimal.value text = 2 ^ 63 := by omega
  right
  rw [hvalue]
  rfl

lemma writable_float {t : Token} (ht : t.Lexed) (hkind : t.kind = .float) {x : Double}
    (hx : Double.read? t.text = some x) : (Literal.float x).Writable := by
  obtain ⟨whole, fraction, htext, hw, hf⟩ := ht.float hkind
  have hnumeral : Double.Numeral t.text := by
    rw [htext, ← append_nil fraction]
    exact .point hw.1 hw.2 hf.2 Double.isScale_nil
  exact hnumeral.isFinite hx

lemma leastAhead_eq_some {t : Token} {more : List Token} {n : Int}
    (h : leastAhead (t :: more) = some n) :
    t.kind = .int ∧ Decimal.readInt? t.text = none ∧ Decimal.readInt? (45 :: t.text) = some n := by
  rw [leastAhead] at h
  split_ifs at h with hk hread
  exact ⟨not_not.mp (not_or.mp hk).1, by simpa using hread, h⟩

lemma gives_leastInt {f : Option (Expr Unit) → P β}
    (hnone : Gives all (·.val.kind = .minus) c (f none) Q)
    (hsome : ∀ {c' x}, Good all c c' x → Gives all (fun _ => True) c' (f (some x)) Q) :
    Gives all (·.val.kind = .minus) c (leastInt? >>= f) Q := by
  intro s y u hs hk hrun
  rw [leastInt?_bind f hk] at hrun
  obtain ⟨tok, rest, prev⟩ := s
  have hne : tok.val.kind ≠ .eof := by rw [hk]; decide
  cases hleast : leastAhead (rest.map Located.val) with
  | none =>
    rw [hleast] at hrun
    exact hnone _ _ _ hs hk hrun
  | some n =>
    rw [hleast] at hrun
    obtain _ | ⟨t, more⟩ := rest
    · cases hleast
    · obtain ⟨hint, hread, hleast⟩ := leastAhead_eq_some hleast
      have hnext : State.next ⟨tok, t :: more, prev⟩ = ⟨t, more, tok.span⟩ := if_neg hne
      have hs' := hs.next hne
      change f (some (.lit (tok.span.through (State.next ⟨tok, t :: more, prev⟩).tok.span) () _))
        (State.next (State.next ⟨tok, t :: more, prev⟩)) = _ at hrun
      rw [hnext] at hs' hrun
      have ht := hs'.step
      have hu := hs'.next (by rw [hint]; decide)
      have hnode : Within all c t [.node (tok.span.through t.span) []] :=
        .node hs.step hu.mem (ht.le : Within all tok t [])
      have hgood : Good all c t (Expr.lit (tok.span.through t.span) () (.int (.ofInt n))) :=
        ⟨hnode, writable_leastInt (ht.lexed.int hint) hread hleast, nofun⟩
      exact hsome hgood _ _ _ hu trivial hrun

/-! Expressions. -/

section Grammar

variable (h : GivesInner all inner)

include h

lemma gives_fieldValue : Gives all K c (fieldValue inner) (Good all c) := by
  refine .name fun hn _ => ?_
  refine .expect (by simp) fun hq _ => ?_
  refine .bind (h.expr true) fun hx => ?_
  refine .finish fun hc => ?_
  exact ⟨.named hn hc (hx.within.behind hq.le), hx.writable, nofun⟩

lemma gives_structLit : Gives all K c (structLit inner) (Good all c) := by
  refine .name fun hn _ => ?_
  refine .advance fun hle => ?_
  refine .bind (.list (fun _ _ => gives_fieldValue h) (by simp)) fun hfs => ?_
  refine .finish fun hc => ?_
  exact ⟨.named hn hc (hfs.1.fields.1.behind hle), hfs.1.fields.2, nofun⟩

lemma gives_cond (hK : ∀ t, K t → t.val.kind ≠ .eof) :
    Gives all K c (cond inner) fun c' x => Good all c c' x ∧ x.isBlockLike = true := by
  refine .next hK fun {t} ht _ => ?_
  refine .bind (h.expr false) fun {_ x} hx => ?_
  refine .bind h.block fun {c2 b} hb => ?_
  have hrest : ∀ {c' e}, Good all c2 c' e ∧ (∀ y ∈ e, y.isBlockLike = true) ∧
      (c'.val.kind = .rbrace ∨ c'.val.kind = .rparen) → Gives all (fun _ => True) c'
        (spanFrom t.span >>= fun span => pure (Expr.cond span () x b e))
        fun c' x => Good all c c' x ∧ x.isBlockLike = true := by
    rintro c' e ⟨he, hlike, hclose⟩
    refine .finish fun hc => ⟨?_, rfl⟩
    have hparts := hx.within.append hb.within
    cases e with
    | none =>
      exact ⟨.node ht hc (hparts.skip he.within.le), ⟨hx.writable, hb.writable⟩, fun _ => hclose⟩
    | some e =>
      exact ⟨.node ht hc (hparts.append he.within),
        ⟨hx.writable, hb.writable, he.writable e rfl, hlike e rfl⟩, fun _ => hclose⟩
  refine .accept (by simp) fun {c3 _} hle helse => ?_
  refine .ite (fun _ => .kind fun k => .ite ?_ fun _ => ?_) fun hnot => ?_
  · rintro rfl
    refine .bind (.map h.cond fun he => ?_) hrest
    exact ⟨⟨he.1.within.behind hle, he.1.some.writable, nofun⟩, by simpa using he.2,
      he.1.closes he.2⟩
  · refine .bind (.map h.block fun he => ?_) hrest
    exact ⟨⟨he.within.behind hle, by simpa [Result.Writable, Expr.Writable] using he.writable,
      nofun⟩, by simp [Expr.isBlockLike], he.closes rfl⟩
  · obtain rfl := helse.2 (by simpa using hnot)
    exact .bind (.pure ⟨.none, nofun, hb.closes rfl⟩) hrest

lemma gives_lambda (hK : ∀ t, K t → t.val.kind ≠ .eof) :
    Gives all K c (lambda inner) (Good all c) := by
  refine .next hK fun ht _ => ?_
  refine .bind (gives_signature h) fun hsig => ?_
  refine .bind h.block fun hb => ?_
  refine .finish fun hc => ?_
  exact ⟨.node ht hc (hsig.within.append hb.within), hb.writable, nofun⟩

omit h in
lemma Gives.startsStruct {f : Bool → P β}
    (hf : ∀ b, Gives all K c (f b) Q) : Gives all K c (startsStruct >>= f) Q := by
  intro s x u hs hk hrun
  rw [startsStruct_bind] at hrun
  exact hf _ _ _ _ hs hk hrun

variable (structs : Bool)

include structs

lemma gives_primary : Gives all K c (primary inner structs) (Good all c) := by
  refine .look fun {span kind text _ _} ht => ?_
  cases kind with
  | int =>
    refine .next (by simp) ?_
    rintro _ ht rfl
    split
    · next n hn => exact .pure ⟨ht.leaf, writable_int (ht.lexed.int rfl) hn, nofun⟩
    · exact .fail
  | float =>
    refine .next (by simp) ?_
    rintro _ ht rfl
    split
    · next x hx => exact .pure ⟨ht.leaf, writable_float ht.lexed rfl hx, nofun⟩
    · exact .fail
  | string | kwTrue | kwFalse =>
    refine .next (by simp) ?_
    rintro _ ht rfl
    exact .pure ⟨ht.leaf, trivial, nofun⟩
  | ident =>
    refine .startsStruct fun b => ?_
    refine .ite (fun _ => gives_structLit h) fun _ => .next (by simp) ?_
    rintro _ ht rfl
    exact .pure ⟨ht.leaf, trivial, nofun⟩
  | lparen =>
    refine .next (by simp) fun ht _ => ?_
    refine .bind (h.expr true) fun hx => ?_
    refine .expect (by simp) fun he hk => ?_
    exact .pure ⟨(hx.within.behind ht.le).skip he.le, hx.writable, fun _ => .inr hk⟩
  | lbracket =>
    refine .next (by simp) ?_
    rintro _ ht rfl
    refine .bind (.list (fun _ _ => h.expr true) (by simp)) fun hxs => ?_
    refine .finish fun hc => ?_
    exact ⟨.node ht hc hxs.1.exprs.1, hxs.1.exprs.2, nofun⟩
  | lbrace => exact (gives_block h).map fun hb => ⟨hb.within, hb.writable, hb.closes⟩
  | kwIf => exact (gives_cond h (by simp)).mono (fun _ ht => ht) fun _ _ hx => hx.1
  | kwFn => exact gives_lambda h (by simp)
  | _ => exact .unexpected

omit structs in
lemma gives_suffixes (n : Nat) (hx : Good all c0 c x) :
    Gives all K c (suffixes inner n x) (Good all c0) := by
  induction n generalizing c x K with
  | zero => exact .pure hx
  | succ n ih =>
    refine .kind fun k => ?_
    cases k with
    | lparen =>
      refine .next (by simp +contextual) fun ht _ => ?_
      refine .bind (.list (fun _ _ => h.expr true) (by simp)) fun hxs => ?_
      refine .spanFrom fun hc => ?_
      have hcall := hx.within.enclose (hxs.1.exprs.1.behind ht.le) hc
      exact ih ⟨hcall, ⟨hx.writable, hxs.1.exprs.2⟩, nofun⟩
    | dot =>
      refine .next (by simp +contextual) fun ht _ => ?_
      refine .bind gives_selectors fun hns => ?_
      exact ih (hx.selectAll ⟨hns.1.within.behind ht.le, hns.1.writable, nofun⟩ hns.2)
    | lbracket =>
      refine .next (by simp +contextual) fun ht _ => ?_
      refine .bind (h.expr true) fun hi => ?_
      refine .expect (by simp) fun he _ => ?_
      refine .spanFrom fun hc => ?_
      have hindex := hx.within.enclose ((hi.within.behind ht.le).skip he.le) hc
      exact ih ⟨hindex, ⟨hx.writable, hi.writable⟩, nofun⟩
    | _ => exact .pure hx

lemma gives_negated (op : UnaryOp) (hK : ∀ t, K t → t.val.kind ≠ .eof) :
    Gives all K c (negated inner structs op) (Good all c) := by
  refine .next hK fun ht _ => ?_
  refine .bind (h.unary structs) fun hx => ?_
  exact .pure ⟨.unary ht hx.within, hx.writable, nofun⟩

lemma gives_unary : Gives all K c (unary inner structs) (Good all c) := by
  refine .kind fun k => ?_
  cases k with
  | minus =>
    exact gives_leastInt (gives_negated h structs .neg (by simp +contextual)) fun hx => .pure hx
  | bang => exact gives_negated h structs .not (by simp +contextual)
  | _ => exact .bind (gives_primary h structs) fun hx => gives_suffixes h _ hx

lemma gives_operations (minPrec n : Nat) (hx : Good all c0 c x) :
    Gives all K c (operations inner structs minPrec n x) (Good all c0) := by
  induction n generalizing c x K with
  | zero => exact .pure hx
  | succ n ih =>
    refine .kind fun k => ?_
    split
    · exact .pure hx
    · next op hop =>
      have hne : ∀ t : Located Token, t.val.kind = k → t.val.kind ≠ .eof := by
        rintro t rfl heof
        rw [heof] at hop
        cases hop
      refine .ite (fun _ => .pure hx) fun _ => ?_
      refine .next hne fun ht _ => ?_
      refine .bind (h.binary structs _) fun hy => ?_
      exact ih ⟨hx.within.join (hy.within.behind ht.le), ⟨hx.writable, hy.writable⟩, nofun⟩

lemma gives_binary (minPrec : Nat) : Gives all K c (binary inner structs minPrec) (Good all c) :=
  .bind (gives_unary h structs) fun hx => gives_operations h structs minPrec _ hx

lemma gives_expr : Gives all K c (expr inner structs) (Good all c) := by
  refine .bind (gives_binary h structs 1) fun hx => ?_
  refine .kind fun k => ?_
  refine .ite ?_ fun _ => .pure hx
  rintro rfl
  refine .next (by simp +contextual) fun ht _ => ?_
  refine .ite (fun htarget => ?_) fun _ => .fail
  refine .bind (h.expr structs) fun hy => ?_
  have hjoin := hx.within.join (hy.within.behind ht.le)
  exact .pure ⟨hjoin, ⟨hx.writable, hy.writable, htarget⟩, nofun⟩

end Grammar

lemma givesInner_nested (n : Nat) : GivesInner all (nested n) := by
  induction n with
  | zero =>
    exact ⟨.unexpected, .unexpected, .unexpected, fun _ => .unexpected, fun _ _ => .unexpected,
      fun _ => .unexpected⟩
  | succ n ih =>
    exact ⟨gives_typeExpr ih, gives_block ih, gives_cond ih (by simp +contextual), gives_expr ih,
      gives_binary ih, gives_unary ih⟩

/-! ### Declarations -/

section Declarations

variable (h : GivesInner all inner)

include h

lemma gives_variant : Gives all K c (variant inner) (Good all c) := by
  refine .name fun {t} hn _ => .accept (by simp) fun {c1 _} hle _ => ?_
  have hrest : ∀ {c' ts}, Good all c1 c' ts → Gives all (fun _ => True) c'
      (spanFrom t.span >>= fun span => pure (VariantDecl.mk span ⟨t.span, t.val.text⟩ ts))
      (Good all c) := by
    intro c' ts hts
    refine .finish fun hc => ?_
    exact ⟨.named hn hc (hts.types.behind hle), trivial, nofun⟩
  refine .ite (fun _ => ?_) fun _ => .bind (.pure .nil) hrest
  exact .bind (.list (fun _ _ => gives_typeExpr h) (by simp)) fun hts => hrest hts.1

lemma gives_decl : Gives all K c (decl inner) (Good all c) := by
  refine .kind fun k => ?_
  cases k with
  | kwFn =>
    refine .next (by simp +contextual) fun ht _ => ?_
    refine .name fun hn _ => ?_
    refine .bind (gives_signature h) fun hsig => ?_
    refine .bind (gives_block h) fun hb => ?_
    refine .finish fun hc => ?_
    exact ⟨.node ht hc ((hn.leaf.append hsig.within).append hb.within), hb.writable, nofun⟩
  | kwStruct =>
    refine .next (by simp +contextual) fun ht _ => ?_
    refine .name fun hn _ => ?_
    refine .expect (by simp) fun ho _ => ?_
    refine .bind (.list (fun _ _ => gives_param h) (by simp)) fun hps => ?_
    refine .finish fun hc => ?_
    exact ⟨.node ht hc ((hn.leaf.skip ho.le).append hps.1.within), trivial, nofun⟩
  | kwEnum =>
    refine .next (by simp +contextual) fun ht _ => ?_
    refine .name fun hn _ => ?_
    refine .expect (by simp) fun ho _ => ?_
    refine .bind (.list (fun _ _ => gives_variant h) (by simp)) fun hvs => ?_
    refine .spanFrom fun hc => ?_
    refine .ite (fun _ => .fail) fun hne => ?_
    refine .pure ⟨.node ht hc ((hn.leaf.skip ho.le).append hvs.1.within), ?_, nofun⟩
    simpa [Result.Writable, Decl.Writable] using hne
  | kwType =>
    refine .next (by simp +contextual) fun ht _ => ?_
    refine .name fun hn _ => ?_
    refine .expect (by simp) fun hq _ => ?_
    refine .bind (gives_typeExpr h) fun hx => ?_
    refine .expect (by simp) fun hs _ => ?_
    refine .finish fun hc => ?_
    exact ⟨.node ht hc (((hn.leaf.skip hq.le).append hx.within).skip hs.le), trivial, nofun⟩
  | _ => exact .unexpected

lemma gives_decls (n : Nat) {done : List (Decl Unit)} (hdone : Good all c0 c done.reverse) :
    Gives all K c (decls inner n done) (Good all c0) := by
  induction n generalizing c done K with
  | zero => exact .pure hdone
  | succ n ih =>
    refine .kind fun _ => .ite (fun _ => .pure hdone) fun _ => ?_
    exact .bind (gives_decl h) fun hd => ih (hdone.snoc hd)

end Declarations

/-! ### Programs -/

variable {toks : Tokens}

lemma tiled_of_tokenize (h : tokenize text = .ok toks) :
    Tiled text text.length toks ∧ ∃ init, toks = init ++ [Lexer.endToken text] ∧
    ∀ t ∈ init, t.val.kind ≠ .eof := by
  obtain ⟨init, rfl, hinit⟩ := Lexer.covered_of_tokenize h
  exact ⟨Lexer.tiled_endToken hinit, init, rfl, hinit.kind_ne_eof⟩

lemma ofText_of_tokenize (h : tokenize text = .ok toks) : OfText toks := by
  obtain ⟨htiled, init, hinit, -⟩ := tiled_of_tokenize h
  refine ⟨lexed_tokenize h, htiled.forward, htiled.apart, fun t ht hk => ?_, init, _, hinit, rfl⟩
  have hslice := congrArg length (htiled.slice t ht (by simp [hk]) [])
  obtain ⟨hfirst, -⟩ := (htiled.placed t ht).1.bounds
  have hlast := htiled.within t ht (by simp [hk])
  have hforward := htiled.forward t ht
  rw [SourceFile.slice, if_neg (by simp; omega), length_drop, length_take] at hslice
  simp only [] at hslice
  omega

/-- A token before the first one. -/
def sentinel (t : Located Token) : Located Token :=
  ⟨.point { t.span.first with offset := t.span.first.offset - 1 }, ⟨.semicolon, []⟩⟩

lemma OfText.behindSentinel (h : OfText (t :: toks)) : OfText (sentinel t :: t :: toks) := by
  obtain ⟨hlexed, hforward, hapart, hfloat, init, e, hinit, he⟩ := h
  refine ⟨?_, ?_, ?_, ?_, sentinel t :: init, e, by rw [hinit]; rfl, he⟩
  · exact forall_mem_cons.mpr ⟨⟨nofun, nofun, nofun⟩, hlexed⟩
  · exact forall_mem_cons.mpr ⟨le_rfl, hforward⟩
  · have hfirst := (pairwise_cons.mp hapart).1
    have ht := hforward t mem_cons_self
    refine pairwise_cons.mpr ⟨forall_mem_cons.mpr ⟨Int.sub_one_lt_of_le le_rfl, fun u hu => ?_⟩,
      hapart⟩
    have := hfirst u hu
    change t.span.first.offset - 1 < _
    omega
  · exact forall_mem_cons.mpr ⟨nofun, hfloat⟩

lemma decl_prev (inner : Inner) (tok t : Located Token) (rest : Tokens) (prev prev' : Span) :
    decl inner ⟨tok, t :: rest, prev⟩ = decl inner ⟨tok, t :: rest, prev'⟩ := by
  obtain ⟨span, kind, text⟩ := tok
  cases kind <;> rfl

lemma parseTokens_ok (h : parseTokens (t :: toks) = .ok p) :
    ∃ u, decls (nested (t :: toks).length) ((t :: toks).length + 1) [] ⟨t, toks, t.span⟩ =
    .ok (p.decls, u) ∧
      p.span = t.span.through u.prev := by
  simp only [parseTokens] at h
  split_ifs at h
  change ((decls (nested (t :: toks).length) ((t :: toks).length + 1) [] >>= fun ds =>
    spanFrom t.span >>= fun span =>
    pure (Program.mk span ds)) ⟨t, toks, t.span⟩).map Prod.fst = _ at h
  rw [run_bind] at h
  cases hrun : decls (nested (t :: toks).length) ((t :: toks).length + 1) [] ⟨t, toks, t.span⟩ with
  | error e =>
    rw [hrun] at h
    cases h
  | ok res =>
    rw [hrun] at h
    cases h
    exact ⟨res.2, rfl, rfl⟩

lemma gives_parseTokens (ht : OfText (t :: toks)) (h : parseTokens (t :: toks) = .ok p) :
    p.Writable ∧ (p.decls ≠ [] →
      ∃ c' u, State.After (sentinel t :: t :: toks) c' u ∧
      Within (sentinel t :: t :: toks) (sentinel t) c' p.outline) := by
  obtain ⟨u, hrun, hspan⟩ := parseTokens_ok h
  by_cases hk : t.val.kind = .eof
  · have hnil : p.decls = [] := by
      change (if t.val.kind = .eof then pure [] else _ : P (List (Decl Unit))) _ = _ at hrun
      rw [if_pos hk] at hrun
      exact (congrArg Prod.fst (Except.ok.inj hrun)).symm
    exact ⟨by simp [Program.Writable, hnil], absurd hnil⟩
  · have hs : State.After (sentinel t :: t :: toks) (sentinel t) ⟨t, toks, (sentinel t).span⟩ :=
      ⟨ht.behindSentinel, ⟨[], rfl⟩, rfl⟩
    have hsame : decls (nested (t :: toks).length) ((t :: toks).length + 1) [] ⟨t, toks, t.span⟩ =
        decls (nested (t :: toks).length) ((t :: toks).length + 1) []
        ⟨t, toks, (sentinel t).span⟩ := by
      obtain ⟨init, e, hinit, he⟩ := ht.ended
      have hended : State.Ended ⟨t, toks, t.span⟩ := ⟨init, e, hinit, he⟩
      obtain ⟨t', rest, rfl⟩ := exists_cons_of_ne_nil (hended.rest_ne_nil hk)
      change (if t.val.kind = .eof then _ else _ : P (List (Decl Unit))) _ =
        (if t.val.kind = .eof then _ else _ : P (List (Decl Unit))) _
      rw [if_neg hk, run_bind, run_bind, decl_prev]
    rw [hsame] at hrun
    obtain ⟨c', hu, hds⟩ :=
      gives_decls (K := fun _ => True) (givesInner_nested _) _ .nil _ _ _ hs trivial hrun
    refine ⟨hds.writable, fun hne => ⟨c', u, hu, ?_⟩⟩
    have hwithin := hds.within
    have hlt : (sentinel t).span.last.offset < c'.span.last.offset := by
      obtain ⟨d, ds, hcons⟩ := exists_cons_of_ne_nil hne
      rw [hcons] at hwithin
      cases d <;> exact hwithin.1.trans_le (hwithin.2.1.forward.trans hwithin.2.2.le)
    rw [Program.outline, hspan, hu.prev]
    exact Outline.Fits.node ⟨t.span, span_mem_pieces hs.step.mem, rfl⟩
      ⟨c'.span, span_mem_pieces hu.mem, rfl⟩
      (Int.sub_one_lt_iff.mp hlt) hwithin (Int.sub_one_lt_of_le le_rfl) le_rfl

end Parser

lemma parse_ok (h : parse text = .ok p) :
    ∃ t toks, tokenize text = .ok (t :: toks) ∧ parseTokens (t :: toks) = .ok p := by
  unfold parse at h
  split at h
  · cases h
  · next toks htoks =>
    split at h
    · cases h
    · next q hq =>
      cases h
      cases toks with
      | nil => cases hq
      | cons t toks => exact ⟨t, toks, htoks, hq⟩

/-- **Texts are read as writable programs.** -/
theorem writable_parse (h : parse text = .ok p) : p.Writable := by
  obtain ⟨t, toks, htoks, hparse⟩ := parse_ok h
  exact (Parser.gives_parseTokens (Parser.ofText_of_tokenize htoks) hparse).1

end Minilang
