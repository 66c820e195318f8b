import Minilang.Proofs.Double.Printing
import Minilang.Tree.Basic

/-!
# Trees as tokens

Every tree has a canonical sequence of tokens: declarations, statements and types in their concrete
syntax, every expression that is part of something in parentheses, and a semicolon after every
statement that needs or allows one.  A branch after `else` is a block or another conditional, as the
grammar has it, and has no parentheses.  The least integer is a minus sign and its digits.

Not every tree is written by some text: `Expr.Writable` holds of those which are.  A literal has no
sign, except for the least integer; only variables, fields and elements are assigned to; what
follows `else` ends with a block; and what is selected is a name or a position.

Two trees that differ only in their places are the same without places (`Expr.unplaced`).
-/

namespace Minilang

open List

variable {α : Type} (s : Span) (fs : List (FieldValue α)) (xs : List (Expr α)) (p : Program α)
  (n : Name) (name : Bytes)

/-! ### Trees without places -/

/-- The name without its place. -/
def Name.unplaced : Name :=
  ⟨.none, n.text⟩

mutual

/-- The type without places. -/
def TypeExpr.unplaced : TypeExpr → TypeExpr
  | .named _ name => .named .none name
  | .array _ elem => .array .none elem.unplaced
  | .func _ params none => .func .none (TypeExpr.listUnplaced params) none
  | .func _ params (some r) => .func .none (TypeExpr.listUnplaced params) (some r.unplaced)

/-- Types without places. -/
def TypeExpr.listUnplaced : List TypeExpr → List TypeExpr
  | [] => []
  | t :: ts => t.unplaced :: TypeExpr.listUnplaced ts

end

/-- The parameter without places. -/
def Param.unplaced (p : Param) : Param :=
  ⟨.none, p.name.unplaced, p.type.unplaced⟩

mutual

/-- The expression without the places that it comes from. -/
def Expr.unplaced : Expr α → Expr α
  | .lit _ n v => .lit .none n v
  | .var _ n x => .var .none n x
  | .binary _ n op x y => .binary .none n op x.unplaced y.unplaced
  | .unary _ n op x => .unary .none n op x.unplaced
  | .call _ n callee args => .call .none n callee.unplaced (Expr.listUnplaced args)
  | .cond _ n test t none => .cond .none n test.unplaced t.unplaced none
  | .cond _ n test t (some e) => .cond .none n test.unplaced t.unplaced (some e.unplaced)
  | .block b => .block b.unplaced
  | .assign _ n target v => .assign .none n target.unplaced v.unplaced
  | .field _ n x name => .field .none n x.unplaced name.unplaced
  | .array _ n es => .array .none n (Expr.listUnplaced es)
  | .index _ n x i => .index .none n x.unplaced i.unplaced
  | .lambda _ n params result body =>
    .lambda .none n (params.map Param.unplaced) (result.map TypeExpr.unplaced) body.unplaced
  | .struct _ n type fs => .struct .none n type.unplaced (FieldValue.listUnplaced fs)

/-- Expressions without places. -/
def Expr.listUnplaced : List (Expr α) → List (Expr α)
  | [] => []
  | x :: xs => x.unplaced :: Expr.listUnplaced xs

/-- The field without places. -/
def FieldValue.unplaced : FieldValue α → FieldValue α
  | .mk _ name x => .mk .none name.unplaced x.unplaced

/-- Fields without places. -/
def FieldValue.listUnplaced : List (FieldValue α) → List (FieldValue α)
  | [] => []
  | f :: fs => f.unplaced :: FieldValue.listUnplaced fs

/-- The block without places. -/
def Block.unplaced : Block α → Block α
  | .mk _ n ss none => .mk .none n (Stmt.listUnplaced ss) none
  | .mk _ n ss (some v) => .mk .none n (Stmt.listUnplaced ss) (some v.unplaced)

/-- The statement without places. -/
def Stmt.unplaced : Stmt α → Stmt α
  | .letVar _ x type v => .letVar .none x.unplaced (type.map TypeExpr.unplaced) v.unplaced
  | .ret _ none => .ret .none none
  | .ret _ (some v) => .ret .none (some v.unplaced)
  | .loop _ test b => .loop .none test.unplaced b.unplaced
  | .forRange _ x a z b => .forRange .none x.unplaced a.unplaced z.unplaced b.unplaced
  | .forEach _ x a b => .forEach .none x.unplaced a.unplaced b.unplaced
  | .expr x => .expr x.unplaced

/-- Statements without places. -/
def Stmt.listUnplaced : List (Stmt α) → List (Stmt α)
  | [] => []
  | s :: ss => s.unplaced :: Stmt.listUnplaced ss

end

/-- The variant without places. -/
def VariantDecl.unplaced (v : VariantDecl) : VariantDecl :=
  ⟨.none, v.name.unplaced, v.payload.map TypeExpr.unplaced⟩

/-- The declaration without places. -/
def Decl.unplaced : Decl α → Decl α
  | .func f => .func ⟨.none, f.name.unplaced, f.params.map Param.unplaced,
      f.result.map TypeExpr.unplaced, f.body.unplaced⟩
  | .struct _ name fields => .struct .none name.unplaced (fields.map Param.unplaced)
  | .enum _ name variants => .enum .none name.unplaced (variants.map VariantDecl.unplaced)
  | .alias _ name type => .alias .none name.unplaced type.unplaced

/-- The program without the places that it comes from. -/
def Program.unplaced : Program α :=
  ⟨.none, p.decls.map Decl.unplaced⟩

lemma TypeExpr.listUnplaced_eq_map (ts : List TypeExpr) : listUnplaced ts = ts.map unplaced := by
  induction ts with
  | nil => rfl
  | cons t ts ih => rw [listUnplaced, ih, map_cons]

lemma TypeExpr.unplaced_func (params : List TypeExpr) (result : Option TypeExpr) :
    (func s params result).unplaced =
      .func .none (params.map unplaced) (result.map unplaced) := by
  cases result <;> rw [unplaced, listUnplaced_eq_map] <;> rfl

lemma Expr.listUnplaced_eq_map : listUnplaced xs = xs.map unplaced := by
  induction xs with
  | nil => rfl
  | cons x xs ih => rw [listUnplaced, ih, map_cons]

lemma FieldValue.listUnplaced_eq_map : listUnplaced fs = fs.map unplaced := by
  induction fs with
  | nil => rfl
  | cons f fs ih => rw [listUnplaced, ih, map_cons]

lemma Stmt.listUnplaced_eq_map (ss : List (Stmt α)) : listUnplaced ss = ss.map unplaced := by
  induction ss with
  | nil => rfl
  | cons s ss ih => rw [listUnplaced, ih, map_cons]

lemma Block.unplaced_mk (n : α) (ss : List (Stmt α)) (value : Option (Expr α)) :
    (mk s n ss value).unplaced =
      .mk .none n (ss.map Stmt.unplaced) (value.map Expr.unplaced) := by
  cases value <;> rw [unplaced, Stmt.listUnplaced_eq_map] <;> rfl

lemma Expr.unplaced_cond (n : α) (test : Expr α) (t : Block α) (e : Option (Expr α)) :
    (cond s n test t e).unplaced =
      .cond .none n test.unplaced t.unplaced (e.map unplaced) := by
  cases e <;> simp [unplaced]

lemma Stmt.unplaced_ret (value : Option (Expr α)) :
    (ret s value).unplaced = .ret .none (value.map Expr.unplaced) := by
  cases value <;> simp [unplaced]

lemma Expr.isTarget_unplaced (x : Expr α) : x.unplaced.isTarget = x.isTarget := by
  cases x with
  | cond s n test t e => cases e <;> rfl
  | _ => rfl

lemma Expr.isBlockLike_unplaced (x : Expr α) : x.unplaced.isBlockLike = x.isBlockLike := by
  cases x with
  | cond s n test t e => cases e <;> rfl
  | _ => rfl

/-! ### Tokens -/

/-- The token of a kind that is written in one way only. -/
def Token.fixed (k : TokenKind) : Token :=
  ⟨k, k.text⟩

/-- The token of a name. -/
def Token.ident : Token :=
  ⟨.ident, name⟩

@[simp]
lemma Token.kind_fixed (k : TokenKind) : (fixed k).kind = k := rfl

@[simp]
lemma Token.kind_ident : (ident name).kind = .ident := rfl

@[simp]
lemma Token.text_ident : (ident name).text = name := rfl

/-- The token of a binary operator. -/
def BinaryOp.kind : BinaryOp → TokenKind
  | .add => .plus
  | .sub => .minus
  | .mul => .star
  | .div => .slash
  | .mod => .percent
  | .eq => .eqEq
  | .ne => .notEq
  | .lt => .less
  | .le => .lessEq
  | .gt => .greater
  | .ge => .greaterEq
  | .and => .andAnd
  | .or => .orOr

/-- The token of a unary operator. -/
def UnaryOp.kind : UnaryOp → TokenKind
  | .neg => .minus
  | .not => .bang

/-- Tokens in parentheses. -/
def enclosed (ts : List Token) : List Token :=
  .fixed .lparen :: (ts ++ [.fixed .rparen])

/-- Sequences of tokens with commas between them. -/
def commaSeparated : List (List Token) → List Token
  | [] => []
  | [ts] => ts
  | ts :: us :: more => ts ++ .fixed .comma :: commaSeparated (us :: more)

/-! ### Types and signatures -/

mutual

/-- The tokens of a type. -/
def TypeExpr.tokens : TypeExpr → List Token
  | .named _ name => [.ident name]
  | .array _ elem => .fixed .lbracket :: (elem.tokens ++ [.fixed .rbracket])
  | .func _ params none =>
    .fixed .kwFn :: .fixed .lparen ::
      (commaSeparated (TypeExpr.listTokens params) ++ [.fixed .rparen])
  | .func _ params (some r) =>
    .fixed .kwFn :: .fixed .lparen ::
      (commaSeparated (TypeExpr.listTokens params) ++ .fixed .rparen :: .fixed .arrow :: r.tokens)

/-- The tokens of types. -/
def TypeExpr.listTokens : List TypeExpr → List (List Token)
  | [] => []
  | t :: ts => t.tokens :: TypeExpr.listTokens ts

end

lemma TypeExpr.listTokens_eq_map (ts : List TypeExpr) : listTokens ts = ts.map tokens := by
  induction ts with
  | nil => rfl
  | cons t ts ih => rw [listTokens, ih, map_cons]

/-- The tokens of a parameter. -/
def Param.tokens (p : Param) : List Token :=
  .ident p.name.text :: .fixed .colon :: p.type.tokens

/-- An optional type after the sign that announces it. -/
def typeAfter (sign : TokenKind) : Option TypeExpr → List Token
  | none => []
  | some t => .fixed sign :: t.tokens

lemma TypeExpr.tokens_func (params : List TypeExpr) (result : Option TypeExpr) :
    (func s params result).tokens = .fixed .kwFn :: .fixed .lparen ::
      (commaSeparated (params.map tokens) ++ .fixed .rparen :: typeAfter .arrow result) := by
  cases result <;> rw [tokens, listTokens_eq_map, typeAfter]

/-- The parameters and the result type of a function. -/
def signatureTokens (params : List Param) (result : Option TypeExpr) : List Token :=
  .fixed .lparen ::
    (commaSeparated (params.map Param.tokens) ++ .fixed .rparen :: typeAfter .arrow result)

/-! ### Expressions and statements -/

/-- The tokens of a literal. -/
def Literal.tokens : Literal → List Token
  | .int n =>
    let digits : Token := ⟨.int, Decimal.ofNat n.toInt.natAbs⟩
    if n < 0 then [.fixed .minus, digits] else [digits]
  | .float x => [⟨.float, x.text⟩]
  | .string s => [⟨.string, s⟩]
  | .bool true => [.fixed .kwTrue]
  | .bool false => [.fixed .kwFalse]

/-- Whether a name is the position of a component: positions begin with a digit, and names do not.
-/
def Name.isPosition : Bool :=
  n.text.head?.any Decimal.isDigit

/-- The token of a name or a position after a point. -/
def Name.selector : Token :=
  ⟨if n.isPosition then .int else .ident, n.text⟩

mutual

/-- The tokens of an expression. -/
def Expr.tokens : Expr α → List Token
  | .lit _ _ v => v.tokens
  | .var _ _ name => [.ident name]
  | .binary _ _ op x y => enclosed x.tokens ++ .fixed op.kind :: enclosed y.tokens
  | .unary _ _ op x => .fixed op.kind :: enclosed x.tokens
  | .call _ _ callee args =>
    enclosed callee.tokens ++ enclosed (commaSeparated (Expr.listTokens args))
  | .cond _ _ test t none => .fixed .kwIf :: (enclosed test.tokens ++ t.tokens)
  | .cond _ _ test t (some e) =>
    .fixed .kwIf :: (enclosed test.tokens ++ t.tokens ++ .fixed .kwElse :: e.tokens)
  | .block b => b.tokens
  | .assign _ _ target v => enclosed target.tokens ++ .fixed .assign :: enclosed v.tokens
  | .field _ _ x name => enclosed x.tokens ++ [.fixed .dot, name.selector]
  | .array _ _ es =>
    .fixed .lbracket :: (commaSeparated (Expr.listTokens es) ++ [.fixed .rbracket])
  | .index _ _ x i =>
    enclosed x.tokens ++ .fixed .lbracket :: (enclosed i.tokens ++ [.fixed .rbracket])
  | .lambda _ _ params result body =>
    .fixed .kwFn :: (signatureTokens params result ++ body.tokens)
  | .struct _ _ type fs =>
    .ident type.text :: .fixed .lbrace ::
      (commaSeparated (FieldValue.listTokens fs) ++ [.fixed .rbrace])

/-- The tokens of expressions. -/
def Expr.listTokens : List (Expr α) → List (List Token)
  | [] => []
  | x :: xs => enclosed x.tokens :: Expr.listTokens xs

/-- The tokens of a field. -/
def FieldValue.tokens : FieldValue α → List Token
  | .mk _ name x => .ident name.text :: .fixed .colon :: enclosed x.tokens

/-- The tokens of fields. -/
def FieldValue.listTokens : List (FieldValue α) → List (List Token)
  | [] => []
  | f :: fs => f.tokens :: FieldValue.listTokens fs

/-- The tokens of a block. -/
def Block.tokens : Block α → List Token
  | .mk _ _ ss none => .fixed .lbrace :: (Stmt.listTokens ss ++ [.fixed .rbrace])
  | .mk _ _ ss (some v) =>
    .fixed .lbrace :: (Stmt.listTokens ss ++ enclosed v.tokens ++ [.fixed .rbrace])

/-- The tokens of a statement. -/
def Stmt.tokens : Stmt α → List Token
  | .letVar _ x none v =>
    .fixed .kwLet :: .ident x.text :: .fixed .assign ::
      (enclosed v.tokens ++ [.fixed .semicolon])
  | .letVar _ x (some type) v =>
    .fixed .kwLet :: .ident x.text :: .fixed .colon ::
      (type.tokens ++ .fixed .assign :: (enclosed v.tokens ++ [.fixed .semicolon]))
  | .ret _ none => [.fixed .kwReturn, .fixed .semicolon]
  | .ret _ (some v) => .fixed .kwReturn :: (enclosed v.tokens ++ [.fixed .semicolon])
  | .loop _ test b => .fixed .kwWhile :: (enclosed test.tokens ++ b.tokens)
  | .forRange _ x a z b =>
    .fixed .kwFor :: .ident x.text :: .fixed .kwIn ::
      (enclosed a.tokens ++ .fixed .dotDot :: (enclosed z.tokens ++ b.tokens))
  | .forEach _ x a b =>
    .fixed .kwFor :: .ident x.text :: .fixed .kwIn :: (enclosed a.tokens ++ b.tokens)
  | .expr x => enclosed x.tokens ++ [.fixed .semicolon]

/-- The tokens of statements. -/
def Stmt.listTokens : List (Stmt α) → List Token
  | [] => []
  | s :: ss => s.tokens ++ Stmt.listTokens ss

end

lemma Expr.listTokens_eq_map : listTokens xs = xs.map fun x => enclosed x.tokens := by
  induction xs with
  | nil => rfl
  | cons x xs ih => rw [listTokens, ih, map_cons]

lemma FieldValue.listTokens_eq_map : listTokens fs = fs.map tokens := by
  induction fs with
  | nil => rfl
  | cons f fs ih => rw [listTokens, ih, map_cons]

/-- The tokens of a value that may be absent. -/
def valueTokens : Option (Expr α) → List Token
  | none => []
  | some v => enclosed v.tokens

/-- The tokens of an `else` that may be absent. -/
def elseTokens : Option (Expr α) → List Token
  | none => []
  | some e => .fixed .kwElse :: e.tokens

lemma Expr.tokens_cond (n : α) (test : Expr α) (t : Block α) (e : Option (Expr α)) :
    (cond s n test t e).tokens =
      .fixed .kwIf :: (enclosed test.tokens ++ (t.tokens ++ elseTokens e)) := by
  cases e <;> simp [tokens, elseTokens]

lemma Block.tokens_mk (n : α) (ss : List (Stmt α)) (value : Option (Expr α)) :
    (mk s n ss value).tokens =
      .fixed .lbrace :: (Stmt.listTokens ss ++ (valueTokens value ++ [.fixed .rbrace])) := by
  cases value <;> simp [tokens, valueTokens]

lemma Stmt.tokens_letVar (x : Name) (type : Option TypeExpr) (v : Expr α) :
    (letVar s x type v).tokens = .fixed .kwLet :: .ident x.text ::
      (typeAfter .colon type ++ .fixed .assign :: (enclosed v.tokens ++ [.fixed .semicolon])) := by
  cases type <;> simp [tokens, typeAfter]

lemma Stmt.tokens_ret (value : Option (Expr α)) : (ret s value).tokens =
      .fixed .kwReturn :: (valueTokens value ++ [.fixed .semicolon]) := by
  cases value <;> rfl

/-! ### Declarations -/

/-- A variant, with the types of its payload in parentheses if it has any. -/
def VariantDecl.tokens (v : VariantDecl) : List Token :=
  .ident v.name.text ::
    if v.payload.isEmpty then [] else enclosed (commaSeparated (v.payload.map TypeExpr.tokens))

/-- The tokens of a declaration. -/
def Decl.tokens : Decl α → List Token
  | .func f =>
    .fixed .kwFn :: .ident f.name.text :: (signatureTokens f.params f.result ++ f.body.tokens)
  | .struct _ name fields =>
    .fixed .kwStruct :: .ident name.text :: .fixed .lbrace ::
      (commaSeparated (fields.map Param.tokens) ++ [.fixed .rbrace])
  | .enum _ name variants =>
    .fixed .kwEnum :: .ident name.text :: .fixed .lbrace ::
      (commaSeparated (variants.map VariantDecl.tokens) ++ [.fixed .rbrace])
  | .alias _ name type =>
    .fixed .kwType :: .ident name.text :: .fixed .assign :: (type.tokens ++ [.fixed .semicolon])

/-- The canonical tokens of a program, without the end of the text. -/
def Program.tokens : List Token :=
  p.decls.flatMap Decl.tokens

/-! ### Trees that texts are read as -/

/-- A literal without a sign, or the least integer. -/
def Literal.Writable : Literal → Prop
  | .int n => 0 ≤ n ∨ n = Int64.minValue
  | .float x => x.isFinite = true ∧ x.isNegative = false
  | .string _ | .bool _ => True

/-- A name that a selection can have: a position is written without leading zeros. -/
def Name.Selects : Prop :=
  n.isPosition = true → ∃ k : Nat, k < 2 ^ 63 ∧ n.text = Decimal.ofNat k

mutual

/-- The expression can be written as tokens. -/
def Expr.Writable : Expr α → Prop
  | .lit _ _ v => v.Writable
  | .var _ _ _ => True
  | .binary _ _ _ x y => x.Writable ∧ y.Writable
  | .unary _ _ _ x => x.Writable
  | .call _ _ callee args => callee.Writable ∧ Expr.ListWritable args
  | .cond _ _ test t none => test.Writable ∧ t.Writable
  | .cond _ _ test t (some e) =>
    test.Writable ∧ t.Writable ∧ e.Writable ∧ e.isBlockLike = true
  | .block b => b.Writable
  | .assign _ _ target v => target.Writable ∧ v.Writable ∧ target.isTarget = true
  | .field _ _ x name => x.Writable ∧ name.Selects
  | .array _ _ es => Expr.ListWritable es
  | .index _ _ x i => x.Writable ∧ i.Writable
  | .lambda _ _ _ _ body => body.Writable
  | .struct _ _ _ fs => FieldValue.ListWritable fs

/-- All expressions can be written. -/
def Expr.ListWritable : List (Expr α) → Prop
  | [] => True
  | x :: xs => x.Writable ∧ Expr.ListWritable xs

/-- The field can be written. -/
def FieldValue.Writable : FieldValue α → Prop
  | .mk _ _ x => x.Writable

/-- All fields can be written. -/
def FieldValue.ListWritable : List (FieldValue α) → Prop
  | [] => True
  | f :: fs => f.Writable ∧ FieldValue.ListWritable fs

/-- The block can be written. -/
def Block.Writable : Block α → Prop
  | .mk _ _ ss none => Stmt.ListWritable ss
  | .mk _ _ ss (some v) => Stmt.ListWritable ss ∧ v.Writable

/-- The statement can be written. -/
def Stmt.Writable : Stmt α → Prop
  | .letVar _ _ _ v => v.Writable
  | .ret _ none => True
  | .ret _ (some v) => v.Writable
  | .loop _ test b => test.Writable ∧ b.Writable
  | .forRange _ _ a z b => a.Writable ∧ z.Writable ∧ b.Writable
  | .forEach _ _ a b => a.Writable ∧ b.Writable
  | .expr x => x.Writable

/-- All statements can be written. -/
def Stmt.ListWritable : List (Stmt α) → Prop
  | [] => True
  | s :: ss => s.Writable ∧ Stmt.ListWritable ss

end

/-- The declaration can be written. -/
def Decl.Writable : Decl α → Prop
  | .func f => f.body.Writable
  | .struct _ _ _ | .alias _ _ _ => True
  | .enum _ _ variants => variants ≠ []

/-- The program can be written. -/
def Program.Writable : Prop :=
  ∀ d ∈ p.decls, d.Writable

lemma Expr.listWritable_iff : ListWritable xs ↔ ∀ x ∈ xs, x.Writable := by
  induction xs with
  | nil => simp [ListWritable]
  | cons x xs ih => simp [ListWritable, ih]

lemma FieldValue.listWritable_iff : ListWritable fs ↔ ∀ f ∈ fs, f.Writable := by
  induction fs with
  | nil => simp [ListWritable]
  | cons f fs ih => simp [ListWritable, ih]

lemma Stmt.listWritable_iff (ss : List (Stmt α)) : ListWritable ss ↔ ∀ s ∈ ss, s.Writable := by
  induction ss with
  | nil => simp [ListWritable]
  | cons s ss ih => simp [ListWritable, ih]

end Minilang
