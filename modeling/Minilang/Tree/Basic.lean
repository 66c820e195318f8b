import Minilang.Double.Basic
import Minilang.Operator

/-!
# Syntax trees

The tree of a source text.  Every node knows the stretch of text it comes from.  Expressions carry a
note of type `α`: a tree that has just been read has `Unit` for its notes, and a tree that has been
checked has what the checker found out about each expression.
-/

namespace Minilang

/-- A name in its place. -/
structure Name where
  span : Span
  text : Bytes
  deriving DecidableEq, Repr

/-- A type as written. -/
inductive TypeExpr where
  | named (span : Span) (name : Bytes)
  | array (span : Span) (elem : TypeExpr)
  /-- A function type; without a result the function returns no value. -/
  | func (span : Span) (params : List TypeExpr) (result : Option TypeExpr)

/-- A parameter of a function or a field of a structure. -/
structure Param where
  span : Span
  name : Name
  type : TypeExpr

/-- The value of a literal. -/
inductive Literal where
  | int (n : Int64)
  | float (x : Double)
  | string (s : Bytes)
  | bool (b : Bool)
  deriving DecidableEq

mutual

/-- Expressions with notes. -/
inductive Expr (α : Type) where
  | lit (span : Span) (note : α) (value : Literal)
  | var (span : Span) (note : α) (name : Bytes)
  | binary (span : Span) (note : α) (op : BinaryOp) (x y : Expr α)
  | unary (span : Span) (note : α) (op : UnaryOp) (x : Expr α)
  | call (span : Span) (note : α) (callee : Expr α) (args : List (Expr α))
  /-- A conditional; what follows `else` is a block or another conditional. -/
  | cond (span : Span) (note : α) (test : Expr α) (thenBlock : Block α)
    (elseExpr : Option (Expr α))
  | block (b : Block α)
  /-- The assignment to a variable, a field or an element. -/
  | assign (span : Span) (note : α) (target value : Expr α)
  /-- A field of a structure, a component of a variant's payload, or a variant of an enum. -/
  | field (span : Span) (note : α) (x : Expr α) (name : Name)
  | array (span : Span) (note : α) (elems : List (Expr α))
  | index (span : Span) (note : α) (x i : Expr α)
  | lambda (span : Span) (note : α) (params : List Param) (result : Option TypeExpr)
    (body : Block α)
  | struct (span : Span) (note : α) (type : Name) (fields : List (FieldValue α))

/-- Statements, and the expression that gives the block its value. -/
inductive Block (α : Type) where
  | mk (span : Span) (note : α) (stmts : List (Stmt α)) (value : Option (Expr α))

/-- Statements. -/
inductive Stmt (α : Type) where
  | letVar (span : Span) (name : Name) (type : Option TypeExpr) (value : Expr α)
  | ret (span : Span) (value : Option (Expr α))
  | loop (span : Span) (test : Expr α) (body : Block α)
  /-- A loop over the integers from `start` up to, and without, `stop`. -/
  | forRange (span : Span) (name : Name) (start stop : Expr α) (body : Block α)
  /-- A loop over the elements of an array. -/
  | forEach (span : Span) (name : Name) (array : Expr α) (body : Block α)
  | expr (x : Expr α)

/-- The value of a field in a structure literal. -/
inductive FieldValue (α : Type) where
  | mk (span : Span) (name : Name) (value : Expr α)

end

/-- The declaration of a function.  Without a result type the result is that of the body. -/
structure FuncDecl (α : Type) where
  span : Span
  name : Name
  params : List Param
  result : Option TypeExpr
  body : Block α

/-- A variant of an enum with the types of its payload. -/
structure VariantDecl where
  span : Span
  name : Name
  payload : List TypeExpr

/-- Declarations. -/
inductive Decl (α : Type) where
  | func (f : FuncDecl α)
  | struct (span : Span) (name : Name) (fields : List Param)
  | enum (span : Span) (name : Name) (variants : List VariantDecl)
  | alias (span : Span) (name : Name) (type : TypeExpr)

/-- A whole source text. -/
structure Program (α : Type) where
  span : Span
  decls : List (Decl α)

variable {α : Type}

/-! ### Places and notes -/

namespace TypeExpr

def span : TypeExpr → Span
  | .named s _ | .array s _ | .func s _ _ => s

end TypeExpr

namespace Block

def span : Block α → Span
  | .mk s _ _ _ => s

def note : Block α → α
  | .mk _ n _ _ => n

def stmts : Block α → List (Stmt α)
  | .mk _ _ ss _ => ss

def value : Block α → Option (Expr α)
  | .mk _ _ _ v => v

def modifyNote (f : α → α) : Block α → Block α
  | .mk s n ss v => .mk s (f n) ss v

end Block

namespace Expr

def span : Expr α → Span
  | .lit s _ _ | .var s _ _ | .binary s _ _ _ _ | .unary s _ _ _ | .call s _ _ _
  | .cond s _ _ _ _ | .assign s _ _ _ | .field s _ _ _ | .array s _ _ | .index s _ _ _
  | .lambda s _ _ _ _ | .struct s _ _ _ => s
  | .block b => b.span

def note : Expr α → α
  | .lit _ n _ | .var _ n _ | .binary _ n _ _ _ | .unary _ n _ _ | .call _ n _ _
  | .cond _ n _ _ _ | .assign _ n _ _ | .field _ n _ _ | .array _ n _ | .index _ n _ _
  | .lambda _ n _ _ _ | .struct _ n _ _ => n
  | .block b => b.note

def modifyNote (f : α → α) : Expr α → Expr α
  | .lit s n v => .lit s (f n) v
  | .var s n x => .var s (f n) x
  | .binary s n op x y => .binary s (f n) op x y
  | .unary s n op x => .unary s (f n) op x
  | .call s n c args => .call s (f n) c args
  | .cond s n c t e => .cond s (f n) c t e
  | .block b => .block (b.modifyNote f)
  | .assign s n t v => .assign s (f n) t v
  | .field s n x name => .field s (f n) x name
  | .array s n es => .array s (f n) es
  | .index s n x i => .index s (f n) x i
  | .lambda s n ps r b => .lambda s (f n) ps r b
  | .struct s n t fs => .struct s (f n) t fs

/-- Whether an expression ends with a closing brace, so that no semicolon has to follow it. -/
def isBlockLike : Expr α → Bool
  | .cond .. | .block _ => true
  | _ => false

def isTarget : Expr α → Bool
  | .var .. | .field .. | .index .. => true
  | _ => false

end Expr

namespace Stmt

def span : Stmt α → Span
  | .letVar s _ _ _ | .ret s _ | .loop s _ _ | .forRange s _ _ _ _ | .forEach s _ _ _ => s
  | .expr x => x.span

end Stmt

namespace Decl

def span : Decl α → Span
  | .func f => f.span
  | .struct s _ _ | .enum s _ _ | .alias s _ _ => s

def name : Decl α → Name
  | .func f => f.name
  | .struct _ n _ | .enum _ n _ | .alias _ n _ => n

end Decl

def Program.funcs (p : Program α) : List (FuncDecl α) :=
  p.decls.filterMap fun
    | .func f => some f
    | _ => none

end Minilang
