import Minilang.Tree.Basic

/-!
# The nodes of a syntax tree

All nodes of a tree from the root on, every node before its parts.
-/

namespace Minilang

/-- The kinds of nodes of a tree. -/
inductive NodeKind where
  | program
  | funcDecl
  | structDecl
  | enumDecl
  | aliasDecl
  | param
  | field
  | variant
  | letStmt
  | returnStmt
  | whileStmt
  | forStmt
  | exprStmt
  | literal
  | ident
  | binaryExpr
  | unaryExpr
  | callExpr
  | ifExpr
  | blockExpr
  | assignExpr
  | fieldExpr
  | arrayLit
  | indexExpr
  | lambdaExpr
  | structLit
  | fieldValue
  | namedType
  | arrayType
  | funcType
  deriving DecidableEq, Repr

/-- A node: its kind, its place and, for an expression, its note. -/
structure Node (α : Type) where
  kind : NodeKind
  span : Span
  note? : Option α

namespace NodeKind

def isExpr : NodeKind → Bool
  | .literal | .ident | .binaryExpr | .unaryExpr | .callExpr | .ifExpr | .blockExpr | .assignExpr
  | .fieldExpr | .arrayLit | .indexExpr | .lambdaExpr | .structLit => true
  | _ => false

end NodeKind

variable {α : Type} (kind : NodeKind)

def Node.plain (span : Span) : Node α :=
  ⟨kind, span, none⟩

def Node.noted (span : Span) (note : α) : Node α :=
  ⟨kind, span, some note⟩

def Name.node (n : Name) : Node α :=
  .plain .ident n.span

mutual

def TypeExpr.nodes : TypeExpr → List (Node α)
  | .named s _ => [.plain .namedType s]
  | .array s elem => .plain .arrayType s :: elem.nodes
  | .func s params result =>
    .plain .funcType s :: (TypeExpr.listNodes params ++ match result with
      | none => []
      | some r => r.nodes)

def TypeExpr.listNodes : List TypeExpr → List (Node α)
  | [] => []
  | t :: ts => t.nodes ++ TypeExpr.listNodes ts

end

def TypeExpr.optNodes : Option TypeExpr → List (Node α)
  | none => []
  | some t => t.nodes

def Param.nodes (p : Param) : List (Node α) :=
  .plain kind p.span :: p.name.node :: p.type.nodes

mutual

def Expr.nodes : Expr α → List (Node α)
  | .lit s n _ => [.noted .literal s n]
  | .var s n _ => [.noted .ident s n]
  | .binary s n _ x y => .noted .binaryExpr s n :: (x.nodes ++ y.nodes)
  | .unary s n _ x => .noted .unaryExpr s n :: x.nodes
  | .call s n callee args => .noted .callExpr s n :: (callee.nodes ++ Expr.listNodes args)
  | .cond s n test t e => .noted .ifExpr s n :: (test.nodes ++ t.nodes ++ match e with
      | none => []
      | some e => e.nodes)
  | .block b => b.nodes
  | .assign s n target value => .noted .assignExpr s n :: (target.nodes ++ value.nodes)
  | .field s n x name => .noted .fieldExpr s n :: (x.nodes ++ [name.node])
  | .array s n elems => .noted .arrayLit s n :: Expr.listNodes elems
  | .index s n x i => .noted .indexExpr s n :: (x.nodes ++ i.nodes)
  | .lambda s n params result body =>
    .noted .lambdaExpr s n ::
      (params.flatMap (Param.nodes .param) ++ TypeExpr.optNodes result ++ body.nodes)
  | .struct s n type fields =>
    .noted .structLit s n :: type.node :: FieldValue.listNodes fields

def Expr.listNodes : List (Expr α) → List (Node α)
  | [] => []
  | x :: xs => x.nodes ++ Expr.listNodes xs

def FieldValue.listNodes : List (FieldValue α) → List (Node α)
  | [] => []
  | .mk s name value :: fs =>
    .plain .fieldValue s :: name.node :: (value.nodes ++ FieldValue.listNodes fs)

def Block.nodes : Block α → List (Node α)
  | .mk s n stmts value => .noted .blockExpr s n :: (Stmt.listNodes stmts ++ match value with
      | none => []
      | some v => v.nodes)

def Stmt.nodes : Stmt α → List (Node α)
  | .letVar s name type value =>
    .plain .letStmt s :: name.node :: (TypeExpr.optNodes type ++ value.nodes)
  | .ret s value => .plain .returnStmt s :: match value with
      | none => []
      | some v => v.nodes
  | .loop s test body => .plain .whileStmt s :: (test.nodes ++ body.nodes)
  | .forRange s name start stop body =>
    .plain .forStmt s :: name.node :: (start.nodes ++ stop.nodes ++ body.nodes)
  | .forEach s name array body =>
    .plain .forStmt s :: name.node :: (array.nodes ++ body.nodes)
  | .expr x => .plain .exprStmt x.span :: x.nodes

def Stmt.listNodes : List (Stmt α) → List (Node α)
  | [] => []
  | s :: ss => s.nodes ++ Stmt.listNodes ss

end

def FuncDecl.nodes (f : FuncDecl α) : List (Node α) :=
  .plain .funcDecl f.span :: f.name.node ::
    (f.params.flatMap (Param.nodes .param) ++ TypeExpr.optNodes f.result ++ f.body.nodes)

def VariantDecl.nodes (v : VariantDecl) : List (Node α) :=
  .plain .variant v.span :: v.name.node :: TypeExpr.listNodes v.payload

def Decl.nodes : Decl α → List (Node α)
  | .func f => f.nodes
  | .struct s name fields =>
    .plain .structDecl s :: name.node :: fields.flatMap (Param.nodes .field)
  | .enum s name variants =>
    .plain .enumDecl s :: name.node :: variants.flatMap VariantDecl.nodes
  | .alias s name type => .plain .aliasDecl s :: name.node :: type.nodes

/-- All nodes of a program. -/
def Program.nodes (p : Program α) : List (Node α) :=
  .plain .program p.span :: p.decls.flatMap Decl.nodes

end Minilang
