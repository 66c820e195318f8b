import Minilang.Double.Text
import Minilang.Tree.Basic

/-!
# Syntax trees as text

A tree is shown with its nodes in parentheses, the kind of the node first: the tree of `a = f(1)` is
`(= a (call f 1))`.  Types are shown as they are written.
-/

namespace Minilang

open Bytes (concat joinWith)

def Literal.text : Literal → Bytes
  | .int n => Decimal.ofInt n.toInt
  | .float x => x.text
  | .string s => Quoted.text s
  | .bool true => "true"
  | .bool false => "false"

mutual

def TypeExpr.text : TypeExpr → Bytes
  | .named _ name => name
  | .array _ elem => concat ["[", elem.text, "]"]
  | .func _ params result =>
    let head := concat ["fn(", joinWith ", " (TypeExpr.texts params), ")"]
    match result with
    | none => head
    | some r => concat [head, " -> ", r.text]

def TypeExpr.texts : List TypeExpr → List Bytes
  | [] => []
  | t :: ts => t.text :: TypeExpr.texts ts

end

def TypeExpr.optText : Option TypeExpr → Bytes
  | none => []
  | some t => 32 :: t.text

def Param.texts (params : List Param) : Bytes :=
  joinWith " " (params.map fun p => concat [p.name.text, ":", p.type.text])

variable {α : Type}

mutual

def Expr.text : Expr α → Bytes
  | .lit _ _ v => v.text
  | .var _ _ name => name
  | .binary _ _ op x y => concat ["(", op.text, " ", x.text, " ", y.text, ")"]
  | .unary _ _ op x => concat ["(", op.text, " ", x.text, ")"]
  | .call _ _ callee args => concat ["(call ", callee.text, Expr.listText args, ")"]
  | .cond _ _ test t e =>
    let tail : Bytes := match e with
      | none => []
      | some e => 32 :: e.text
    concat ["(if ", test.text, " ", t.text, tail, ")"]
  | .block b => b.text
  | .assign _ _ target value => concat ["(= ", target.text, " ", value.text, ")"]
  | .field _ _ x name => concat ["(. ", x.text, " ", name.text, ")"]
  | .array _ _ elems => concat ["(array", Expr.listText elems, ")"]
  | .index _ _ x i => concat ["(index ", x.text, " ", i.text, ")"]
  | .lambda _ _ params result body =>
    concat ["(fn (", Param.texts params, ")", TypeExpr.optText result, " ", body.text, ")"]
  | .struct _ _ type fields => concat ["(struct ", type.text, FieldValue.listText fields, ")"]

def Expr.listText : List (Expr α) → Bytes
  | [] => []
  | x :: xs => 32 :: (x.text ++ Expr.listText xs)

def FieldValue.listText : List (FieldValue α) → Bytes
  | [] => []
  | .mk _ name value :: fs =>
    concat [" (", name.text, " ", value.text, ")"] ++ FieldValue.listText fs

def Block.text : Block α → Bytes
  | .mk _ _ stmts value =>
    let tail : Bytes := match value with
      | none => []
      | some v => 32 :: v.text
    concat ["(block", Stmt.listText stmts, tail, ")"]

def Stmt.text : Stmt α → Bytes
  | .letVar _ name type value =>
    concat ["(let ", name.text, TypeExpr.optText type, " ", value.text, ")"]
  | .ret _ value =>
    let tail : Bytes := match value with
      | none => []
      | some v => 32 :: v.text
    concat ["(return", tail, ")"]
  | .loop _ test body => concat ["(while ", test.text, " ", body.text, ")"]
  | .forRange _ name start stop body =>
    concat ["(for ", name.text, " ", start.text, " ", stop.text, " ", body.text, ")"]
  | .forEach _ name array body =>
    concat ["(for ", name.text, " ", array.text, " ", body.text, ")"]
  | .expr x => x.text

def Stmt.listText : List (Stmt α) → Bytes
  | [] => []
  | s :: ss => 32 :: (s.text ++ Stmt.listText ss)

end

def Decl.text : Decl α → Bytes
  | .func f => concat ["(fn ", f.name.text, " (", Param.texts f.params, ")",
      TypeExpr.optText f.result, " ", f.body.text, ")"]
  | .struct _ name fields => concat ["(struct ", name.text,
      (fields.map fun f => concat [" (", f.name.text, " ", f.type.text, ")"]).flatten, ")"]
  | .enum _ name variants => concat ["(enum ", name.text,
      (variants.map fun v => concat [" (", v.name.text,
        (v.payload.map fun t => 32 :: t.text).flatten, ")"]).flatten, ")"]
  | .alias _ name type => concat ["(type ", name.text, " ", type.text, ")"]

/-- The text of a tree. -/
def Program.text (p : Program α) : Bytes :=
  concat ["(program", (p.decls.map fun d => 32 :: d.text).flatten, ")"]

end Minilang
