import Minilang.Proofs.Tac.Extents

/-!
# Values that are needed

An assignment, a call of `print`, a block that ends with a statement and a conditional that gets no
value from a branch have no value at run time.  The checker decides by types, and a block that
returns early can be used as a value of any type.  So a checked program may use such an expression
where a value is needed.  These are the expressions of `missing`, in the order of the lowering.
-/

namespace Minilang

open List

mutual

/-- Whether an expression has a value at run time. -/
@[simp] def hasValue : Expr Note → Bool
  | .call _ n _ _ => n.role ≠ .builtin .print
  | .cond _ _ _ _ none => false
  | .cond _ _ _ b (some e) => blockHasValue b || hasValue e
  | .block b => blockHasValue b
  | .assign .. => false
  | _ => true

/-- The code of a block has a value. -/
@[simp] def blockHasValue : Block Note → Bool
  | .mk _ _ _ none => false
  | .mk _ _ _ (some x) => hasValue x

end

/-- An expression that is needed, if it has no value. -/
def lacking (x : Expr Note) : List (Expr Note) :=
  if hasValue x then [] else [x]

mutual

/-- The parts of an expression that are needed and have no value, in order. -/
@[simp] def missing : Expr Note → List (Expr Note)
  | .lit .. | .var .. => []
  | .binary _ _ _ x y => missing x ++ lacking x ++ (missing y ++ lacking y)
  | .unary _ _ _ x => missing x ++ lacking x
  | .call _ n callee args =>
    match n.role with
    | .plain => missing callee ++ lacking callee ++ missingAll args
    | _ => missingAll args
  | .cond _ _ test b none => missing test ++ lacking test ++ missingBlock b
  | .cond _ _ test b (some e) => missing test ++ lacking test ++ (missingBlock b ++ missing e)
  | .block b => missingBlock b
  | .assign _ _ target value => missingTarget target ++ (missing value ++ lacking value)
  | .field _ n x _ =>
    match n.role with
    | .variant _ => []
    | _ => missing x ++ lacking x
  | .array _ _ es => missingAll es
  | .index _ _ x i => missing x ++ lacking x ++ (missing i ++ lacking i)
  | .lambda _ _ _ _ b => missingBlock b
  | .struct _ _ _ fs => missingFields fs

/-- The parts of what is assigned to that are needed and have no value. -/
@[simp] def missingTarget : Expr Note → List (Expr Note)
  | .field _ _ x _ => missing x ++ lacking x
  | .index _ _ x i => missing x ++ lacking x ++ (missing i ++ lacking i)
  | _ => []

/-- Expressions that are all needed, with their parts. -/
@[simp] def missingAll : List (Expr Note) → List (Expr Note)
  | [] => []
  | x :: xs => missing x ++ lacking x ++ missingAll xs

/-- The parts of fields that lack a value. -/
@[simp] def missingFields : List (FieldValue Note) → List (Expr Note)
  | [] => []
  | .mk _ _ x :: fs => missing x ++ lacking x ++ missingFields fs

/-- The parts of a block that lack a value. -/
@[simp] def missingBlock : Block Note → List (Expr Note)
  | .mk _ _ ss none => missingStmts ss
  | .mk _ _ ss (some x) => missingStmts ss ++ missing x

/-- The parts of a statement that lack a value. -/
@[simp] def missingStmt : Stmt Note → List (Expr Note)
  | .letVar _ _ _ x | .ret _ (some x) => missing x ++ lacking x
  | .ret _ none => []
  | .loop _ test b => missing test ++ lacking test ++ missingBlock b
  | .forRange _ _ a z b =>
    missing a ++ lacking a ++ (missing z ++ lacking z ++ missingBlock b)
  | .forEach _ _ a b => missing a ++ lacking a ++ missingBlock b
  | .expr x => missing x

/-- The parts of statements that lack a value. -/
@[simp] def missingStmts : List (Stmt Note) → List (Expr Note)
  | [] => []
  | s :: ss => missingStmt s ++ missingStmts ss

end

/-- The expressions of a checked program that are needed and have no value. -/
def Package.missing (p : Package) : List (Expr Note) :=
  p.program.funcs.flatMap fun f => missingBlock f.body

namespace Tac.Lowering

/-- The error about the first of some expressions. -/
def Fails (ys : List (Expr Note)) (e : Located LowerError) : Prop :=
  ∃ y rest func, ys = y :: rest ∧ e = ⟨y.span, func, .noValue y.text⟩

lemma Fails.append {ys : List (Expr Note)} {e : Located LowerError} (h : Fails ys e)
    (zs : List (Expr Note)) : Fails (ys ++ zs) e := by
  obtain ⟨y, rest, func, rfl, he⟩ := h
  exact ⟨y, rest ++ zs, func, rfl, he⟩

end Tac.Lowering

end Minilang
