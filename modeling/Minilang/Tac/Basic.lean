import Minilang.Value.Operation

/-!
# Three-address code

The code between syntax trees and bytecode.  A function is a flat list of instructions.  An
instruction reads operands, which are registers or literals, and writes at most one register.  The
registers of a function are numbered from zero, its parameters first; jumps go to labels.

Programs are not only made from syntax trees, so the type also holds programs that cannot be
compiled: numbers that stand for no operator, literals of no kind and operands that are missing.
-/

namespace Minilang

/-- What the number of an operator stands for. -/
inductive OpCode (α : Type) where
  | known (op : α)
  | unknown (code : Int)
  deriving DecidableEq, Repr

namespace Tac

/-- A constant. -/
inductive Lit where
  | int (n : Int64)
  | float (x : Double)
  | bool (b : Bool)
  | string (s : Bytes)
  /-- A function by its name. -/
  | func (name : Bytes)
  /-- A literal of a kind that does not exist. -/
  | invalid (kind : Int)
  deriving DecidableEq

/-- What an instruction reads. -/
inductive Operand where
  | reg (r : Nat)
  | lit (l : Lit)
  | missing
  deriving DecidableEq

/-- An instruction. -/
inductive Instr where
  | assign (dst : Nat) (src : Operand)
  | binary (dst : Nat) (op : OpCode BinaryOp) (x y : Operand)
  | unary (dst : Nat) (op : OpCode Primitive) (x : Operand)
  | call (dst : Nat) (callee : Operand) (args : List Operand)
  | ret (value : Option Operand)
  /-- A jump that is taken if the condition is false. -/
  | jumpUnless (cond : Operand) (label : Bytes)
  | jump (label : Bytes)
  | label (name : Bytes)
  | array (dst : Nat) (elems : List Operand)
  | index (dst : Nat) (array i : Operand)
  | setIndex (array i value : Operand)
  | field (dst : Nat) (record : Operand) (name : Bytes)
  | setField (record : Operand) (name : Bytes) (value : Operand)
  | record (dst : Nat) (type : Bytes) (fields : List Bytes) (values : List Operand)
  | print (x : Operand)
  deriving DecidableEq

/-- Instructions with their places. -/
abbrev Code := List (Located Instr)

/-- A function.  Parameter `i` is in register `i`. -/
structure Func where
  name : Bytes
  params : List Bytes
  numVars : Nat
  body : Code

/-- A program in three-address code. -/
structure Program where
  funcs : List Func

def Program.find? (p : Program) (name : Bytes) : Option Func :=
  p.funcs.find? fun f => f.name = name

namespace Instr

def dst? : Instr → Option Nat
  | .assign d _ | .binary d _ _ _ | .unary d _ _ | .call d _ _ | .array d _ | .index d _ _
  | .field d _ _ | .record d _ _ _ => some d
  | .ret _ | .jumpUnless _ _ | .jump _ | .label _ | .setIndex _ _ _ | .setField _ _ _
  | .print _ => none

def uses : Instr → List Operand
  | .assign _ x | .unary _ _ x | .jumpUnless x _ | .field _ x _ | .print x => [x]
  | .binary _ _ x y | .index _ x y | .setField x _ y => [x, y]
  | .setIndex x y z => [x, y, z]
  | .call _ callee args => args ++ [callee]
  | .ret value => value.toList
  | .array _ xs | .record _ _ _ xs => xs
  | .jump _ | .label _ => []

def target? : Instr → Option Bytes
  | .jumpUnless _ l | .jump l => some l
  | _ => none

def label? : Instr → Option Bytes
  | .label l => some l
  | _ => none

end Instr

end Tac

end Minilang
