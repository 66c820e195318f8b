import Minilang.Token.Basic

/-!
# Operators

The operators between two operands and in front of one operand, as they stand in source texts.
-/

namespace Minilang

/-- The binary operators. -/
inductive BinaryOp where
  | add
  | sub
  | mul
  | div
  | mod
  | eq
  | ne
  | lt
  | le
  | gt
  | ge
  | and
  | or
  deriving DecidableEq, Repr

namespace BinaryOp

def text : BinaryOp → Bytes
  | .add => "+"
  | .sub => "-"
  | .mul => "*"
  | .div => "/"
  | .mod => "%"
  | .eq => "=="
  | .ne => "!="
  | .lt => "<"
  | .le => "<="
  | .gt => ">"
  | .ge => ">="
  | .and => "&&"
  | .or => "||"

def all : List BinaryOp :=
  [.add, .sub, .mul, .div, .mod, .eq, .ne, .lt, .le, .gt, .ge, .and, .or]

def ofCode? (code : Int) : Option BinaryOp :=
  if code < 0 then none else all[code.toNat]?

def isArithmetic : BinaryOp → Bool
  | .add | .sub | .mul | .div | .mod => true
  | _ => false

def isEquality : BinaryOp → Bool
  | .eq | .ne => true
  | _ => false

def isOrdering : BinaryOp → Bool
  | .lt | .le | .gt | .ge => true
  | _ => false

def isLogical : BinaryOp → Bool
  | .and | .or => true
  | _ => false

/-- The operator that a token stands for. -/
def ofToken? : TokenKind → Option BinaryOp
  | .plus => some .add
  | .minus => some .sub
  | .star => some .mul
  | .slash => some .div
  | .percent => some .mod
  | .eqEq => some .eq
  | .notEq => some .ne
  | .less => some .lt
  | .lessEq => some .le
  | .greater => some .gt
  | .greaterEq => some .ge
  | .andAnd => some .and
  | .orOr => some .or
  | _ => none

/-- How tightly an operator binds. -/
def precedence : BinaryOp → Nat
  | .or => 1
  | .and => 2
  | .eq | .ne => 3
  | .lt | .le | .gt | .ge => 4
  | .add | .sub => 5
  | .mul | .div | .mod => 6

end BinaryOp

/-- The unary operators. -/
inductive UnaryOp where
  | neg
  | not
  deriving DecidableEq, Repr

namespace UnaryOp

def text : UnaryOp → Bytes
  | .neg => "-"
  | .not => "!"

end UnaryOp

/-! ### Operators of either kind by their numbers -/

namespace OperatorCode

def texts : List Bytes :=
  BinaryOp.all.map BinaryOp.text ++ [UnaryOp.neg.text, UnaryOp.not.text]

variable (code : Int)

def nameOf : Bytes :=
  match (if code < 0 then none else texts[code.toNat]?) with
  | some text => text
  | none => Bytes.concat ["Op(", Decimal.ofInt code, ")"]

def isArithmetic : Bool :=
  code ≤ 4

def isEquality : Bool :=
  (BinaryOp.ofCode? code).any BinaryOp.isEquality

def isOrdering : Bool :=
  (BinaryOp.ofCode? code).any BinaryOp.isOrdering

def isLogical : Bool :=
  (BinaryOp.ofCode? code).any BinaryOp.isLogical

end OperatorCode

end Minilang
