import Minilang.Diagnostic.Fault
import Minilang.Operator
import Minilang.Value.Equal
import Minilang.Value.Text

/-!
# Operations on values

The operators between two values and the operations on one value.  An integer becomes a float where
the other operand is one, and arithmetic on integers wraps around.
-/

namespace Minilang

/-- The unary operations of the machine. -/
inductive Primitive where
  | neg
  | not
  /-- The number of elements of an array or of bytes of a string. -/
  | len
  | toFloat
  deriving DecidableEq, Repr

namespace Primitive

def all : List Primitive :=
  [.neg, .not, .len, .toFloat]

def ofCode? (code : Int) : Option Primitive :=
  if code < 0 then none else all[code.toNat]?

end Primitive

/-- Why an operation has no result. -/
inductive OperationError where
  | undefinedBetween (op : Bytes) (x y : ValueKind)
  | undefinedOn (op : Primitive) (x : ValueKind)
  /-- A division, or the rest of one, by a number that is zero. -/
  | divisionByZero (x op y : Bytes)
  deriving DecidableEq, Repr

namespace OperationError

def cause : OperationError → Bytes
  | .undefinedBetween op x y =>
    Bytes.concat ["operator ", op, " not defined on ", x.text, " and ", y.text]
  | .undefinedOn .neg x => Bytes.concat ["operator - not defined on ", x.text]
  | .undefinedOn .not x => Bytes.concat ["operator ! not defined on ", x.text]
  | .undefinedOn .len x => Bytes.concat ["len not defined on ", x.text]
  | .undefinedOn .toFloat x => Bytes.concat ["cannot convert ", x.text, " to float"]
  | .divisionByZero x op y => Bytes.concat [x, " ", op, " ", y]

def kind : OperationError → FaultKind
  | .undefinedBetween .. | .undefinedOn .. => .typeMismatch
  | .divisionByZero .. => .divisionByZero

def message (e : OperationError) : Bytes :=
  Bytes.concat [e.cause, ": ", e.kind.text]

end OperationError

namespace Value

variable (op : BinaryOp) (x y : ValueKind)

def undefinedBetween {α : Type} : Except OperationError α :=
  .error (.undefinedBetween op.text x y)

def onInts (x y : Int64) : Except OperationError Value :=
  let nonzero (v : Int64) : Except OperationError Value :=
    if y = 0 then
      .error (.divisionByZero (Decimal.ofInt x.toInt) op.text (Decimal.ofInt y.toInt))
    else .ok (.int v)
  match op with
  | .add => .ok (.int (x + y))
  | .sub => .ok (.int (x - y))
  | .mul => .ok (.int (x * y))
  | .div => nonzero (x / y)
  | .mod => nonzero (x % y)
  | .lt => .ok (.bool (x < y))
  | .le => .ok (.bool (x ≤ y))
  | .gt => .ok (.bool (y < x))
  | .ge => .ok (.bool (y ≤ x))
  | .eq | .ne | .and | .or => undefinedBetween op .int .int

def onFloats (x y : Double) : Except OperationError Value :=
  let nonzero (v : Double) : Except OperationError Value :=
    if y.isZero then .error (.divisionByZero x.text op.text y.text) else .ok (.float v)
  match op with
  | .add => .ok (.float (x.add y))
  | .sub => .ok (.float (x.sub y))
  | .mul => .ok (.float (x.mul y))
  | .div => nonzero (x.div y)
  | .mod => nonzero (x.mod y)
  | .lt => .ok (.bool (x.lt y))
  | .le => .ok (.bool (x.le y))
  | .gt => .ok (.bool (y.lt x))
  | .ge => .ok (.bool (y.le x))
  | .eq | .ne | .and | .or => undefinedBetween op .float .float

def comparable : Bool :=
  (x.isNumeric && y.isNumeric) || x = y

/-- The result of a binary operation. -/
def binary (h : Heap) (op : BinaryOp) (x y : Value) : Except OperationError Value :=
  match op with
  | .eq =>
    if comparable x.kind y.kind then .ok (.bool (h.equal x y))
    else undefinedBetween op x.kind y.kind
  | .ne =>
    if comparable x.kind y.kind then .ok (.bool (!h.equal x y))
    else undefinedBetween op x.kind y.kind
  | .and =>
    match x, y with
    | .bool a, .bool b => .ok (.bool (a && b))
    | _, _ => undefinedBetween op x.kind y.kind
  | .or =>
    match x, y with
    | .bool a, .bool b => .ok (.bool (a || b))
    | _, _ => undefinedBetween op x.kind y.kind
  | .add | .sub | .mul | .div | .mod | .lt | .le | .gt | .ge =>
    match x, y with
    | .int a, .int b => onInts op a b
    | .int a, .float b => onFloats op (Double.ofInt a) b
    | .float a, .int b => onFloats op a (Double.ofInt b)
    | .float a, .float b => onFloats op a b
    | .string a, .string b =>
      if op = .add then .ok (.string (a ++ b)) else undefinedBetween op .string .string
    | _, _ => undefinedBetween op x.kind y.kind

/-- The kinds of two operands after an integer has become a float where the other one is a float. -/
def promoted : ValueKind × ValueKind :=
  match x, y with
  | .int, .float | .float, .int => (.float, .float)
  | _, _ => (x, y)

/-- The result of the operator with the given number between two values.  A number that is no
operator's is defined on no values. -/
def binaryOfCode (h : Heap) (code : Int) (x y : Value) : Except OperationError Value :=
  match BinaryOp.ofCode? code with
  | some op => binary h op x y
  | none =>
    let (a, b) := promoted x.kind y.kind
    .error (.undefinedBetween "?" a b)

/-- The result of a unary operation. -/
def primitive (h : Heap) (op : Primitive) (x : Value) : Except OperationError Value :=
  match op, x with
  | .neg, .int n => .ok (.int (-n))
  | .neg, .float d => .ok (.float d.neg)
  | .not, .bool b => .ok (.bool (!b))
  | .len, .array ref => .ok (.int (Int64.ofNat (h.elems ref).size))
  | .len, .string s => .ok (.int (Int64.ofNat s.length))
  | .toFloat, .int n => .ok (.float (Double.ofInt n))
  | .toFloat, .float d => .ok (.float d)
  | op, x => .error (.undefinedOn op x.kind)

end Value

def BinaryOp.nameOf (code : Int) : Bytes :=
  match BinaryOp.ofCode? code with
  | some op => op.text
  | none => "?"

end Minilang
