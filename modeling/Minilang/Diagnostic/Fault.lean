import Minilang.Diagnostic.Basic

/-!
# Faults

A fault is what stops a running program: its kind, the instruction at fault, and a message.
-/

namespace Minilang

/-- The kinds of faults at run time. -/
inductive FaultKind where
  | stackUnderflow
  | invalidOpcode
  | typeMismatch
  | divisionByZero
  | indexOutOfBounds
  | unknownField
  | stackOverflow
  deriving DecidableEq, Repr

namespace FaultKind

def text : FaultKind → Bytes
  | .stackUnderflow => "stack underflow"
  | .invalidOpcode => "invalid opcode"
  | .typeMismatch => "type mismatch"
  | .divisionByZero => "division by zero"
  | .indexOutOfBounds => "index out of bounds"
  | .unknownField => "unknown field"
  | .stackOverflow => "stack overflow"

def all : List FaultKind :=
  [.stackUnderflow, .invalidOpcode, .typeMismatch, .divisionByZero, .indexOutOfBounds,
    .unknownField, .stackOverflow]

def nameOf (code : Int) : Bytes :=
  match (if code < 0 then none else all[code.toNat]?) with
  | some kind => kind.text
  | none => Bytes.concat ["Kind(", Decimal.ofInt code, ")"]

end FaultKind

/-- What stops a running program. -/
structure Fault where
  kind : FaultKind
  /-- The function being executed. -/
  func : Bytes
  /-- The index of the instruction in that function. -/
  ip : Nat
  span : Span
  /-- What the instruction could not do. -/
  cause : Bytes
  deriving DecidableEq, Repr

namespace Fault

def detail (f : Fault) : Bytes :=
  Bytes.concat [f.cause, ": ", f.kind.text]

/-- The text of a fault. -/
def message (f : Fault) : Bytes :=
  let text := Bytes.concat
    [Stage.runtime.text, " in ", f.func, " at ", Decimal.ofNat f.ip, ": ", f.detail]
  if f.span.first.isValid then Bytes.concat [f.span.first.text, ": ", text] else text

def diagnostic (f : Fault) : Diagnostic :=
  ⟨.runtime, f.span, f.detail⟩

end Fault

end Minilang
