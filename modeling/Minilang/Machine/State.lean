import Minilang.Bytecode.Program

/-!
# The state of the stack machine

One stack holds the values of all calls.  The local variables of a call stand at the bottom of its
part of the stack, from its base on, and the operands of the current instruction above them.  The
part of a called function begins with its arguments, which the caller has pushed.

An instruction either changes the state, or stops the program with a fault and leaves the state it
has come to.
-/

namespace Minilang.Machine

attribute [local instance (20000)] instPowNat

/-- A call. -/
structure Frame where
  func : Bytecode.Func
  /-- The next instruction. -/
  ip : Nat
  /-- Where the local variables begin on the stack. -/
  base : Nat
  locals : Nat

/-- The state of the machine. -/
structure State where
  stack : Array Value
  frame : Frame
  /-- The calls around it, the outermost first. -/
  callers : Array Frame
  heap : Heap
  output : Array Bytes

namespace State

/-- The number of operands of the current call.  It is negative if there was no room for the local
variables. -/
def operands (s : State) : Int :=
  s.stack.size - (s.frame.base + s.frame.locals : Nat)

end State

/-- What an instruction does, unless it fails. -/
abbrev Exec := EStateM Fault State

/-- Stops the program at the current instruction, which is the one before the next. -/
def fail {α : Type} (kind : FaultKind) (cause : Bytes) : Exec α := do
  let frame := (← get).frame
  let ip := frame.ip - 1
  throw ⟨kind, frame.func.name, ip, frame.func.span ip, cause⟩

/-! ### Operands -/

/-- Push a value. -/
def push (v : Value) : Exec Unit :=
  modify fun ⟨stack, frame, callers, heap, output⟩ =>
    ⟨stack.push v, frame, callers, heap, output⟩

variable (i : Instruction)

/-- Pop an operand. -/
def pop : Exec Value := do
  if (← get).operands ≤ 0 then fail .stackUnderflow i.text
  else
    modifyGet fun ⟨stack, frame, callers, heap, output⟩ =>
      (stack.back?.getD .null, ⟨stack.pop, frame, callers, heap, output⟩)

/-- Pops several operands of the current call for an instruction, in the order of their pushing. -/
def popMany (n : Nat) : Exec (List Value) := do
  if (← get).operands < n then
    fail .stackUnderflow (Bytes.concat [i.text, " needs ", Decimal.ofNat n, " values"])
  else
    modifyGet fun ⟨stack, frame, callers, heap, output⟩ =>
      let rest := stack.size - n
      ((stack.extract rest stack.size).toList,
        ⟨stack.shrink rest, frame, callers, heap, output⟩)

/-! ### Calls -/

def padded (stack : Array Value) (size : Nat) : Array Value :=
  stack ++ Array.replicate (size - stack.size) .null

def newFrame (f : Bytecode.Func) (stackSize args : Nat) : Frame :=
  ⟨f, 0, stackSize - args, (max f.numLocals args).toNat⟩

/-- The size of the stack at the start of a call.  There is no room for so many local variables that
their places are beyond the 64-bit integers.  The number of local variables is a 64-bit integer and
a stack never has `2 ^ 62` places, so there is always room at the bottom of the stack, and for fewer
local variables than that. -/
def Frame.room (fr : Frame) : Nat :=
  if fr.base = 0 ∨ fr.locals < 2 ^ (62 : Nat) ∨ fr.base + fr.locals < 2 ^ (63 : Nat) then
    fr.base + fr.locals
  else 0

def Frame.makeRoom (fr : Frame) (stack : Array Value) : Array Value :=
  padded stack fr.room

def tooDeep (cap : Int) (func : Bytes) : Bytes :=
  Bytes.concat ["call depth exceeds ", Decimal.ofInt cap, " calling ", func]

/-- Calls a function whose arguments are on top of the stack.  There are never more than `cap`
calls. -/
def enter (cap : Int) (f : Bytecode.Func) (args : Nat) : Exec Unit := do
  if cap ≤ (← get).callers.size + 1 then fail .stackOverflow (tooDeep cap f.name)
  else
    modify fun ⟨stack, frame, callers, heap, output⟩ =>
      let fr := newFrame f stack.size args
      ⟨fr.makeRoom stack, fr, callers.push frame, heap, output⟩

/-- Returns from the current call.  The result takes the place of its part of the stack; it is the
result of the program if there is no caller. -/
def leave (v : Value) : Exec (Option Value) :=
  modifyGet fun ⟨stack, frame, callers, heap, output⟩ =>
    let stack := (stack.shrink frame.base).push v
    match callers.back? with
    | some caller => (none, ⟨stack, caller, callers.pop, heap, output⟩)
    | none => (some v, ⟨stack, frame, callers, heap, output⟩)

def jump (target : Nat) : Exec Unit := do
  if (← get).frame.func.code.size < target then
    fail .invalidOpcode (Bytes.concat ["jump target ", Decimal.ofNat target, " out of range"])
  else
    modify fun ⟨stack, frame, callers, heap, output⟩ =>
      ⟨stack, { frame with ip := target }, callers, heap, output⟩

/-! ### Local variables -/

def State.local? (s : State) (n : Nat) : Option Value :=
  if n < s.frame.locals then s.stack[s.frame.base + n]? else none

def load (n : Nat) : Exec Unit := do
  match (← get).local? n with
  | some v => push v
  | none => fail .stackUnderflow (Bytes.concat ["local slot ", Decimal.ofNat n, " not initialized"])

/-- Pops a value into a local variable.  A call has as many local variables as are needed. -/
def store (n : Nat) : Exec Unit := do
  let v ← pop i
  modify fun ⟨stack, frame, callers, heap, output⟩ =>
    let slot := frame.base + n
    ⟨(padded stack (slot + 1)).setIfInBounds slot v,
      { frame with locals := max frame.locals (n + 1) }, callers, heap, output⟩

/-! ### Arrays and records -/

def newArray (elems : List Value) : Exec Value :=
  modifyGet fun ⟨stack, frame, callers, heap, output⟩ =>
    let (v, heap) := heap.newArray elems.toArray
    (v, ⟨stack, frame, callers, heap, output⟩)

def newRecord (r : Record) : Exec Value :=
  modifyGet fun ⟨stack, frame, callers, heap, output⟩ =>
    let (v, heap) := heap.newRecord r
    (v, ⟨stack, frame, callers, heap, output⟩)

def modifyHeap (f : Heap → Heap) : Exec Unit :=
  modify fun ⟨stack, frame, callers, heap, output⟩ => ⟨stack, frame, callers, f heap, output⟩

def print (v : Value) : Exec Unit :=
  modify fun ⟨stack, frame, callers, heap, output⟩ =>
    let line := Bytes.concat [heap.text v, "\n"]
    ⟨stack, frame, callers, heap, output.push line⟩

end Minilang.Machine
