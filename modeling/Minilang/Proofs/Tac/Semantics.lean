import Minilang.Machine.Run
import Minilang.Tac.Basic
import Mathlib.Logic.Function.Basic

/-!
# The meaning of three-address code

Three-address code runs directly: every call of a function has registers of its own, which hold null
until they are written, except that the parameters hold the arguments.  The instructions of a
function run in order.  A label does nothing, a jump goes on at its label, a conditional jump is
taken if its operand is false, and a call begins the called function while the register for its
result waits.  Behind its last instruction a function returns null.

An instruction that cannot be executed ends the program with a fault at its own place.  The faults
are those of a call of a value that is no function, of a wrong number of arguments, of too many
nested calls, and those of the operations on values.

`run` is what a program does in a number of steps: how far it has come, and what it has printed.
-/

namespace Minilang.Tac

variable (p : Program) (cap : Int) (s : State) (h : Heap)

/-- The place of the function with a name. -/
def Program.index? (name : Bytes) : Option Nat :=
  p.funcs.findIdx? fun f => f.name = name

lemma Program.find?_of_index? {p : Program} {name : Bytes} {k : Nat}
    (h : p.index? name = some k) : ∃ f, p.funcs[k]? = some f ∧ p.find? name = some f := by
  obtain ⟨hlt, hname, hfirst⟩ := List.findIdx?_eq_some_iff_getElem.mp h
  refine ⟨p.funcs[k], List.getElem?_eq_getElem hlt, ?_⟩
  rw [find?, List.find?_eq_some_iff_getElem]
  exact ⟨hname, k, hlt, rfl, fun j hj => by simpa using hfirst j hj⟩

/-- The value of a literal.  A literal of no kind, or of a function that does not exist, has none.
-/
def Lit.eval : Lit → Value
  | .int n => .int n
  | .float x => .float x
  | .bool b => .bool b
  | .string s => .string s
  | .func name =>
    match p.index? name with
    | some i => .func name i
    | none => .null
  | .invalid _ => .null

/-- The values of the registers. -/
abbrev Regs := Nat → Value

/-- The value of an operand. -/
def Operand.eval (regs : Regs) : Operand → Value
  | .reg r => regs r
  | .lit l => l.eval p
  | .missing => .null

/-- A call of a function. -/
structure Call where
  func : Func
  /-- The next instruction. -/
  pc : Nat
  regs : Regs

/-- The instruction that a call is at. -/
abbrev Call.instr? (c : Call) : Option (Located Instr) :=
  c.func.body[c.pc]?

/-- The call with another value of a register. -/
def Call.write (c : Call) (r : Nat) (v : Value) : Call :=
  { c with regs := Function.update c.regs r v }

/-- The call of a function. -/
def Func.call (f : Func) (args : List Value) : Call :=
  ⟨f, 0, fun r => args[r]?.getD .null⟩

/-- The place of a label. -/
def Func.place? (f : Func) (label : Bytes) : Option Nat :=
  f.body.findIdx? fun i => i.val.label? = some label

/-- The state of a running program. -/
structure State where
  /-- The current call. -/
  call : Call
  /-- The calls around it, the innermost first, each with the register that its result goes to. -/
  callers : List (Call × Nat)
  heap : Heap
  /-- What has been printed. -/
  output : Array Bytes

namespace State

/-- The value of an operand in a state. -/
def eval (p : Program) (s : State) (x : Operand) : Value :=
  x.eval p s.call.regs

variable (s : State)

/-- The state with a register of the current call written. -/
def write (r : Nat) (v : Value) : State :=
  { s with call := s.call.write r v }

/-- Goes on at an instruction of the current call. -/
def goTo (pc : Nat) : State :=
  { s with call := { s.call with pc := pc } }

/-- The state at a label. -/
def jump (label : Bytes) : State :=
  s.goTo ((s.call.func.place? label).getD s.call.func.body.length)

/-- Returns from the current call.  The result is that of the program if there is no caller. -/
def leave (v : Value) : Option Value × State :=
  match s.callers with
  | [] => (some v, s)
  | (caller, r) :: callers => (none, { s with call := caller.write r v, callers := callers })

end State

/-- Why an instruction cannot be executed: the kind of the fault and its cause. -/
abbrev Reason := FaultKind × Bytes

/-- The result of an operation on values, or the reason why it has none. -/
def ofOperation : Except OperationError Value → Except Reason Value
  | .ok v => .ok v
  | .error e => .error (e.kind, e.cause)

/-- The boolean that a jump needs. -/
def condition : Value → Except Reason Bool
  | .bool c => .ok c
  | v => .error (.typeMismatch, Bytes.concat ["condition is a ", v.kind.text, ", not a bool"])

/-- The array and the position that two values stand for. -/
def position (array index : Value) : Except Reason (Nat × Nat) :=
  match array, index with
  | .array ref, .int n =>
    let size := (h.elems ref).size
    if n.toInt < 0 ∨ (size : Int) ≤ n.toInt then
      .error (.indexOutOfBounds,
        Bytes.concat ["index ", Decimal.ofInt n.toInt, " with length ", Decimal.ofNat size])
    else .ok (ref, n.toInt.toNat)
  | .array _, v =>
    .error (.typeMismatch, Bytes.concat ["index is a ", v.kind.text, ", not an int"])
  | v, _ => .error (.typeMismatch, Bytes.concat ["cannot index a ", v.kind.text])

/-- The record that a value stands for, and the value of a field of it. -/
def fieldOf (record : Value) (name : Bytes) : Except Reason (Nat × Value) :=
  match record with
  | .record ref =>
    match (h.record ref).get? name with
    | some v => .ok (ref, v)
    | none =>
      .error (.unknownField, Bytes.concat [(h.record ref).type, " has no field ", name])
  | v => .error (.typeMismatch, Bytes.concat ["cannot access a field of a ", v.kind.text])

/-- The record with fields set one after the other. -/
def withFields (r : Record) (fields : List (Bytes × Value)) : Record :=
  fields.foldl (fun r f => r.set f.1 f.2) r

/-- The function that a call needs. -/
def callee (v : Value) : Except Reason Func :=
  match v with
  | .func name index =>
    match (if index < 0 then none else p.funcs[index.toNat]?) with
    | some f => .ok f
    | none => .error (.invalidOpcode,
        Bytes.concat ["function ", name, " (", Decimal.ofInt index, ") out of range"])
  | v => .error (.typeMismatch, Bytes.concat ["cannot call a ", v.kind.text])

/-- Calls a function, whose result goes to a register.  There are never more than `cap`
calls. -/
def enter (d : Nat) (f : Func) (args : List Value) : Except Reason State :=
  if args.length ≠ f.params.length then
    .error (.typeMismatch, Bytes.concat [f.name, " called with ", Decimal.ofNat args.length,
      " arguments, want ", Decimal.ofNat f.params.length])
  else if cap ≤ s.callers.length + 1 then
    .error (.stackOverflow, Machine.tooDeep cap f.name)
  else .ok { s with call := f.call args, callers := (s.call, d) :: s.callers }

/-- The value of a binary operation. -/
def binaryResult (op : OpCode BinaryOp) (x y : Value) : Except Reason Value :=
  match op with
  | .known op => ofOperation (Value.binary h op x y)
  | .unknown code => ofOperation (Value.binaryOfCode h code x y)

/-- The value of a unary operation. -/
def unaryResult (op : OpCode Primitive) (x : Value) : Except Reason Value :=
  match op with
  | .known op => ofOperation (Value.primitive h op x)
  | .unknown _ => .error (.invalidOpcode, "unknown operation")

/-- Executes an instruction; the state has the next one as its next instruction already.  The
result is that of the program, once it has one. -/
def execute : Instr → Except Reason (Option Value × State)
  | .assign d x => .ok (none, s.write d (s.eval p x))
  | .binary d op x y => do
    let v ← binaryResult s.heap op (s.eval p x) (s.eval p y)
    return (none, s.write d v)
  | .unary d op x => do
    let v ← unaryResult s.heap op (s.eval p x)
    return (none, s.write d v)
  | .call d f args => do
    let f ← callee p (s.eval p f)
    let s ← enter cap s d f (args.map (s.eval p))
    return (none, s)
  | .ret none => .ok (s.leave .null)
  | .ret (some x) => .ok (s.leave (s.eval p x))
  | .jumpUnless x l => do
    let c ← condition (s.eval p x)
    return (none, if c then s else s.jump l)
  | .jump l => .ok (none, s.jump l)
  | .label _ => .ok (none, s)
  | .array d xs =>
    let (v, heap) := s.heap.newArray (xs.map (s.eval p)).toArray
    .ok (none, { s with heap := heap }.write d v)
  | .index d x i => do
    let (ref, n) ← position s.heap (s.eval p x) (s.eval p i)
    return (none, s.write d ((s.heap.elems ref)[n]?.getD .null))
  | .setIndex x i v => do
    let (ref, n) ← position s.heap (s.eval p x) (s.eval p i)
    return (none, { s with heap := s.heap.setElem ref n (s.eval p v) })
  | .field d x name => do
    let (_, v) ← fieldOf s.heap (s.eval p x) name
    return (none, s.write d v)
  | .setField x name v => do
    let (ref, _) ← fieldOf s.heap (s.eval p x) name
    return (none, { s with heap := s.heap.setField ref name (s.eval p v) })
  | .record d type names values =>
    let r := withFields (.empty type) (names.zip (values.map (s.eval p)))
    let (v, heap) := s.heap.newRecord r
    .ok (none, { s with heap := heap }.write d v)
  | .print x =>
    .ok (none, { s with
      output := s.output.push (Bytes.concat [s.heap.text (s.eval p x), "\n"]) })

/-- The fault of an instruction. -/
def Call.fault (c : Call) (span : Span) (r : Reason) : Fault :=
  ⟨r.1, c.func.name, c.pc, span, r.2⟩

/-- One step: executes the next instruction, or returns null behind the last one. -/
def step : Except Fault (Option Value × State) :=
  match s.call.instr? with
  | none => .ok (s.leave .null)
  | some i =>
    match execute p cap (s.goTo (s.call.pc + 1)) i.val with
    | .ok r => .ok r
    | .error e => .error (s.call.fault i.span e)

/-- What is left after a run. -/
structure Final where
  outcome : Machine.Outcome
  heap : Heap
  /-- What has been printed, line by line. -/
  output : Array Bytes

/-- What is left of a state at the end. -/
def State.final (outcome : Machine.Outcome) : Final :=
  ⟨outcome, s.heap, s.output⟩

/-- Runs a program on from a state for at most the given number of steps. -/
def runFrom (p : Program) (cap : Int) : (steps : Nat) → State → Final
  | 0, s => s.final .unfinished
  | steps + 1, s =>
    match step p cap s with
    | .ok (none, s) => runFrom p cap steps s
    | .ok (some v, s) => s.final (.halted v)
    | .error f => s.final (.failed f)

/-- The state at the start of a program, or the fault of one that cannot start. -/
def start : Except Fault State :=
  match p.find? "main" with
  | none => .error ⟨.invalidOpcode, [], 0, .none, "no main function"⟩
  | some f =>
    if cap ≤ 0 then
      .error ⟨.stackOverflow, f.name, 0, .none, Machine.tooDeep cap f.name⟩
    else .ok ⟨f.call [], [], .empty, #[]⟩

/-- Runs a program for at most the given number of steps. -/
def run (steps : Nat) : Final :=
  match start p cap with
  | .error f => ⟨.failed f, .empty, #[]⟩
  | .ok s => runFrom p cap steps s

end Minilang.Tac
