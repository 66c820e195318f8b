import Minilang.Machine.Step

/-!
# Running a program
-/

namespace Minilang

attribute [local instance (20000)] instPowNat

/-- What a machine is doing. -/
inductive MachineStatus where
  | ready
  | running
  | halted
  | failed
  deriving DecidableEq, Repr

namespace MachineStatus

def text : MachineStatus → Bytes
  | .ready => "ready"
  | .running => "running"
  | .halted => "halted"
  | .failed => "failed"

def all : List MachineStatus :=
  [.ready, .running, .halted, .failed]

def nameOf (code : Int) : Bytes :=
  match (if code < 0 then none else all[code.toNat]?) with
  | some status => status.text
  | none => Bytes.concat ["State(", Decimal.ofInt code, ")"]

end MachineStatus

namespace Machine

/-- How the run of a program ends. -/
inductive Outcome where
  | halted (v : Value)
  | failed (f : Fault)
  /-- The program has not come to its end in the number of steps it was given. -/
  | unfinished

/-- The end of a run. -/
structure Final where
  outcome : Outcome
  stack : Array Value
  heap : Heap
  /-- What has been printed, line by line. -/
  output : Array Bytes
  /-- The instructions executed, each with the stack before it, if they were asked for. -/
  trace : Array Bytes

def State.final (s : State) (trace : Array Bytes) (outcome : Outcome) : Final :=
  ⟨outcome, s.stack, s.heap, s.output, trace⟩

def State.traceLine? (s : State) : Option Bytes :=
  s.frame.func.code[s.frame.ip]?.map fun i =>
    Bytes.concat [s.frame.func.name, ":", Decimal.ofNat s.frame.ip, " ", i.text, " [",
      Bytes.joinWith ", " (s.stack.toList.map s.heap.text), "]"]

/-- The run from a state on. -/
def runFrom (p : Bytecode.Program) (cap : Int) (tracing : Bool) :
    (steps : Nat) → (trace : Array Bytes) → State → Final
  | 0, trace, s => s.final trace .unfinished
  | steps + 1, trace, s =>
    let trace := if tracing then
        match s.traceLine? with
        | some line => trace.push line
        | none => trace
      else trace
    match (step p cap).run s with
    | .ok none s => runFrom p cap tracing steps trace s
    | .ok (some v) s => s.final trace (.halted v)
    | .error f s => s.final trace (.failed f)

/-- The first state of a run. -/
def start (p : Bytecode.Program) (cap : Int) : Except Fault State :=
  match (if p.entry < 0 then none else p.funcs[p.entry.toNat]?) with
  | none => .error ⟨.invalidOpcode, [], 0, .none,
      Bytes.concat ["entry function ", Decimal.ofInt p.entry, " out of range"]⟩
  | some f =>
    if cap ≤ 0 then .error ⟨.stackOverflow, f.name, 0, .none, tooDeep cap f.name⟩
    else
      let fr := newFrame f 0 0
      .ok ⟨fr.makeRoom #[], fr, #[], p.heap, #[]⟩

/-- A run of a program, with at most so many steps. -/
def run (p : Bytecode.Program) (cap : Int) (tracing : Bool) (steps : Nat) : Final :=
  match start p cap with
  | .error f => ⟨.failed f, #[], p.heap, #[], #[]⟩
  | .ok s => runFrom p cap tracing steps #[] s

def defaultMaxDepth : Int := 1024

def manySteps : Nat := 2 ^ (62 : Nat)

/-- Why a machine gives no value. -/
inductive RunError where
  | fault (f : Fault)
  | alreadyRunning
  | unfinished

def RunError.message : RunError → Bytes
  | .fault f => f.message
  | .alreadyRunning => "machine is already running"
  | .unfinished => "machine has not halted"

end Machine

/-- A machine with its program.  It runs its program once, and has the result from then on. -/
structure Machine where
  program : Bytecode.Program
  maxDepth : Int
  tracing : Bool
  status : MachineStatus
  /-- What is left after the run. -/
  final? : Option Machine.Final

namespace Machine

def new (p : Bytecode.Program) (cap : Int) (tracing : Bool) : Machine :=
  ⟨p, cap, tracing, .ready, none⟩

def Final.result (f : Final) : Except RunError Value :=
  match f.outcome with
  | .halted v => .ok v
  | .failed e => .error (.fault e)
  | .unfinished => .error .unfinished

def Final.status (f : Final) : MachineStatus :=
  match f.outcome with
  | .halted _ => .halted
  | .failed _ => .failed
  | .unfinished => .running

/-- Runs the program of a machine that is ready.  A machine that has run gives the same result
again, and one that is running cannot be run. -/
def runMachine (m : Machine) : Except RunError Value × Machine :=
  match m.final? with
  | some f => (f.result, m)
  | none =>
    match m.status with
    | .ready =>
      let f := run m.program m.maxDepth m.tracing manySteps
      (f.result, { m with status := f.status, final? := some f })
    | _ => (.error .alreadyRunning, m)

end Machine

end Minilang
