import Minilang.Bytecode.Generate
import Minilang.Diagnostic.Failure
import Minilang.Machine.Run
import Minilang.Tac.Folding
import Minilang.Tac.Lowering
import Minilang.Tree.Parser

/-!
# Compiling and running source texts

A source text is read, checked, lowered to three-address code, folded, and compiled to bytecode.
The first error ends the compilation.
-/

namespace Minilang

/-- How a source text is compiled and run. -/
structure Options where
  optimize : Bool := true
  /-- How often the code is folded, if it is optimized. -/
  passes : Nat := 1
  maxDepth : Int := Machine.defaultMaxDepth
  /-- Whether the stages and the instructions executed are logged. -/
  tracing : Bool := false

/-- Why a text cannot be compiled. -/
inductive CompileError where
  | reading (e : ReadError)
  | typing (e : Located TypeError)
  | lowering (e : Tac.LowerFailure)
  | generating (e : Located Bytecode.GenerateError)

namespace CompileError

def cause : CompileError → Failure
  | .reading e => .diagnosed e.diagnostic
  | .typing e => .diagnosed (TypeError.diagnostic e)
  | .lowering (.rejected e) => .diagnosed (Tac.LowerError.diagnostic e)
  | .lowering (.invalid e) => (Failure.diagnosed (Tac.InvalidFunc.diagnostic e)).internal
  | .generating e => .diagnosed (Bytecode.GenerateError.diagnostic e)

def failure (e : CompileError) : Failure :=
  e.cause.traced

end CompileError

def foldingEntry (file : Bytes) (count : Nat) : Bytes :=
  Bytes.concat [file, ": optimizer: map[constant-folding:", Decimal.ofNat count, "]"]

def bytecodeEntry (p : Bytecode.Program) : Bytes :=
  Bytes.concat ["bytecode:\n", p.text]

/-- The lowered program of a text. -/
def lowerSource (src : Bytes) : Except CompileError Tac.Program := do
  let p ← (parse src).mapError .reading
  let package ← (Typing.checkProgram p).mapError .typing
  (Tac.lower package).mapError .lowering

/-- What comes of compiling: the entries of the log, and the program. -/
structure Compiled where
  log : List Bytes
  result : Except CompileError Bytecode.Program

variable (o : Options)

def compileCode (log : List Bytes) (code : Tac.Program) : Compiled :=
  match Bytecode.generate code with
  | .error e => ⟨log, .error (.generating e)⟩
  | .ok p => ⟨log ++ (if o.tracing then [bytecodeEntry p] else []), .ok p⟩

/-- Compiles a text. -/
def compile (file : Bytes) (src : Bytes) : Compiled :=
  match lowerSource src with
  | .error e => ⟨[], .error e⟩
  | .ok code =>
    if o.optimize then
      let (folded, count) := code.foldTimes o.passes
      compileCode o (if o.tracing then [foldingEntry file count] else []) folded
    else compileCode o [] code

/-- Runs a program. -/
def execute (p : Bytecode.Program) : Machine.Final :=
  Machine.run p o.maxDepth o.tracing Machine.manySteps

def defaultFileName : Bytes := "main.ql"

def Machine.RunError.failure : Machine.RunError → Failure
  | .fault f => .faulted f
  | e => .other e.message

/-- What comes of compiling and running: the entries of the log, what has been printed, and the
value with what it refers to. -/
structure Ran where
  log : List Bytes
  output : Bytes
  result : Except Failure (Heap × Value)

/-- Compiles and runs a text. -/
def runSource (src : Bytes) : Ran :=
  let c := compile o defaultFileName src
  match c.result with
  | .error e => ⟨c.log, [], .error e.failure⟩
  | .ok p =>
    let f := execute o p
    ⟨c.log ++ f.trace.toList, f.output.toList.flatten,
      match f.result with
      | .ok v => .ok (f.heap, v)
      | .error e => .error e.failure⟩

/-- The text of a log.  Each entry ends with a newline, and has the given text in front. -/
def logText (lead : Bytes) (entries : List Bytes) : Bytes :=
  entries.flatMap fun e =>
    Bytes.concat [lead, e, if e.getLast? = some Bytes.newline then [] else [Bytes.newline]]

end Minilang
