import Minilang.Bytecode.Opcode
import Minilang.Text.Layout

/-!
# Bytecode programs

A compiled program: the constants, the functions, and the function that begins it.  The numbers of a
function may be any 64-bit integers, as a file may hold any.
-/

namespace Minilang.Bytecode

/-- A compiled function. -/
structure Func where
  name : Bytes
  numParams : Int
  /-- The number of local variables, parameters included. -/
  numLocals : Int
  code : Array Instruction
  /-- The places that the instructions come from; places may be missing at the end. -/
  spans : Array Span
  deriving DecidableEq, Inhabited

def Func.span (f : Func) (ip : Nat) : Span :=
  f.spans[ip]?.getD .none

/-- A compiled program. -/
structure Program where
  consts : Array Value
  /-- What the constants refer to. -/
  heap : Heap
  funcs : Array Func
  /-- The number of the function that begins the program. -/
  entry : Int

namespace Program

variable (p : Program)

def find? (name : Bytes) : Option Nat :=
  p.funcs.findIdx? fun f => f.name = name

def instructionLine (i : Instruction) : Bytes :=
  let note := match p.consts[i.arg.toNat]? with
    | some v =>
      if i.opcode?.any Opcode.argIsConst then Bytes.concat [" ; ", p.heap.quotedText v] else []
    | none => []
  Bytes.concat [i.text, note, "\n"]

def funcText (f : Func) : Bytes :=
  let header := Bytes.concat ["fn ", f.name, " (params: ", Decimal.ofInt f.numParams, ", locals: ",
    Decimal.ofInt f.numLocals, ")\n"]
  if f.code.isEmpty then header
  else
    let lines := f.code.toList.map p.instructionLine
    Bytes.concat [header, Layout.indent (Layout.numberFrom 0 (Bytes.concat lines))]

def text : Bytes :=
  let consts := p.consts.toList.map fun v =>
    Bytes.concat [v.kind.text, " ", p.heap.quotedText v, "\n"]
  let funcs := p.funcs.toList.zipIdx.map fun (f, i) =>
    Bytes.concat ["\n", if (i : Int) = p.entry then "entry " else "", p.funcText f]
  Bytes.concat ["consts:\n", Layout.indent (Layout.numberFrom 0 (Bytes.concat consts)),
    Bytes.concat funcs]

end Program

end Minilang.Bytecode
