import Minilang.Bytecode.Program
import Minilang.Collection.OrderedMap
import Minilang.Tac.Listing

/-!
# From three-address code to bytecode

An instruction of three-address code becomes instructions that push its operands, apply the
operation, and store the result in the local variable of its register.  A register gets its local
variable when it is first written, parameters before all others.  Jumps keep the names of their
labels until the end of the function, when all labels have their places.

Constants are shared by all functions: one of the same kind and with the same text is used again.
-/

namespace Minilang.Bytecode

open Tac (Lit Operand Instr)

/-- What the argument of an instruction counts or numbers. -/
inductive Quantity where
  | slot
  | constant
  | arguments
  | elements
  | fields
  | target

def Quantity.text : Quantity → Bytes
  | .slot => "local slot"
  | .constant => "constant"
  | .arguments => "number of arguments"
  | .elements => "number of elements"
  | .fields => "number of fields"
  | .target => "jump target"

/-- Why there is no code for an instruction. -/
inductive GenerateCause where
  | outOfRange (what : Quantity) (n : Nat)
  | unknownLocal (r : Nat)
  | missingOperand
  | undefinedFunc (name : Bytes)
  | invalidLiteral (l : Lit)
  | unknownBinary (op : OpCode BinaryOp)
  | unknownUnary (op : OpCode Primitive)
  | duplicateLabel (label : Bytes)
  | undefinedLabels (labels : List Bytes)
  | fieldCount (i : Instr) (fields values : Nat)
  | tooLong (size : Nat)

def GenerateCause.message : GenerateCause → Bytes
  | .outOfRange what n => Bytes.concat [what.text, " ", Decimal.ofNat n, " out of range"]
  | .unknownLocal r => Bytes.concat ["unknown local ", Tac.regText r]
  | .missingOperand => "operand <nil> not supported"
  | .undefinedFunc name => Bytes.concat ["undefined function ", name]
  | .invalidLiteral l => Bytes.concat ["literal ", l.text, " not supported"]
  | .unknownBinary op => Bytes.concat ["binary operator ", Tac.binaryText op, " not supported"]
  | .unknownUnary op => Bytes.concat ["unary operator ", Tac.unaryText op, " not supported"]
  | .duplicateLabel label => Bytes.concat ["label ", label, " defined more than once"]
  | .undefinedLabels labels =>
    Bytes.concat ["jump to undefined label ", Bytes.joinWith ", " labels]
  | .fieldCount i fields values => Bytes.concat [i.text, ": ", Decimal.ofNat fields,
      " fields but ", Decimal.ofNat values, " values"]
  | .tooLong size => Bytes.concat ["function too long: ", Decimal.ofNat size, " instructions"]

/-- Why there is no code for a program. -/
inductive GenerateError where
  | duplicateFunc (name : Bytes)
  | noMain
  | inFunc (func : Bytes) (cause : GenerateCause)

def GenerateError.message : GenerateError → Bytes
  | .duplicateFunc name => Bytes.concat ["function ", name, " defined more than once"]
  | .noMain => "no main function"
  | .inFunc func cause => Bytes.concat ["function ", func, ": ", cause.message]

def GenerateError.diagnostic (e : Located GenerateError) : Diagnostic :=
  ⟨.codegen, e.span, e.val.message⟩

/-- The constants, each once. -/
abbrev Pool := OrderedMap (ValueKind × Bytes) Value

def Pool.index (p : Pool) (v : Value) : Pool × Nat :=
  p.intern (v.kind, Heap.empty.text v) v

/-- An instruction whose jump has its label still. -/
inductive Draft where
  | plain (i : Instruction)
  | jump (op : Opcode) (label : Bytes)

/-- The code of a function so far. -/
structure FuncState where
  code : Array (Located Draft)
  slots : Std.HashMap Nat Nat
  labels : Std.HashMap Bytes Nat
  pool : Pool

namespace Generate

/-- Code is generated one instruction after the other. -/
abbrev M := StateT FuncState (Except (Located GenerateCause))

/-- The indices of the functions. -/
abbrev FuncTable := Std.HashMap Bytes Nat

variable (span : Span)

def add (d : Draft) : M Unit :=
  modify fun ⟨code, slots, labels, pool⟩ => ⟨code.push ⟨span, d⟩, slots, labels, pool⟩

def emit (op : Opcode) : M Unit :=
  add span (.plain (.of op 0))

def emitArg (op : Opcode) (what : Quantity) (n : Nat) : M Unit :=
  if n ≤ Instruction.maxArg then add span (.plain (.of op n.toUInt16))
  else throw ⟨span, .outOfRange what n⟩

def constant (v : Value) : M Nat :=
  modifyGet fun ⟨code, slots, labels, pool⟩ =>
    let (pool, i) := pool.index v
    (i, ⟨code, slots, labels, pool⟩)

def pushConst (v : Value) : M Unit := do
  emitArg span .const .constant (← constant v)

def slot (r : Nat) : M Nat :=
  modifyGet fun ⟨code, slots, labels, pool⟩ =>
    match slots[r]? with
    | some i => (i, ⟨code, slots, labels, pool⟩)
    | none =>
      let i := slots.size
      (i, ⟨code, slots.insert r i, labels, pool⟩)

def literal (funcs : FuncTable) (span : Span) : Lit → M Value
  | .int n => return .int n
  | .float x => return .float x
  | .bool b => return .bool b
  | .string s => return .string s
  | .func name =>
    match funcs[name]? with
    | some i => return .func name i
    | none => throw ⟨span, .undefinedFunc name⟩
  | .invalid k => throw ⟨span, .invalidLiteral (.invalid k)⟩

variable (funcs : FuncTable) (span : Span)

def push : Operand → M Unit
  | .reg r => do
    match (← get).slots[r]? with
    | some i => emitArg span .load .slot i
    | none => throw ⟨span, .unknownLocal r⟩
  | .lit l => do pushConst span (← literal funcs span l)
  | .missing => throw ⟨span, .missingOperand⟩

def pushAll : List Operand → M Unit
  | [] => return ()
  | x :: xs => do
    push funcs span x
    pushAll xs

def store (dst : Nat) : M Unit := do
  emitArg span .store .slot (← slot dst)

def pushFields : List (Bytes × Operand) → M Unit
  | [] => return ()
  | (name, x) :: fs => do
    pushConst span (.string name)
    push funcs span x
    pushFields fs

def instr : Instr → M Unit
  | .assign d x => do
    push funcs span x
    store span d
  | .binary d op x y => do
    match op with
    | .unknown _ => throw ⟨span, .unknownBinary op⟩
    | .known o =>
      pushAll funcs span [x, y]
      emit span (.binary o)
      store span d
  | .unary d op x => do
    match op with
    | .unknown _ => throw ⟨span, .unknownUnary op⟩
    | .known o =>
      push funcs span x
      emit span (.primitive o)
      store span d
  | .call d callee args => do
    pushAll funcs span args
    push funcs span callee
    emitArg span .call .arguments args.length
    store span d
  | .ret none => do
    emit span .null
    emit span .ret
  | .ret (some x) => do
    push funcs span x
    emit span .ret
  | .jumpUnless x l => do
    push funcs span x
    add span (.jump .jumpIfFalse l)
  | .jump l => add span (.jump .jump l)
  | .label l => do
    let s ← get
    if s.labels.contains l then throw ⟨span, .duplicateLabel l⟩
    else set { s with labels := s.labels.insert l s.code.size }
  | .array d xs => do
    pushAll funcs span xs
    emitArg span .array .elements xs.length
    store span d
  | .index d x i => do
    pushAll funcs span [x, i]
    emit span .indexGet
    store span d
  | .setIndex x i v => do
    pushAll funcs span [x, i, v]
    emit span .indexSet
  | .field d x name => do
    push funcs span x
    emitArg span .fieldGet .constant (← constant (.string name))
    store span d
  | .setField x name v => do
    pushAll funcs span [x, v]
    emitArg span .fieldSet .constant (← constant (.string name))
  | .record d type names values => do
    if names.length ≠ values.length then
      throw ⟨span, .fieldCount (.record d type names values) names.length values.length⟩
    else
      pushConst span (.string type)
      pushFields funcs span (names.zip values)
      emitArg span .record .fields names.length
      store span d
  | .print x => do
    push funcs span x
    emit span .print

def instrs : Tac.Code → M Unit
  | [] => return ()
  | i :: is => do
    instr funcs i.span i.val
    instrs is

def paramSlots (n : Nat) : Std.HashMap Nat Nat :=
  (List.range n).foldl (fun m i => m.insert i i) ∅

/-- The instructions with the targets of their jumps.  The place of an error is `last`, unless a
jump to an undefined label came before. -/
def resolve (labels : Std.HashMap Bytes Nat) (last : Span) (undefined : List Bytes)
    (done : Array (Located Instruction)) :
    List (Located Draft) → Except (Located GenerateCause) (Array (Located Instruction))
  | [] => if undefined.isEmpty then .ok done else .error ⟨last, .undefinedLabels undefined.reverse⟩
  | ⟨s, .plain i⟩ :: rest => resolve labels last undefined (done.push ⟨s, i⟩) rest
  | ⟨s, .jump op l⟩ :: rest =>
    match labels[l]? with
    | none => resolve labels s (l :: undefined) done rest
    | some t =>
      if t ≤ Instruction.maxArg then
        resolve labels last undefined (done.push ⟨s, .of op t.toUInt16⟩) rest
      else .error ⟨last, .outOfRange .target t⟩

def func (f : Tac.Func) (pool : Pool) : Except (Located GenerateCause) (Func × Pool) := do
  let start : FuncState := ⟨#[], paramSlots f.params.length, ∅, pool⟩
  let ((), s) ← (instrs funcs f.body).run start
  let last := (f.body.getLast?.map (·.span)).getD .none
  let code ← resolve s.labels last [] #[] s.code.toList
  if Instruction.maxArg < code.size then throw ⟨last, .tooLong code.size⟩
  return (⟨f.name, f.params.length, s.slots.size, code.map (·.val), code.map (·.span)⟩, s.pool)

def allFuncs (pool : Pool) (done : Array Func) :
    List Tac.Func → Except (Located GenerateError) (Array Func × Pool)
  | [] => .ok (done, pool)
  | f :: fs =>
    match func funcs f pool with
    | .error e => .error ⟨e.span, .inFunc f.name e.val⟩
    | .ok (g, pool) => allFuncs pool (done.push g) fs

def number (table : FuncTable) : List (Tac.Func × Nat) → Except (Located GenerateError) FuncTable
  | [] => .ok table
  | (f, i) :: fs =>
    if table.contains f.name then .error ⟨.none, .duplicateFunc f.name⟩
    else number (table.insert f.name i) fs

end Generate

/-- The code of a program. -/
def generate (p : Tac.Program) : Except (Located GenerateError) Program := do
  let table ← Generate.number ∅ p.funcs.zipIdx
  match table[Bytes.ofString "main"]? with
  | none => throw ⟨.none, .noMain⟩
  | some entry =>
    let (funcs, pool) ← Generate.allFuncs table .empty #[] p.funcs
    return ⟨pool.values, .empty, funcs, entry⟩

end Minilang.Bytecode
