import Minilang.Value.Operation

/-!
# Bytecode instructions

An instruction of the stack machine is a byte for the operation and a 16-bit argument.  Not every
byte stands for an operation: a program read from a file may hold any.
-/

namespace Minilang

/-- The operations of the machine. -/
inductive Opcode where
  /-- Push a constant. -/
  | const
  /-- Push a local variable. -/
  | load
  /-- Pop a value into a local variable. -/
  | store
  | pop
  /-- Push the absence of a value. -/
  | null
  /-- Pop two values and push the result of an operator between them. -/
  | binary (op : BinaryOp)
  /-- Pop a value and push the result of an operation on it. -/
  | primitive (op : Primitive)
  | jump
  /-- Pop a boolean and jump if it is false. -/
  | jumpIfFalse
  /-- Pop a function and then its arguments, and call the function. -/
  | call
  /-- Pop the result and return to the caller. -/
  | ret
  /-- Pop a value and print it. -/
  | print
  /-- Pop the elements of an array and push the array. -/
  | array
  /-- Pop an index and an array and push the element. -/
  | indexGet
  /-- Pop a value, an index and an array and set the element. -/
  | indexSet
  /-- Pop the values and names of fields and the name of a type and push the record. -/
  | record
  /-- Pop a record and push the field that a constant names. -/
  | fieldGet
  /-- Pop a value and a record and set the field that a constant names. -/
  | fieldSet
  deriving DecidableEq, Repr

namespace Opcode

def all : List Opcode :=
  [.const, .load, .store, .pop, .null] ++ BinaryOp.all.map .binary ++
    Primitive.all.map .primitive ++
    [.jump, .jumpIfFalse, .call, .ret, .print, .array, .indexGet, .indexSet, .record, .fieldGet,
      .fieldSet]

/-- The byte of an opcode. -/
def toByte (op : Opcode) : UInt8 :=
  (all.idxOf op).toUInt8

def table : Array Opcode := all.toArray

/-- The opcode of a byte. -/
def ofByte? (b : UInt8) : Option Opcode :=
  table[b.toNat]?

def binaryName : BinaryOp → Bytes
  | .add => "ADD"
  | .sub => "SUB"
  | .mul => "MUL"
  | .div => "DIV"
  | .mod => "MOD"
  | .eq => "EQ"
  | .ne => "NE"
  | .lt => "LT"
  | .le => "LE"
  | .gt => "GT"
  | .ge => "GE"
  | .and => "AND"
  | .or => "OR"

def primitiveName : Primitive → Bytes
  | .neg => "NEG"
  | .not => "NOT"
  | .len => "LEN"
  | .toFloat => "TOFLOAT"

def text : Opcode → Bytes
  | .const => "CONST"
  | .load => "LOAD"
  | .store => "STORE"
  | .pop => "POP"
  | .null => "NULL"
  | .binary op => binaryName op
  | .primitive op => primitiveName op
  | .jump => "JUMP"
  | .jumpIfFalse => "JUMPIFFALSE"
  | .call => "CALL"
  | .ret => "RETURN"
  | .print => "PRINT"
  | .array => "ARRAY"
  | .indexGet => "INDEXGET"
  | .indexSet => "INDEXSET"
  | .record => "RECORD"
  | .fieldGet => "FIELDGET"
  | .fieldSet => "FIELDSET"

def hasArg : Opcode → Bool
  | .const | .load | .store | .jump | .jumpIfFalse | .call | .array | .record | .fieldGet
  | .fieldSet => true
  | _ => false

def argIsConst : Opcode → Bool
  | .const | .fieldGet | .fieldSet => true
  | _ => false

def nameOf (b : UInt8) : Bytes :=
  match ofByte? b with
  | some op => op.text
  | none => Bytes.concat ["OPCODE(", Decimal.ofNat b.toNat, ")"]

end Opcode

/-- An instruction: a byte and an argument. -/
structure Instruction where
  op : UInt8
  arg : UInt16
  deriving DecidableEq, Repr, Inhabited

namespace Instruction

def maxArg : Nat := 65535

def of (op : Opcode) (arg : UInt16) : Instruction :=
  ⟨op.toByte, arg⟩

def opcode? (i : Instruction) : Option Opcode :=
  Opcode.ofByte? i.op

def text (i : Instruction) : Bytes :=
  if i.opcode?.any Opcode.hasArg then
    Bytes.concat [Opcode.nameOf i.op, " ", Decimal.ofNat i.arg.toNat]
  else Opcode.nameOf i.op

end Instruction

end Minilang
