import Minilang.Bytecode.Program
import Minilang.Bytecode.Reader
import Minilang.Bytecode.Version

/-!
# Bytecode files

A file is a mark, the version of the format, the constants, the functions and the number of the
function that begins the program.  Lists and texts have their lengths in front.
-/

namespace Minilang.Bytecode

/-- How every file begins. -/
def mark : Bytes := [81, 66, 67, 0]

/-! ### Writing -/

/-- The constant that cannot be written. -/
structure EncodeError where
  text : Bytes
  kind : ValueKind

def EncodeError.message (e : EncodeError) : Bytes :=
  Bytes.concat ["cannot encode constant ", e.text, " of kind ", e.kind.text]

def putConst (h : Heap) : Value → Except EncodeError Bytes
  | .int n => .ok (0 :: putSigned n)
  | .float x => .ok (1 :: littleEndian 8 x.bits.toNat)
  | .bool b => .ok [2, if b then 1 else 0]
  | .string s => .ok (3 :: putText s)
  | .func name index => .ok (4 :: (putText name ++ putWord (Word.ofSigned index)))
  | v => .error ⟨h.text v, v.kind⟩

def putConsts (h : Heap) (done : List Bytes) : List Value → Except EncodeError Bytes
  | [] => .ok done.reverse.flatten
  | v :: vs =>
    match putConst h v with
    | .error e => .error e
    | .ok bytes => putConsts h (bytes :: done) vs

def putInstruction (i : Instruction) : Bytes :=
  i.op :: littleEndian 2 i.arg.toNat

def putPos (p : Pos) : Bytes :=
  [p.offset, p.line, p.col].flatMap fun n => putWord (Word.ofSigned n)

def putSpan (s : Span) : Bytes :=
  putPos s.first ++ putPos s.last

def putFunc (f : Func) : Bytes :=
  Bytes.concat [putText f.name, putWord (Word.ofSigned f.numParams),
    putWord (Word.ofSigned f.numLocals),
    putLength f.code.size, f.code.toList.flatMap putInstruction,
    putLength f.spans.size, f.spans.toList.flatMap putSpan]

/-- The file of a program. -/
def encode (p : Program) : Except EncodeError Bytes := do
  let consts ← putConsts p.heap [] p.consts.toList
  return Bytes.concat [mark, putText Version.current, putLength p.consts.size, consts,
    putLength p.funcs.size, p.funcs.toList.flatMap putFunc,
    putWord (Word.ofSigned p.entry)]

/-! ### Reading -/

/-- Why a file cannot be read. -/
inductive DecodeError where
  | notAFile
  | noVersion (e : ByteError)
  | version (e : Version.Error)
  | malformed (e : ByteError)
  | entryOutOfRange (entry : Int)

def DecodeError.message : DecodeError → Bytes
  | .notAFile => "not a quill bytecode file"
  | .noVersion e => Bytes.concat ["cannot read bytecode format version: ", e.message]
  | .version e => e.message
  | .malformed e => Bytes.concat ["cannot decode bytecode: ", e.message]
  | .entryOutOfRange entry =>
    Bytes.concat ["entry function ", Decimal.ofInt entry, " out of range"]

def readInt : Reader Int := do
  return Word.toSigned (← readWord)

def readConst : Reader Value := do
  match ← readByte with
  | 0 => return .int (← readSigned)
  | 1 => return .float ⟨(ofLittleEndian (← readBytes 8)).toUInt64⟩
  | 2 => return .bool ((← readByte) != 0)
  | 3 => return .string (← readText)
  | 4 =>
    let name ← readText
    return .func name (← readInt)
  | tag => throw (.unknownTag tag)

def readInstruction : Reader Instruction := do
  match ← readBytes 3 with
  | op :: arg => return ⟨op, (ofLittleEndian arg).toUInt16⟩
  | [] => throw .truncated

def readPos : Reader Pos := do
  let offset ← readInt
  let line ← readInt
  let col ← readInt
  return ⟨offset, line, col⟩

def readSpan : Reader Span := do
  let first ← readPos
  let last ← readPos
  return ⟨first, last⟩

def readFunc : Reader Func := do
  let name ← readText
  let numParams ← readInt
  let numLocals ← readInt
  let code ← readList readInstruction
  let spans ← readList readSpan
  return ⟨name, numParams, numLocals, code, spans⟩

def readProgram : Reader Program := do
  let consts ← readList readConst
  let funcs ← readList readFunc
  let entry ← readInt
  return ⟨consts, .empty, funcs, entry⟩

/-- Reads what follows the version in a file. -/
def decodeProgram (bytes : Bytes) : Except DecodeError Program :=
  match readProgram.run bytes with
  | .error e => .error (.malformed e)
  | .ok (p, _) =>
    if (p.funcs.size : Int) ≤ p.entry then .error (.entryOutOfRange p.entry) else .ok p

/-- Reads a file whose version passes `check`. -/
def decodeWith (check : Bytes → Except Version.Error Unit) (bytes : Bytes) :
    Except DecodeError Program :=
  if bytes.take mark.length ≠ mark then .error .notAFile
  else
    match readText.run (bytes.drop mark.length) with
    | .error e => .error (.noVersion e)
    | .ok (version, rest) =>
      match check version with
      | .error e => .error (.version e)
      | .ok () => decodeProgram rest

/-- The program in a file. -/
def decode (bytes : Bytes) : Except DecodeError Program :=
  decodeWith Version.check bytes

end Minilang.Bytecode
