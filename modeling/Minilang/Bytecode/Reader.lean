import Minilang.Text.Decimal
import Minilang.Word

/-!
# Reading and writing bytes

Numbers are written in groups of seven bits, the lowest first; every byte but the last has its high
bit set.  A signed number is written as twice itself, or as twice its complement and one if it is
negative.
-/

namespace Minilang.Bytecode

attribute [local instance (20000)] instPowNat

/-! ### Writing -/

def groups : (room : Nat) → Nat → Bytes
  | 0, _ => []
  | room + 1, n =>
    if n < 128 then [n.toUInt8] else (n % 128 + 128).toUInt8 :: groups room (n / 128)

def maxGroups : Nat := 10

def putWord (w : UInt64) : Bytes :=
  groups maxGroups w.toNat

def putLength (n : Nat) : Bytes :=
  putWord n.toUInt64

def putSigned (n : Int64) : Bytes :=
  let twice := n.toUInt64 <<< 1
  putWord (if n < 0 then ~~~twice else twice)

def putText (s : Bytes) : Bytes :=
  putLength s.length ++ s

def littleEndian : (size : Nat) → Nat → Bytes
  | 0, _ => []
  | size + 1, n => (n % 256).toUInt8 :: littleEndian size (n / 256)

/-! ### Reading -/

/-- What can go wrong while reading. -/
inductive ByteError where
  /-- Nothing is left at the start of an item. -/
  | endOfFile
  /-- The bytes end within an item. -/
  | truncated
  | overflow
  | invalidLength (n : Nat)
  | unknownTag (tag : UInt8)
  deriving DecidableEq, Repr

def ByteError.message : ByteError → Bytes
  | .endOfFile => "EOF"
  | .truncated => "unexpected EOF"
  | .overflow => "binary: varint overflows a 64-bit integer"
  | .invalidLength n => Bytes.concat ["invalid length ", Decimal.ofNat n]
  | .unknownTag tag => Bytes.concat ["unknown constant tag ", Decimal.ofNat tag.toNat]

/-- Reads from the front of some bytes. -/
abbrev Reader := StateT Bytes (Except ByteError)

/-- Reads the groups of a number; `shift` is the weight of the next group, and at most `room` groups
may follow.  The last possible group has a single bit. -/
def readGroups : (room : Nat) → (shift value : Nat) → Reader Nat
  | 0, _, _ => throw .overflow
  | room + 1, shift, value => do
    match ← get with
    | [] => throw (if room + 1 = maxGroups then .endOfFile else .truncated)
    | b :: rest =>
      set rest
      if b < 128 then
        if room = 0 ∧ 1 < b then throw .overflow
        else return value + b.toNat * 2 ^ shift
      else readGroups room (shift + 7) (value + (b.toNat - 128) * 2 ^ shift)

def readWord : Reader UInt64 := do
  return (← readGroups maxGroups 0 0).toUInt64

def readSigned : Reader Int64 := do
  let w ← readWord
  let half := w >>> 1
  return (if w &&& 1 = 0 then half else ~~~half).toInt64

def readBytes (n : Nat) : Reader Bytes := do
  let bytes ← get
  let front := bytes.take n
  if front.length = n then
    set (bytes.drop n)
    return front
  else throw (if front.isEmpty then .endOfFile else .truncated)

def readByte : Reader UInt8 := do
  match ← get with
  | [] => throw .endOfFile
  | b :: rest =>
    set rest
    return b

def maxItems : Nat := 2 ^ (24 : Nat)

def readLength : Reader Nat := do
  let n := (← readWord).toNat
  if maxItems < n then throw (.invalidLength n) else return n

def readText : Reader Bytes := do
  readBytes (← readLength)

def ofLittleEndian (bytes : Bytes) : Nat :=
  bytes.foldr (fun b n => b.toNat + 256 * n) 0

def readItems {α : Type} (item : Reader α) : (n : Nat) → (done : Array α) → Reader (Array α)
  | 0, done => return done
  | n + 1, done => do
    let x ← item
    readItems item n (done.push x)

def readList {α : Type} (item : Reader α) : Reader (Array α) := do
  readItems item (← readLength) #[]

end Minilang.Bytecode
