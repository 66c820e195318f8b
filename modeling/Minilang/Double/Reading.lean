import Minilang.Double.Rounding
import Minilang.Text.Decimal

/-!
# Reading floating-point numbers

A number is written with decimal digits, as in `-1_000.5e-3`, with hexadecimal digits after `0x`, as
in `0x1.8p3`, or as `inf`, `infinity` or `nan`.  Capital letters may stand for small ones.  A point
may stand anywhere among the digits, and an underscore between two of them.  The exponent after `e`
is a power of ten, and the one after `p`, which hexadecimal digits have to have, is a power of two.

What is read is the nearest double.  A number that is too large for a double cannot be read.
-/

namespace Minilang.Double

attribute [local instance (20000)] instPowNat

/-- The digits that a number is written with. -/
inductive Radix where
  | decimal
  | hexadecimal
  deriving DecidableEq, Repr

def lowerByte (b : UInt8) : UInt8 :=
  if 65 ≤ b && b ≤ 90 then b + 32 else b

variable (text : Bytes) (r : Radix)

def lowered : Bytes :=
  text.map lowerByte

namespace Radix

def base : Radix → Nat
  | .decimal => 10
  | .hexadecimal => 16

def mark : Radix → UInt8
  | .decimal => 101
  | .hexadecimal => 112

def exponentBase : Radix → Nat
  | .decimal => 10
  | .hexadecimal => 2

def digit? (r : Radix) (b : UInt8) : Option Nat :=
  if Decimal.isDigit b then some (Decimal.digitValue b)
  else if r = .hexadecimal ∧ 97 ≤ lowerByte b ∧ lowerByte b ≤ 102 then
    some ((lowerByte b).toNat - 87)
  else none

def isDigit (r : Radix) (b : UInt8) : Bool :=
  (r.digit? b).isSome

def value (r : Radix) (digits : Bytes) : Nat :=
  digits.foldl (fun n b => r.base * n + (r.digit? b).getD 0) 0

/-- Whether every underscore stands between two digits; `digit` tells whether a digit comes before
the text. -/
def groups (r : Radix) (digit : Bool) : Bytes → Bool
  | [] => true
  | 95 :: rest => digit && rest.head?.any r.isDigit && r.groups false rest
  | b :: rest => r.groups (r.isDigit b) rest

end Radix

/-- The number that the digits of an exponent denote.  Digits after the first five that count are
left out. -/
def exponentValue (digits : Bytes) : Nat :=
  digits.foldl (fun e b => if e < 10000 then 10 * e + Decimal.digitValue b else e) 0

def readExponent? : Option Int :=
  let read (digits : Bytes) : Option Int :=
    if digits ≠ [] ∧ digits.all Decimal.isDigit then some (exponentValue digits) else none
  match text with
  | 43 :: digits => read digits
  | 45 :: digits => (read digits).map fun e => -e
  | digits => read digits

/-- What follows the digits of a number: its exponent.  Only decimal digits can stand alone. -/
def readScale? : Bytes → Option Int
  | [] => if r = .decimal then some 0 else none
  | b :: rest => if lowerByte b = r.mark then readExponent? rest else none

/-- The digits of a number with an optional point among them, and what follows them.  The digits
after the point are counted. -/
def splitDigits (text : Bytes) : Bytes × Nat × Bytes :=
  let whole := text.takeWhile r.isDigit
  match text.dropWhile r.isDigit with
  | 46 :: rest =>
    let fraction := rest.takeWhile r.isDigit
    (whole ++ fraction, fraction.length, rest.dropWhile r.isDigit)
  | rest => (whole, 0, rest)

def readMagnitude? (text : Bytes) : Option Double :=
  let (digits, places, rest) := splitDigits r text
  match readScale? r rest with
  | none => none
  | some e =>
    if digits = [] then none
    else
      let x := ofRatio (r.value digits * r.exponentBase ^ e.toNat)
        (r.base ^ places * r.exponentBase ^ (-e).toNat)
      if x.isInfinite then none else some x

/-- Reads digits in which underscores may stand; `digit` tells whether an underscore may come
first. -/
def readGrouped? (digit : Bool) (text : Bytes) : Option Double :=
  if r.groups digit text then readMagnitude? r (text.filter (· ≠ 95)) else none

def readUnsigned? : Option Double :=
  if lowered text = "inf" ∨ lowered text = "infinity" then some infinity
  else match text with
    | 48 :: 120 :: rest | 48 :: 88 :: rest => readGrouped? .hexadecimal true rest
    | _ => readGrouped? .decimal false text

def read? : Option Double :=
  match text with
  | 43 :: rest => readUnsigned? rest
  | 45 :: rest => (readUnsigned? rest).map neg
  | _ => if lowered text = "nan" then some nan else readUnsigned? text

end Minilang.Double
