import Minilang.Text.Bytes

/-!
# Whole numbers in decimal

The decimal text of a whole number, and its reading.  `decimal` writes no leading zero, `signed`
puts a minus sign in front of a negative number, and `readNat?` takes digits only.
-/

namespace Minilang.Decimal

def digit (d : Nat) : UInt8 :=
  UInt8.ofNat (48 + d % 10)

def isDigit (b : UInt8) : Bool :=
  48 ≤ b && b ≤ 57

def digitValue (b : UInt8) : Nat :=
  b.toNat - 48

def ofNat (n : Nat) : Bytes :=
  if n < 10 then [digit n] else ofNat (n / 10) ++ [digit n]
termination_by n
decreasing_by omega

def ofInt : Int → Bytes
  | .ofNat n => ofNat n
  | .negSucc n => 45 :: ofNat (n + 1)

/-- The decimal text of an integer in a field of at least the given width.  Zeros go between the
sign and the digits, and the sign counts as part of the width. -/
def padded (width : Nat) (n : Int) : Bytes :=
  let digits := ofNat n.natAbs
  if n < 0 then 45 :: (Bytes.repeated (width - 1 - digits.length) 48 ++ digits)
  else Bytes.repeated (width - digits.length) 48 ++ digits

def value (digits : Bytes) : Nat :=
  digits.foldl (fun n b => 10 * n + digitValue b) 0

def readNat? (text : Bytes) : Option Nat :=
  if text ≠ [] ∧ text.all isDigit then some (value text) else none

def inWord (n : Int) : Bool :=
  -9223372036854775808 ≤ n && n ≤ 9223372036854775807

def readInt? (text : Bytes) : Option Int :=
  let read : Option Int := match text with
    | 43 :: rest => (readNat? rest).map Int.ofNat
    | 45 :: rest => (readNat? rest).map fun n => -(n : Int)
    | _ => (readNat? text).map Int.ofNat
  read.filter inWord

end Minilang.Decimal
