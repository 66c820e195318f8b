import Minilang.Word

/-!
# Floating-point numbers

A double-precision number is kept as its 64 bits, so that every bit pattern, the payload of a NaN
included, survives being stored in a file and read back.  Arithmetic is that of IEEE 754 with
rounding to the nearest even number; the remainder is exact and has the sign of the dividend.
-/

namespace Minilang

attribute [local instance (20000)] instPowNat

/-- A double-precision number, given by its bits. -/
structure Double where
  bits : UInt64
  deriving DecidableEq, Hashable, Repr, Inhabited

namespace Double

variable (x : Double)

def toFloat : Float :=
  Float.ofBits x.bits

def ofFloat (f : Float) : Double :=
  ⟨f.toBits⟩

def zero : Double := ⟨0⟩

def nan : Double := ⟨0x7FF8000000000001⟩

def infinity : Double := ⟨0x7FF0000000000000⟩

def isNegative : Bool :=
  0x8000000000000000 ≤ x.bits

def abs : Double :=
  ⟨x.bits &&& 0x7FFFFFFFFFFFFFFF⟩

def isNaN : Bool :=
  0x7FF0000000000000 < x.abs.bits

def isInfinite : Bool :=
  x.abs.bits = 0x7FF0000000000000

def isZero : Bool :=
  x.abs.bits = 0

/-! ### Arithmetic -/
variable (x y : Double)

def add : Double := ofFloat (x.toFloat + y.toFloat)

def sub : Double := ofFloat (x.toFloat - y.toFloat)

def mul : Double := ofFloat (x.toFloat * y.toFloat)

def div : Double := ofFloat (x.toFloat / y.toFloat)

def neg : Double := ⟨x.bits ^^^ 0x8000000000000000⟩

def ofInt (n : Int64) : Double := ofFloat n.toFloat

def eq : Bool := x.toFloat == y.toFloat

def lt : Bool := x.toFloat < y.toFloat

def le : Bool := x.toFloat ≤ y.toFloat

/-! ### The exact value -/

/-- The significand `m` and the exponent `q` of a finite number of magnitude `m * 2 ^ q`. -/
def parts : Nat × Int :=
  let n := x.abs.bits.toNat
  let e : Nat := n / 2 ^ (52 : Nat)
  if e = 0 then (n, -1074) else (n % 2 ^ (52 : Nat) + 2 ^ (52 : Nat), (e : Int) - 1075)

/-- The number of magnitude `m * 2 ^ q`, for a product that is the value of some double. -/
def ofParts (negative : Bool) (m : Nat) (q : Int) : Double :=
  let size : Int := if m = 0 then 0 else Nat.log2 m + 1
  let e := max (q + size - 53) (-1074)
  let m' := if e ≤ q then m * 2 ^ (q - e).toNat else m / 2 ^ (e - q).toNat
  let n :=
    if m' < 2 ^ (52 : Nat) then m' else (e + 1075).toNat * 2 ^ (52 : Nat) + (m' - 2 ^ (52 : Nat))
  ⟨UInt64.ofNat n ||| (if negative then 0x8000000000000000 else 0)⟩

/-- The remainder of a division whose quotient is cut to a whole number.  It is exact and has the
sign of the dividend. -/
def mod : Double :=
  if x.isNaN || y.isNaN || x.isInfinite || y.isZero then nan
  else if y.isInfinite then x
  else
    let (mx, qx) := x.parts
    let (my, qy) := y.parts
    let q := min qx qy
    ofParts x.isNegative ((mx * 2 ^ (qx - q).toNat) % (my * 2 ^ (qy - q).toNat)) q

end Double

end Minilang
