/-!
# Integers in 64-bit words

Sizes, positions and indices are signed 64-bit integers.  A file stores them as unsigned words; the
upper half of the words stands for the negative integers.
-/

namespace Minilang

-- Powers are those of the core library, whatever other instances are in scope.
attribute [local instance (20000)] instPowNat

namespace Word

/-- The integer modulo 2⁶⁴. -/
def wrap (n : Int) : Int :=
  Int.bmod n (2 ^ (64 : Nat))

/-- The signed integer with these bits. -/
def toSigned (w : UInt64) : Int :=
  w.toInt64.toInt

/-- The bits of a signed integer. -/
def ofSigned (n : Int) : UInt64 :=
  (Int64.ofInt n).toUInt64

end Word

end Minilang
