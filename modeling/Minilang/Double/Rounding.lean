import Minilang.Double.Basic

/-!
# Rounding to a double

The double nearest to a ratio of natural numbers.  Of two equally near doubles the one with the even
significand is taken, and a ratio that is nearer to `2 ^ 1024` than to any finite double becomes
infinity.  All steps are exact, in natural numbers.
-/

namespace Minilang.Double

attribute [local instance (20000)] instPowNat

variable (n d : Nat)

/-- The whole number nearest to `n / d`, and the even one of two equally near ones. -/
def roundDiv : Nat :=
  let q := n / d
  let r := n % d
  if 2 * r < d then q else if d < 2 * r then q + 1 else q + q % 2

def scaled (q : Int) : Nat × Nat :=
  (n * 2 ^ (-q).toNat, d * 2 ^ q.toNat)

/-- The exponent of the last bit of the doubles around `n / d`: the least one for which the
significand has at most 53 bits. -/
def lastBit : Int :=
  let q := max ((Nat.log2 n : Int) - Nat.log2 d - 53) (-1074)
  let (n, d) := scaled n d q
  if n / d < 2 ^ (53 : Nat) then q else q + 1

def ofRatio : Double :=
  let q := lastBit n d
  let (n, d) := scaled n d q
  let m := roundDiv n d
  if 971 < q ∨ q = 971 ∧ 2 ^ (53 : Nat) ≤ m then infinity else ofParts false m q

end Minilang.Double
