import Minilang.Double.Basic

/-!
# Shortest decimal digits

The fewest decimal digits that read back as a given double.  A double of magnitude `m * 2 ^ q` is
what every real number in an interval around it is rounded to; the ends of the interval belong to it
when `m` is even.  For one digit, two digits, and so on, the two neighbours of the number on the
decimal grid of that many digits are tried: the first grid with a neighbour inside the interval
wins, the nearer of two such neighbours is taken, and the even one of two equally near ones.

All comparisons are exact, in natural numbers.
-/

namespace Minilang.Double

attribute [local instance (20000)] instPowNat

/-- A decimal number `significand * 10 ^ exponent`. -/
structure Scientific where
  significand : Nat
  exponent : Int
  deriving DecidableEq, Repr

namespace Shortest

/-- The magnitude `m * 2 ^ q` beside the grid of multiples of `10 ^ g`, both scaled to whole
numbers: a quarter of the significand's unit is `quarter`, and the grid's unit is `unit`. -/
structure Scale where
  quarter : Nat
  unit : Nat

def scale (q g : Int) : Scale where
  quarter := 2 ^ (q - 2).toNat * 10 ^ (-g).toNat
  unit := 10 ^ g.toNat * 2 ^ (2 - q).toNat

variable (m : Nat)

def reaches (q g : Int) : Bool :=
  let s := scale q g
  s.unit ≤ 4 * m * s.quarter

def climb (m : Nat) (q : Int) : (steps : Nat) → Int → Int
  | 0, g => g
  | k + 1, g => if reaches m q (g + 1) then climb m q k (g + 1) else g

def leading (q : Int) : Int :=
  climb m q 3 (Int.fdiv ((Nat.log2 m + q) * 30103) 100000 - 1)

/-- Whether the multiple `c` of the grid's unit is in the interval of `m * 2 ^ q`. -/
def inside (q : Int) (s : Scale) (c : Nat) : Bool :=
  let value := 4 * m * s.quarter
  let low := value - (if m = 2 ^ (52 : Nat) ∧ q ≠ -1074 then 1 else 2) * s.quarter
  let high := value + 2 * s.quarter
  if m % 2 = 0 then low ≤ c * s.unit && c * s.unit ≤ high
  else low < c * s.unit && c * s.unit < high

/-- The neighbour of `m * 2 ^ q` on the grid of `10 ^ g` that reads back as that number, if any. -/
def onGrid? (q g : Int) : Option Nat :=
  let s := scale q g
  let value := 4 * m * s.quarter
  let d := value / s.unit
  let below := value - d * s.unit
  let above := (d + 1) * s.unit - value
  if inside m q s d && inside m q s (d + 1) then
    some (if below < above || (below = above && d % 2 = 0) then d else d + 1)
  else if inside m q s d then some d
  else if inside m q s (d + 1) then some (d + 1)
  else none

/-- A decimal number without zeros at the end of its digits; at most `steps` zeros are removed. -/
def strip : (steps : Nat) → Scientific → Scientific
  | 0, x => x
  | k + 1, x =>
    if x.significand % 10 = 0 then strip k ⟨x.significand / 10, x.exponent + 1⟩ else x

end Shortest

/-- The shortest decimal that reads back as the magnitude of a finite number other than zero. -/
def shortest (x : Double) : Scientific :=
  let (m, q) := x.parts
  let top := Shortest.leading m q
  let found := (List.range 17).findSome? fun (n : Nat) =>
    (Shortest.onGrid? m q (top - n)).map (Scientific.mk · (top - n))
  Shortest.strip 17 (found.getD ⟨0, 0⟩)

end Minilang.Double
