import Minilang.Double.Text
import Mathlib.Data.UInt
import Mathlib.Tactic.Common

/-!
# The payload of a NaN

The bits of a NaN hold a payload that no operation of the language shows: every NaN has the same
text, compares alike and makes a NaN of every sum, product, quotient and rest.  `canon` replaces a
NaN by one chosen NaN, and the operations do not tell a number from its `canon`.
-/

namespace Minilang.Double

variable (x : Double)

/-- The number with the payload of a NaN forgotten. -/
def canon : Double :=
  if x.isNaN then nan else x

variable {x : Double}

lemma canon_of_isNaN (h : x.isNaN = true) : x.canon = nan := by
  rw [canon, if_pos h]

lemma canon_of_not_isNaN (h : x.isNaN = false) : x.canon = x := by
  rw [canon, if_neg (by simp [h])]

lemma isNaN_nan : nan.isNaN = true := by decide

@[simp]
lemma isNaN_canon : x.canon.isNaN = x.isNaN := by
  cases h : x.isNaN with
  | true => rw [canon_of_isNaN h, isNaN_nan]
  | false => rw [canon_of_not_isNaN h, h]

/-! ### The hardware number -/

open Float.Model Float.Model.UnpackedFloat

lemma toNat_of_isNaN (h : x.isNaN = true) : 0x7FF0000000000000 < x.bits.toNat % 2 ^ 63 := by
  simp only [isNaN, abs, UInt64.lt_iff_toNat_lt, UInt64.toNat_and] at h
  have hmask : (9223372036854775807 : UInt64).toNat = 2 ^ 63 - 1 := by decide
  rw [hmask, Nat.and_two_pow_sub_one_eq_mod] at h
  simpa using h

lemma unpack_of_isNaN (h : x.isNaN = true) :
    unpack Format.binary64 x.bits.toBitVec = .notANumber := by
  have hbits := toNat_of_isNaN h
  have hexponent : @unpackExponent Format.binary64 x.bits.toBitVec = -1#_ := by
    apply BitVec.eq_of_toNat_eq
    simp [unpackExponent]
    omega
  have hmantissa : @unpackMantissa Format.binary64 x.bits.toBitVec ≠ 0#_ := by
    intro h0
    have h1 := congrArg BitVec.toNat h0
    simp [unpackMantissa] at h1
    omega
  unfold UnpackedFloat.unpack
  rw [if_pos hexponent, if_neg hmantissa]

@[simp]
lemma toFloat_canon : x.canon.toFloat = x.toFloat := by
  cases h : x.isNaN with
  | false => rw [canon_of_not_isNaN h]
  | true =>
    rw [canon_of_isNaN h]
    unfold toFloat Float.ofBits Float.Model.ofBits
    rw [unpack_of_isNaN h, unpack_of_isNaN isNaN_nan]

/-! ### The operations -/

@[simp]
lemma add_canon (x y : Double) : x.canon.add y.canon = x.add y := by
  unfold add; rw [toFloat_canon, toFloat_canon]

@[simp]
lemma sub_canon (x y : Double) : x.canon.sub y.canon = x.sub y := by
  unfold sub; rw [toFloat_canon, toFloat_canon]

@[simp]
lemma mul_canon (x y : Double) : x.canon.mul y.canon = x.mul y := by
  unfold mul; rw [toFloat_canon, toFloat_canon]

@[simp]
lemma div_canon (x y : Double) : x.canon.div y.canon = x.div y := by
  unfold div; rw [toFloat_canon, toFloat_canon]

@[simp]
lemma eq_canon_left (x y : Double) : x.canon.eq y = x.eq y := by
  unfold eq; rw [toFloat_canon]

@[simp]
lemma eq_canon_right (x y : Double) : x.eq y.canon = x.eq y := by
  unfold eq; rw [toFloat_canon]

@[simp]
lemma lt_canon (x y : Double) : x.canon.lt y.canon = x.lt y := by
  unfold lt; rw [toFloat_canon, toFloat_canon]

@[simp]
lemma le_canon (x y : Double) : x.canon.le y.canon = x.le y := by
  unfold le; rw [toFloat_canon, toFloat_canon]

@[simp]
lemma mod_canon (x y : Double) : (x.canon.mod y.canon).canon = (x.mod y).canon := by
  cases hx : x.isNaN with
  | true => simp [mod, hx]
  | false =>
    cases hy : y.isNaN with
    | true => simp [mod, hy]
    | false => rw [canon_of_not_isNaN hx, canon_of_not_isNaN hy]

lemma isNaN_neg : x.neg.isNaN = x.isNaN := by
  have h : x.neg.abs = x.abs := by
    unfold neg abs
    congr 1
    have hmask : UInt64.toBitVec 9223372036854775808 &&& UInt64.toBitVec 9223372036854775807 =
        0#64 := by decide
    apply UInt64.toBitVec_inj.mp
    simp only [UInt64.toBitVec_and, UInt64.toBitVec_xor]
    ext i hi
    have hbit := congrArg (·[i]) hmask
    grind
  unfold isNaN; rw [h]

@[simp]
lemma neg_canon : x.canon.neg.canon = x.neg.canon := by
  cases h : x.isNaN with
  | false => rw [canon_of_not_isNaN h]
  | true =>
    rw [canon_of_isNaN h, canon_of_isNaN (by rw [isNaN_neg, isNaN_nan]),
      canon_of_isNaN (by rw [isNaN_neg, h])]

@[simp]
lemma isZero_canon : x.canon.isZero = x.isZero := by
  cases h : x.isNaN with
  | false => rw [canon_of_not_isNaN h]
  | true =>
    have hx : x.isZero = false := by
      simp only [isNaN] at h
      simp only [isZero, decide_eq_false_iff_not]
      intro h0
      rw [h0] at h
      exact absurd h (by decide)
    rw [canon_of_isNaN h, hx]
    decide

@[simp]
lemma text_canon : x.canon.text = x.text := by
  cases h : x.isNaN with
  | false => rw [canon_of_not_isNaN h]
  | true => rw [canon_of_isNaN h, text, text, if_pos isNaN_nan, if_pos h]

@[simp]
lemma canon_canon : x.canon.canon = x.canon := by
  cases h : x.isNaN with
  | false => rw [canon_of_not_isNaN h, canon_of_not_isNaN h]
  | true => rw [canon_of_isNaN h, canon_of_isNaN isNaN_nan]

end Minilang.Double
