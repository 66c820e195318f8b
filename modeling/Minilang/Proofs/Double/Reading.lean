import Minilang.Double.Reading
import Minilang.Proofs.Double.Printing

/-!
# The text of a number is read back

Rounding a ratio gives the double in whose interval the ratio lies (`ofRatio_eq`).  A numeral is
read as the rounding of the number that it denotes (`Numeral.read?_eq`), and the text of a finite
number is a numeral that denotes its shortest decimal.  So the text of a finite number is read as
the number itself.
-/

namespace Minilang.Double

open List

/-! ### The last bit of a ratio -/

variable {n d : Nat}

section Ratio

lemma scaled_eq (hd : 0 < d) (q : Int) :
    ((scaled n d q).1 : ℚ) / (scaled n d q).2 = n / d / 2 ^ q := by
  have hpow := Shortest.zpow_mul_pow_toNat (b := 2) (by norm_num) q
  simp only [scaled]
  push_cast
  rw [← hpow]
  field_simp

lemma scaled_snd_pos (hd : 0 < d) (q : Int) : 0 < (scaled n d q).2 := by
  simp only [scaled]
  positivity

lemma zpow_log2_le (hn : 0 < n) : (2 : ℚ) ^ (Nat.log2 n : Int) ≤ n := by
  exact_mod_cast Nat.log2_self_le hn.ne'

lemma lt_zpow_log2 : (n : ℚ) < 2 ^ ((Nat.log2 n : Int) + 1) := by
  have h : (n : ℚ) < 2 ^ (Nat.log2 n + 1) := by exact_mod_cast Nat.lt_log2_self
  rwa [← zpow_natCast, Nat.cast_add] at h

lemma ratio_bounds (hn : 0 < n) (hd : 0 < d) :
    (2 : ℚ) ^ ((Nat.log2 n : Int) - Nat.log2 d - 1) < n / d ∧
      (n / d : ℚ) < 2 ^ ((Nat.log2 n : Int) - Nat.log2 d + 1) := by
  have hd' : (0 : ℚ) < d := by exact_mod_cast hd
  constructor
  · rw [lt_div_iff₀ hd']
    calc (2 : ℚ) ^ ((Nat.log2 n : Int) - Nat.log2 d - 1) * d
        < 2 ^ ((Nat.log2 n : Int) - Nat.log2 d - 1) * 2 ^ ((Nat.log2 d : Int) + 1) := by
          gcongr
          exact lt_zpow_log2
      _ = 2 ^ (Nat.log2 n : Int) := by
          rw [← zpow_add₀ (by norm_num)]
          congr 1
          ring
      _ ≤ n := zpow_log2_le hn
  · rw [div_lt_iff₀ hd']
    calc (n : ℚ) < 2 ^ ((Nat.log2 n : Int) + 1) := lt_zpow_log2
      _ = 2 ^ ((Nat.log2 n : Int) - Nat.log2 d + 1) * 2 ^ (Nat.log2 d : Int) := by
          rw [← zpow_add₀ (by norm_num)]
          congr 1
          ring
      _ ≤ 2 ^ ((Nat.log2 n : Int) - Nat.log2 d + 1) * d := by
          gcongr
          exact zpow_log2_le hd

/-- What the exponent `q` of the last bit is for a positive number `y`: the significand has at most
53 bits, and 53 bits unless the exponent is the least one. -/
structure IsLastBit (y : ℚ) (q : Int) : Prop where
  least : -1074 ≤ q
  lt : y / 2 ^ q < 2 ^ 53
  le : q = -1074 ∨ 2 ^ 52 ≤ y / 2 ^ q

lemma isLastBit_lastBit (hn : 0 < n) (hd : 0 < d) : IsLastBit (n / d) (lastBit n d) := by
  obtain ⟨hlow, hhigh⟩ := ratio_bounds hn hd
  set q := max ((Nat.log2 n : Int) - Nat.log2 d - 53) (-1074) with hq
  have hunit : (0 : ℚ) < 2 ^ q := by positivity
  have hdiv : (scaled n d q).1 / (scaled n d q).2 < 2 ^ 53 ↔ (n / d / 2 ^ q : ℚ) < 2 ^ 53 := by
    have hpos : (0 : ℚ) < (scaled n d q).2 := by exact_mod_cast scaled_snd_pos hd q
    rw [Nat.div_lt_iff_lt_mul (scaled_snd_pos hd q), ← scaled_eq hd q, div_lt_iff₀ hpos]
    exact_mod_cast Iff.rfl
  have htop : (n / d / 2 ^ q : ℚ) < 2 ^ 54 := by
    rw [div_lt_iff₀ hunit]
    calc (n / d : ℚ) < 2 ^ ((Nat.log2 n : Int) - Nat.log2 d + 1) := hhigh
      _ ≤ 2 ^ (54 + q) := zpow_le_zpow_right₀ (by norm_num) (by omega)
      _ = 2 ^ 54 * 2 ^ q := by
          rw [zpow_add₀ (by norm_num)]
          norm_num
  by_cases hfit : (n / d / 2 ^ q : ℚ) < 2 ^ 53
  · have hlast : lastBit n d = q := by
      simp only [lastBit]
      rw [if_pos (hdiv.mpr hfit)]
    rw [hlast]
    refine ⟨le_max_right _ _, hfit, ?_⟩
    by_cases hleast : q = -1074
    · exact .inl hleast
    · right
      rw [le_div_iff₀ hunit]
      calc (2 : ℚ) ^ 52 * 2 ^ q = 2 ^ (52 + q) := by
            rw [zpow_add₀ (by norm_num)]
            norm_num
        _ ≤ 2 ^ ((Nat.log2 n : Int) - Nat.log2 d - 1) :=
            zpow_le_zpow_right₀ (by norm_num) (by omega)
        _ ≤ n / d := hlow.le
  · have hlast : lastBit n d = q + 1 := by
      simp only [lastBit]
      rw [if_neg (mt hdiv.mp hfit)]
    have hhalf : (n / d / 2 ^ (q + 1) : ℚ) = n / d / 2 ^ q / 2 := by
      rw [zpow_add_one₀ (by norm_num)]
      ring
    rw [hlast]
    refine ⟨by omega, ?_, .inr ?_⟩ <;> rw [hhalf] <;> linarith

end Ratio

/-! ### Rounding to a whole number -/

lemma roundDiv_spec (hd : 0 < d) :
    ((roundDiv n d : ℚ) - 1 / 2 ≤ n / d ∧ (n / d : ℚ) ≤ roundDiv n d + 1 / 2) ∧
      (roundDiv n d % 2 = 1 →
        (roundDiv n d : ℚ) - 1 / 2 < n / d ∧ (n / d : ℚ) < roundDiv n d + 1 / 2) := by
  have hd' : (0 : ℚ) < d := by exact_mod_cast hd
  have hdecomp : d * (n / d) + n % d = n := Nat.div_add_mod n d
  have hlt : n % d < d := Nat.mod_lt n hd
  generalize hq : n / d = q at hdecomp
  generalize hr : n % d = r at hdecomp hlt
  have hvalue : (n / d : ℚ) = q + r / d := by
    rw [← hdecomp]
    push_cast
    field_simp
  have hpos : (0 : ℚ) ≤ r / d := by positivity
  have hone : (r / d : ℚ) < 1 := by
    rw [div_lt_one hd']
    exact_mod_cast hlt
  simp only [roundDiv, hq, hr]
  split_ifs with hbelow habove
  · have hhalf : (r / d : ℚ) < 1 / 2 := by
      rw [div_lt_iff₀ hd']
      have : (2 * r : ℚ) < d := by exact_mod_cast hbelow
      linarith
    exact ⟨⟨by linarith, by linarith⟩, fun _ => ⟨by linarith, by linarith⟩⟩
  · have hhalf : (1 / 2 : ℚ) < r / d := by
      rw [lt_div_iff₀ hd']
      have : (d : ℚ) < 2 * r := by exact_mod_cast habove
      linarith
    push_cast
    exact ⟨⟨by linarith, by linarith⟩, fun _ => ⟨by linarith, by linarith⟩⟩
  · have hhalf : (r / d : ℚ) = 1 / 2 := by
      rw [div_eq_iff hd'.ne']
      have : (2 * r : ℚ) = d := by exact_mod_cast (by omega : 2 * r = d)
      linarith
    rcases Nat.mod_two_eq_zero_or_one q with h | h <;> rw [h] <;> push_cast
    · exact ⟨⟨by linarith, by linarith⟩, fun hodd => by omega⟩
    · exact ⟨⟨by linarith, by linarith⟩, fun hodd => by omega⟩

/-! ### The number of a magnitude -/

variable {m : Nat} {q : Int}

/-- The number of the magnitude `m * 2 ^ q` in the order of all magnitudes.  A significand below
`2 ^ 52` belongs to the least exponent. -/
def magnitudeNumber (m : Nat) (q : Int) : Nat :=
  if m < 2 ^ 52 then m else (q + 1075).toNat * 2 ^ 52 + (m - 2 ^ 52)

lemma ofParts_eq (hq : -1074 ≤ q) (hm : m ≤ 2 ^ 53) (hleast : q = -1074 ∨ 2 ^ 52 ≤ m) :
    ofParts false m q = ⟨UInt64.ofNat (magnitudeNumber m q)⟩ := by
  have hlog : ∀ k, 2 ^ k ≤ m → m < 2 ^ (k + 1) → Nat.log2 m = k := fun k hlow hhigh =>
    (Nat.log2_eq_iff (pos_of_ne_zero (by positivity) |>.trans_le hlow).ne').mpr ⟨hlow, hhigh⟩
  simp only [ofParts, magnitudeNumber, Bool.false_eq_true, if_false, UInt64.or_zero]
  rcases lt_or_ge m (2 ^ 52) with hsmall | hlarge
  · -- A significand with fewer bits stays as it is.
    have hsize : (if m = 0 then (0 : Int) else Nat.log2 m + 1) ≤ 52 := by
      split_ifs with hzero
      · norm_num
      · have := (Nat.log2_lt hzero).mpr hsmall
        omega
    have hmax : max (q + (if m = 0 then (0 : Int) else Nat.log2 m + 1) - 53) (-1074) = q := by omega
    rw [hmax, if_pos le_rfl, sub_self, Int.toNat_zero, pow_zero, mul_one]
  · have hzero : m ≠ 0 := by omega
    rw [if_neg hzero, if_neg (by omega : ¬m < 2 ^ 52)]
    rcases lt_or_ge m (2 ^ 53) with hlt | hge
    · have hmax : max (q + ((Nat.log2 m : Int) + 1) - 53) (-1074) = q := by
        rw [hlog 52 hlarge hlt]
        omega
      rw [hmax, if_pos le_rfl, sub_self, Int.toNat_zero, pow_zero, mul_one, if_neg (by omega)]
    · -- The significand was rounded up to the next power of two.
      obtain rfl : m = 2 ^ 53 := by omega
      have hmax : max (q + ((Nat.log2 (2 ^ 53) : Int) + 1) - 53) (-1074) = q + 1 := by
        rw [hlog 53 le_rfl (by norm_num)]
        omega
      have hhalf : 2 ^ 53 / 2 ^ (q + 1 - q).toNat = 2 ^ 52 := by
        norm_num
      have hnumber : (q + 1 + 1075).toNat * 2 ^ 52 + (2 ^ 52 - 2 ^ 52) =
          (q + 1075).toNat * 2 ^ 52 + (2 ^ 53 - 2 ^ 52) := by omega
      rw [hmax, if_neg (by omega : ¬q + 1 ≤ q), hhalf, if_neg (lt_irrefl _), hnumber]

lemma partsOf_magnitudeNumber (hq : -1074 ≤ q) (hm : m < 2 ^ 53)
    (hleast : q = -1074 ∨ 2 ^ 52 ≤ m) : partsOf (magnitudeNumber m q) = (m, q) := by
  rw [magnitudeNumber]
  split_ifs with hsmall
  · rw [partsOf_of_lt hsmall, hleast.resolve_right (by omega)]
  · have hpos : 0 < (q + 1075).toNat := by omega
    have hle : 2 ^ 52 ≤ (q + 1075).toNat * 2 ^ 52 + (m - 2 ^ 52) := by omega
    rw [partsOf_of_le hle]
    refine Prod.ext ?_ ?_ <;> simp only <;> omega

lemma partsOf_magnitudeNumber_top (hq : -1074 ≤ q) :
    partsOf (magnitudeNumber (2 ^ 53) q) = (2 ^ 52, q + 1) := by
  have hsame : magnitudeNumber (2 ^ 53) q = magnitudeNumber (2 ^ 52) (q + 1) := by
    rw [magnitudeNumber, magnitudeNumber, if_neg (by norm_num), if_neg (by norm_num)]
    omega
  rw [hsame, partsOf_magnitudeNumber (by omega) (by norm_num) (.inr le_rfl)]

/-! ### Rounding a ratio -/

variable {k : Nat}

lemma lowEnd_eq (m : Nat) (q : Int) :
    lowEnd (m, q) = (m - if m = 2 ^ 52 ∧ q ≠ -1074 then 1 / 4 else 1 / 2) * 2 ^ q := by
  rw [lowEnd, zpow_eq_quarters q]
  split_ifs <;> ring

lemma highEnd_eq (m : Nat) (q : Int) : highEnd (m, q) = (m + 1 / 2) * 2 ^ q := by
  rw [highEnd, zpow_eq_quarters q]
  ring

section Rounding

/-- The number of the magnitude that a ratio is rounded to, infinity included. -/
def roundedNumber (n d : Nat) : Nat :=
  let q := lastBit n d
  magnitudeNumber (roundDiv (scaled n d q).1 (scaled n d q).2) q

lemma significand_bounds (hn : 0 < n) (hd : 0 < d) :
    let q := lastBit n d
    let m := roundDiv (scaled n d q).1 (scaled n d q).2
    m ≤ 2 ^ 53 ∧ (q = -1074 ∨ 2 ^ 52 ≤ m) := by
  intro q m
  obtain ⟨-, hlt, hle⟩ := isLastBit_lastBit hn hd
  obtain ⟨⟨hlow, hhigh⟩, -⟩ := roundDiv_spec (scaled_snd_pos (n := n) hd q)
  rw [scaled_eq hd] at hlow hhigh
  constructor
  · have h : (m : ℚ) < 2 ^ 53 + 1 := by linarith
    exact Nat.lt_succ_iff.mp (by exact_mod_cast h)
  · refine hle.imp_right fun hle => ?_
    have h : (2 ^ 52 : ℚ) < m + 1 := by linarith
    exact Nat.lt_succ_iff.mp (by exact_mod_cast h)

/-- **A ratio lies in the interval of the magnitude that it is rounded to.** -/
theorem roundsTo_roundedNumber (hn : 0 < n) (hd : 0 < d) :
    RoundsTo (partsOf (roundedNumber n d)) (n / d) := by
  obtain ⟨hleast, hlt, hle⟩ := isLastBit_lastBit hn hd
  obtain ⟨hm, hsize⟩ := significand_bounds hn hd
  obtain ⟨⟨hlow, hhigh⟩, hodd⟩ := roundDiv_spec (scaled_snd_pos (n := n) hd (lastBit n d))
  rw [scaled_eq hd] at hlow hhigh hodd
  simp only [roundedNumber]
  generalize lastBit n d = q at *
  generalize roundDiv (scaled n d q).1 (scaled n d q).2 = m at *
  have hunit : (0 : ℚ) < 2 ^ q := by positivity
  rcases hm.lt_or_eq with hm | rfl
  · rw [partsOf_magnitudeNumber hleast hm hsize]
    refine ⟨?_, ?_, fun hmod => ?_⟩
    · rw [lowEnd_eq, ← le_div_iff₀ hunit]
      split_ifs with htop
      · have := hle.resolve_left htop.2
        rw [htop.1]
        linarith
      · exact hlow
    · rwa [highEnd_eq, ← div_le_iff₀ hunit]
    · rw [lowEnd_eq, if_neg (by rintro ⟨rfl, -⟩; omega), highEnd_eq, ← lt_div_iff₀ hunit,
        ← div_lt_iff₀ hunit]
      exact hodd hmod
  · -- The significand was rounded up to the next power of two.
    rw [partsOf_magnitudeNumber_top hleast]
    have hdouble : (2 : ℚ) ^ (q + 1) = 2 * 2 ^ q := by
      rw [zpow_add_one₀ (by norm_num)]
      ring
    refine ⟨?_, ?_, fun hmod => by omega⟩
    · rw [lowEnd_eq, if_pos ⟨rfl, by omega⟩, hdouble, ← mul_assoc, ← le_div_iff₀ hunit]
      linarith
    · rw [highEnd_eq, hdouble, ← mul_assoc, ← div_le_iff₀ hunit]
      linarith

lemma magnitudeNumber_lt_iff (hq : -1074 ≤ q) (hm : m ≤ 2 ^ 53) (hleast : q = -1074 ∨ 2 ^ 52 ≤ m) :
    magnitudeNumber m q < 0x7FF0000000000000 ↔ ¬(971 < q ∨ q = 971 ∧ 2 ^ 53 ≤ m) := by
  rw [magnitudeNumber]
  split_ifs <;> omega

lemma ofRatio_eq (hn : 0 < n) (hd : 0 < d) :
    ofRatio n d = if roundedNumber n d < 0x7FF0000000000000
      then ⟨UInt64.ofNat (roundedNumber n d)⟩ else infinity := by
  obtain ⟨hleast, -, -⟩ := isLastBit_lastBit hn hd
  obtain ⟨hm, hsize⟩ := significand_bounds hn hd
  have hfits := magnitudeNumber_lt_iff hleast hm hsize
  by_cases h : roundedNumber n d < 0x7FF0000000000000
  · rw [if_pos h]
    exact (if_neg (hfits.mp h)).trans (ofParts_eq hleast hm hsize)
  · rw [if_neg h]
    exact if_pos (not_not.mp (mt hfits.mpr h))

lemma ofRatio_zero (d : Nat) : ofRatio 0 d = zero := by
  have hdiv : ∀ d, roundDiv 0 d = 0 := by
    simp [roundDiv]
  have hlast : lastBit 0 d ≤ 0 := by
    simp only [lastBit, Nat.log2_zero]
    omega
  simp only [ofRatio, scaled, zero_mul, hdiv]
  rw [if_neg (by omega)]
  simp [ofParts, zero]

lemma ofRatio_eq_of_roundsTo (hn : 0 < n) (hd : 0 < d) (hk : k < 0x7FF0000000000000)
    (h : RoundsTo (partsOf k) (n / d)) : ofRatio n d = ⟨UInt64.ofNat k⟩ := by
  rw [ofRatio_eq hn hd, roundsTo_unique (roundsTo_roundedNumber hn hd) h, if_pos hk]

end Rounding

lemma isFinite_ofNat (hk : k < 0x7FF0000000000000) :
    (mk (UInt64.ofNat k)).isFinite = true ∧ (mk (UInt64.ofNat k)).isNegative = false := by
  have hbits : (UInt64.ofNat k).toNat = k := UInt64.toNat_ofNat_of_lt (by norm_num; omega)
  constructor
  · rw [isFinite_iff, toNat_abs]
    simp only [hbits]
    omega
  · rw [isNegative, decide_eq_false_iff_not, UInt64.le_iff_toNat_le]
    simp only [UInt64.reduceToNat]
    omega

lemma isFinite_ofRatio (hd : 0 < d) (h : (ofRatio n d).isInfinite = false) :
    (ofRatio n d).isFinite = true ∧ (ofRatio n d).isNegative = false := by
  rcases n.eq_zero_or_pos with rfl | hn
  · rw [ofRatio_zero]
    decide
  · rw [ofRatio_eq hn hd] at h ⊢
    split_ifs at h ⊢ with hk
    · exact isFinite_ofNat hk
    · exact absurd h (by decide)

/-! ### Numerals -/

variable {digits text rest : Bytes} {e : Int}

/-- What may follow the digits of a numeral: nothing, or an exponent that is read in full. -/
structure IsScale (rest : Bytes) : Prop where
  ends : EndsDigits rest
  plain : ∀ b ∈ rest, b ≠ 95
  read : readScale? .decimal rest = some (exponentOf rest)

/-- Digits with an optional point among them, and an optional exponent. -/
inductive Numeral : Bytes → Prop where
  | whole {whole rest : Bytes} (hne : whole ≠ []) (hw : Decimal.AllDigits whole)
    (hr : IsScale rest) : Numeral (whole ++ rest)
  | point {whole fraction rest : Bytes} (hne : whole ≠ [])
    (hw : Decimal.AllDigits whole) (hf : Decimal.AllDigits fraction)
    (hr : IsScale rest) : Numeral (whole ++ 46 :: (fraction ++ rest))

lemma isScale_nil : IsScale [] :=
  ⟨.inl rfl, by simp, rfl⟩

lemma Radix.digit?_decimal (b : UInt8) :
    decimal.digit? b = if Decimal.isDigit b then some (Decimal.digitValue b) else none := by
  simp [digit?]

lemma Radix.isDigit_decimal (b : UInt8) : decimal.isDigit b = Decimal.isDigit b := by
  rw [isDigit, digit?_decimal]
  cases Decimal.isDigit b <;> rfl

lemma Radix.value_decimal (h : Decimal.AllDigits digits) :
    decimal.value digits = Decimal.value digits := by
  refine foldl_ext _ _ 0 fun n b hb => ?_
  rw [digit?_decimal, if_pos (h b hb)]
  rfl

lemma EndsDigits.takeWhile_isDigit (h : EndsDigits rest) :
    rest.takeWhile Radix.decimal.isDigit = [] ∧ rest.dropWhile Radix.decimal.isDigit = rest := by
  obtain rfl | ⟨more, rfl⟩ := h
  · exact ⟨rfl, rfl⟩
  · exact ⟨rfl, rfl⟩

section Reading

variable {whole fraction : Bytes}

lemma splitDigits_whole (hw : Decimal.AllDigits whole) (hr : EndsDigits rest) :
    splitDigits .decimal (whole ++ rest) = (whole, 0, rest) := by
  have hw' : ∀ b ∈ whole, Radix.decimal.isDigit b = true := fun b hb =>
    (Radix.isDigit_decimal b).trans (hw b hb)
  simp only [splitDigits, takeWhile_append_of_pos hw', dropWhile_append_of_pos hw',
    hr.takeWhile_isDigit, append_nil]
  obtain rfl | ⟨more, rfl⟩ := hr <;> rfl

lemma splitDigits_point (hw : Decimal.AllDigits whole)
    (hf : Decimal.AllDigits fraction) (hr : EndsDigits rest) :
    splitDigits .decimal (whole ++ 46 :: (fraction ++ rest)) =
      (whole ++ fraction, fraction.length, rest) := by
  have hw' : ∀ b ∈ whole, Radix.decimal.isDigit b = true := fun b hb =>
    (Radix.isDigit_decimal b).trans (hw b hb)
  have hf' : ∀ b ∈ fraction, Radix.decimal.isDigit b = true := fun b hb =>
    (Radix.isDigit_decimal b).trans (hf b hb)
  have hpoint : Radix.decimal.isDigit 46 = false := rfl
  simp [splitDigits, takeWhile_append_of_pos hw', dropWhile_append_of_pos hw', hpoint,
    takeWhile_append_of_pos hf', dropWhile_append_of_pos hf', hr.takeWhile_isDigit]

/-- What is read is the double nearest to `y`, if this one is finite. -/
def ReadsRatio (read : Option Double) (y : ℚ) : Prop :=
  ∃ n d : Nat, 0 < d ∧ (n / d : ℚ) = y ∧
    read = if (ofRatio n d).isInfinite then none else some (ofRatio n d)

lemma readMagnitude?_eq {places : Nat} (hsplit : splitDigits .decimal text = (digits, places, rest))
    (hne : digits ≠ []) (hd : Decimal.AllDigits digits) (he : readScale? .decimal rest = some e) :
    ReadsRatio (readMagnitude? .decimal text) (Decimal.value digits * 10 ^ (e - places)) := by
  refine ⟨Decimal.value digits * 10 ^ e.toNat, 10 ^ places * 10 ^ (-e).toNat, by positivity, ?_, ?_⟩
  · have hpow := Shortest.zpow_mul_pow_toNat (b := 10) (by norm_num) e
    push_cast
    rw [← hpow, zpow_sub₀ (by norm_num), zpow_natCast]
    field_simp
  · simp only [readMagnitude?, hsplit, he, if_neg hne, Radix.value_decimal hd]
    rfl

end Reading

lemma groups_of_plain (r : Radix) (digit : Bool) (h : ∀ b ∈ text, b ≠ 95) :
    r.groups digit text = true := by
  induction text generalizing digit with
  | nil => rfl
  | cons b text ih =>
    have hb := h b mem_cons_self
    rw [Radix.groups]
    · exact ih _ fun c hc => h c (mem_cons_of_mem b hc)
    · rintro rfl
      exact hb rfl

namespace Numeral

variable (h : Numeral text)

include h

lemma plain : ∀ b ∈ text, b ≠ 95 := by
  have hdigits : ∀ ds : Bytes, Decimal.AllDigits ds → ∀ b ∈ ds, b ≠ 95 :=
    fun ds hds b hb => of_decide_eq_true (digit_ne hds rfl b hb)
  intro b hb
  cases h with
  | whole hne hw hr => exact (mem_append.mp hb).elim (hdigits _ hw b) (hr.plain b)
  | point hne hw hf hr =>
    rcases mem_append.mp hb with hb | hb
    · exact hdigits _ hw b hb
    · rcases mem_cons.mp hb with rfl | hb
      · decide
      · exact (mem_append.mp hb).elim (hdigits _ hf b) (hr.plain b)

lemma eq_cons : ∃ b more, text = b :: more ∧ Decimal.isDigit b = true ∧
    ∀ c more', more = c :: more' → c ≠ 120 ∧ c ≠ 88 := by
  have hdigit : ∀ c, Decimal.isDigit c = true → c ≠ 120 ∧ c ≠ 88 := by
    intro c hc
    constructor <;> (rintro rfl; exact absurd hc (by decide))
  cases h with
  | @whole whole rest hne hw hr =>
    obtain ⟨b, ds, rfl⟩ := exists_cons_of_ne_nil hne
    refine ⟨b, ds ++ rest, rfl, hw b mem_cons_self, fun c more' hc => ?_⟩
    cases ds with
    | nil =>
      obtain rfl | ⟨more, rfl⟩ := hr.ends
      · cases hc
      · obtain ⟨rfl, -⟩ := cons.inj hc
        decide
    | cons d ds =>
      obtain ⟨rfl, -⟩ := cons.inj hc
      exact hdigit _ (hw _ (mem_cons_of_mem b mem_cons_self))
  | @point whole fraction rest hne hw hf hr =>
    obtain ⟨b, ds, rfl⟩ := exists_cons_of_ne_nil hne
    refine ⟨b, ds ++ 46 :: (fraction ++ rest), rfl, hw b mem_cons_self, fun c more' hc => ?_⟩
    cases ds with
    | nil =>
      obtain ⟨rfl, -⟩ := cons.inj hc
      decide
    | cons d ds =>
      obtain ⟨rfl, -⟩ := cons.inj hc
      exact hdigit _ (hw _ (mem_cons_of_mem b mem_cons_self))

lemma readMagnitude?_eq : ReadsRatio (readMagnitude? .decimal text) (textValue text) := by
  cases h with
  | whole hne hw hr =>
    rw [textValue_whole hw hr.ends]
    have h := readMagnitude?_eq (splitDigits_whole hw hr.ends) hne hw hr.read
    rwa [Nat.cast_zero, sub_zero] at h
  | point hne hw hf hr =>
    rw [textValue_point hw hf hr.ends]
    refine readMagnitude?_eq (splitDigits_point hw hf hr.ends) (by simp [hne]) ?_ hr.read
    exact fun b hb => (mem_append.mp hb).elim (hw b) (hf b)

lemma lowered_ne {c : UInt8} {cs : Bytes} (hc : 97 ≤ c) : lowered text ≠ c :: cs := by
  obtain ⟨b, more, rfl, hb, -⟩ := h.eq_cons
  intro heq
  obtain ⟨rfl, -⟩ := cons.inj heq
  rw [Decimal.isDigit_iff] at hb
  rw [UInt8.le_iff_toNat_le] at hc
  have hlower : lowerByte b = b := by
    rw [lowerByte, if_neg]
    simp only [Bool.and_eq_true, UInt8.le_iff_toNat_le, not_and_or]
    exact .inl (by simpa using by omega)
  rw [hlower] at hc
  simp at hc
  omega

/-- **A numeral is read as the rounding of the number that it denotes.** -/
theorem read?_eq : ReadsRatio (read? text) (textValue text) := by
  have hnan : Bytes.ofString "nan" = [110, 97, 110] := by decide
  have hunsigned : readUnsigned? text = readMagnitude? .decimal text := by
    have hfilter : text.filter (· ≠ 95) = text := by
      rw [filter_eq_self]
      exact fun b hb => decide_eq_true (h.plain b hb)
    have hnames : ¬(lowered text = "inf" ∨ lowered text = "infinity") := by
      exact not_or.mpr ⟨h.lowered_ne (by decide), h.lowered_ne (by decide)⟩
    obtain ⟨b, more, rfl, -, hnext⟩ := h.eq_cons
    rw [readUnsigned?]
    · rw [if_neg hnames, readGrouped?, if_pos (groups_of_plain _ _ h.plain), hfilter]
    · exact fun rest heq => (hnext _ _ (cons.inj heq).2).1 rfl
    · exact fun rest heq => (hnext _ _ (cons.inj heq).2).2 rfl
  have hread : read? text = readUnsigned? text := by
    have hname : lowered text ≠ [110, 97, 110] := h.lowered_ne (by decide)
    obtain ⟨b, more, rfl, hb, -⟩ := h.eq_cons
    rw [read?]
    · exact if_neg (by rwa [hnan])
    · rintro rest heq
      rw [(cons.inj heq).1] at hb
      exact absurd hb (by decide)
    · rintro rest heq
      rw [(cons.inj heq).1] at hb
      exact absurd hb (by decide)
  rw [hread, hunsigned]
  exact h.readMagnitude?_eq

end Numeral

/-! ### The texts of numbers are numerals -/

variable {x : Double}

lemma foldl_exponent (n : Nat)
    (h : digits.foldl (fun n b => 10 * n + Decimal.digitValue b) n < 100000) :
    digits.foldl (fun e b => if e < 10000 then 10 * e + Decimal.digitValue b else e) n =
      digits.foldl (fun n b => 10 * n + Decimal.digitValue b) n := by
  induction digits generalizing n with
  | nil => rfl
  | cons b digits ih =>
    have hn : n < 10000 := by
      rw [foldl_cons, Decimal.foldl_value] at h
      have hpow : 1 ≤ 10 ^ digits.length := Nat.one_le_pow _ _ (by norm_num)
      nlinarith
    simp only [foldl_cons, if_pos hn]
    exact ih _ h

lemma isScale_exponentText (h : e.natAbs < 100000) : IsScale (exponentText e) := by
  have hdigits : Decimal.AllDigits (Bytes.repeated (2 - (Decimal.ofNat e.natAbs).length) 48 ++
      Decimal.ofNat e.natAbs) := fun b hb =>
    (mem_append.mp hb).elim (zeros_isDigit _ b) (Decimal.ofNat_all_isDigit _ b)
  have hvalue : Decimal.value (Bytes.repeated (2 - (Decimal.ofNat e.natAbs).length) 48 ++
      Decimal.ofNat e.natAbs) = e.natAbs := by simp
  have hne : Bytes.repeated (2 - (Decimal.ofNat e.natAbs).length) 48 ++
      Decimal.ofNat e.natAbs ≠ [] :=
    append_ne_nil_of_right_ne_nil _ (Decimal.ofNat_ne_nil _)
  refine ⟨endsDigits_exponentText e, ?_, ?_⟩
  · simp only [exponentText]
    intro b hb
    simp only [mem_cons] at hb
    obtain rfl | rfl | hb := hb
    · decide
    · split_ifs <;> decide
    · exact of_decide_eq_true (digit_ne hdigits rfl b hb)
  · rw [exponentOf_exponentText]
    simp only [exponentText] at hdigits hvalue hne ⊢
    generalize Bytes.repeated (2 - (Decimal.ofNat e.natAbs).length) 48 ++ Decimal.ofNat e.natAbs =
      ds
      at hdigits hvalue hne ⊢
    have hexponent : exponentValue ds = e.natAbs :=
      (foldl_exponent 0 (hvalue.trans_lt h)).trans hvalue
    have hall : ds.all Decimal.isDigit = true := all_eq_true.mpr hdigits
    have habs : (e.natAbs : Int) = if e < 0 then -e else e := by
      split_ifs <;> omega
    by_cases hneg : e < 0 <;>
      simp only [hneg, if_true, if_false, readScale?, readExponent?, hne, hall,
        hexponent, ne_eq, not_false_eq_true, and_self, habs, Option.map_some, neg_neg] <;> rfl

lemma numeral_scientificText (hne : digits ≠ []) (hd : Decimal.AllDigits digits)
    (he : e.natAbs < 100000) : Numeral (scientificText digits e) := by
  have hscale := isScale_exponentText he
  match digits, hne with
  | [d], _ => exact .whole (cons_ne_nil d []) hd hscale
  | d :: d' :: rest, _ =>
    obtain ⟨hfirst, hmore⟩ := forall_mem_cons.mp hd
    rw [scientificText_cons]
    exact .point (cons_ne_nil d []) (forall_mem_singleton.mpr hfirst) hmore hscale

lemma numeral_plainText (hne : digits ≠ []) (hd : Decimal.AllDigits digits)
    (point : Int) : Numeral (plainText digits point) := by
  obtain ⟨whole, fraction, htext, hne', hw, hf, -⟩ := plainText_eq hne hd point
  rw [htext]
  exact .point hne' hw hf isScale_nil

lemma ofNat_length_bounds (hn : 0 < n) :
    10 ^ ((Decimal.ofNat n).length - 1) ≤ n ∧ n < 10 ^ (Decimal.ofNat n).length := by
  fun_induction Decimal.ofNat n with
  | case1 n h => simpa using ⟨hn, h⟩
  | case2 n h ih =>
    obtain ⟨hlow, hhigh⟩ := ih (by omega)
    have hlen := length_pos_of_ne_nil (Decimal.ofNat_ne_nil (n / 10))
    rw [length_append, length_singleton, Nat.add_sub_cancel]
    obtain ⟨k, hk⟩ := Nat.exists_eq_succ_of_ne_zero hlen.ne'
    rw [hk] at hlow hhigh ⊢
    rw [Nat.succ_sub_one] at hlow
    omega

lemma RoundsTo.bounds {y : ℚ} (hpos : 0 < k) (hk : k < 0x7FF0000000000000)
    (h : RoundsTo (partsOf k) y) : (10 : ℚ) ^ (-1075 : Int) ≤ y ∧ y ≤ 10 ^ (1024 : Int) := by
  have hm := partsOf_pos hpos
  have hlt := partsOf_lt k
  have hq := partsOf_exponent hk
  generalize partsOf k = p at *
  obtain ⟨m, q⟩ := p
  have hpow : ∀ k : Nat, (2 : ℚ) ^ (k : Int) ≤ 10 ^ (k : Int) := by
    intro k
    exact pow_le_pow_left₀ (by norm_num) (by norm_num) k
  constructor
  · have hm' : (1 : ℚ) ≤ m := by exact_mod_cast hm
    calc (10 : ℚ) ^ (-1075 : Int) ≤ 2 ^ (-1075 : Int) := by
          exact inv_anti₀ (by positivity) (hpow 1075)
      _ ≤ 2 ^ (q - 1) := zpow_le_zpow_right₀ (by norm_num) (by omega)
      _ = 1 / 2 * 2 ^ q := by
          rw [zpow_sub_one₀ (by norm_num)]
          ring
      _ ≤ lowEnd (m, q) := by
          rw [lowEnd_eq]
          gcongr
          split_ifs <;> linarith
      _ ≤ y := h.low
  · have hm' : (m : ℚ) + 1 ≤ 2 ^ 53 := by exact_mod_cast hlt
    calc y ≤ highEnd (m, q) := h.high
      _ ≤ 2 ^ 53 * 2 ^ q := by
          rw [highEnd_eq]
          gcongr
          linarith
      _ = 2 ^ (53 + q) := by
          rw [zpow_add₀ (by norm_num)]
          norm_num
      _ ≤ 2 ^ (1024 : Int) := zpow_le_zpow_right₀ (by norm_num) (by omega)
      _ ≤ 10 ^ (1024 : Int) := hpow 1024

lemma leading_bound (hfinite : x.isFinite = true) (hzero : x.isZero = false) :
    (x.shortest.exponent + (Decimal.ofNat x.shortest.significand).length - 1).natAbs < 1100 := by
  have hpos := pos_of_isZero hzero
  obtain ⟨hlow, hhigh⟩ := (roundsTo_shortest hpos ((isFinite_iff x).mp hfinite)).bounds hpos
    ((isFinite_iff x).mp hfinite)
  generalize x.shortest = s at *
  obtain ⟨c, g⟩ := s
  simp only [Scientific.value] at hlow hhigh ⊢
  have hc : 0 < c := by
    rw [pos_iff_ne_zero]
    rintro rfl
    rw [Nat.cast_zero, zero_mul] at hlow
    exact absurd hlow (not_le.mpr (by positivity))
  obtain ⟨hdigits, hdigits'⟩ := ofNat_length_bounds hc
  have hlen := length_pos_of_ne_nil (Decimal.ofNat_ne_nil c)
  generalize (Decimal.ofNat c).length = l at *
  have htop : (10 : ℚ) ^ (g + l - 1) ≤ 10 ^ (1024 : Int) := by
    refine le_trans ?_ hhigh
    rw [show g + l - 1 = ((l - 1 : Nat) : Int) + g by omega, zpow_add₀ (by norm_num)]
    gcongr
    exact_mod_cast hdigits
  have hbottom : (10 : ℚ) ^ (-1075 : Int) < 10 ^ (g + l) := by
    refine lt_of_le_of_lt hlow ?_
    rw [add_comm, zpow_add₀ (by norm_num)]
    gcongr
    exact_mod_cast hdigits'
  rw [zpow_le_zpow_iff_right₀ (by norm_num)] at htop
  rw [zpow_lt_zpow_iff_right₀ (by norm_num)] at hbottom
  omega

lemma numeral_magnitudeText (h : x.isFinite = true) : Numeral x.magnitudeText := by
  have hne := Decimal.ofNat_ne_nil x.shortest.significand
  have hd := Decimal.ofNat_all_isDigit x.shortest.significand
  cases hzero : x.isZero with
  | true =>
    rw [magnitudeText_of_isZero hzero]
    exact .point (cons_ne_nil 48 []) zero_isDigit zero_isDigit isScale_nil
  | false =>
    have hbound := leading_bound h hzero
    simp only [magnitudeText, hzero, Bool.false_eq_true, if_false]
    split_ifs
    · exact numeral_scientificText hne hd (by omega)
    · exact numeral_plainText hne hd _

lemma eq_ofNat (hsign : x.isNegative = false) : x = ⟨UInt64.ofNat x.abs.bits.toNat⟩ := by
  rw [isNegative, decide_eq_false_iff_not, UInt64.le_iff_toNat_le] at hsign
  rw [toNat_abs, Nat.mod_eq_of_lt (by simpa using hsign), UInt64.ofNat_toNat]

/-- **The text of a finite number is read as the number.** -/
theorem read?_text (hfinite : x.isFinite = true) (hsign : x.isNegative = false) :
    read? x.text = some x := by
  have hlt := (isFinite_iff x).mp hfinite
  have htext : x.text = x.magnitudeText := by
    rw [text_of_isFinite hfinite, hsign]
    rfl
  obtain ⟨n, d, hd, hvalue, hread⟩ := (numeral_magnitudeText hfinite).read?_eq
  have hd' : (d : ℚ) ≠ 0 := by exact_mod_cast hd.ne'
  have hratio : ofRatio n d = x := by
    cases hzero : x.isZero with
    | true =>
      rw [textValue_of_isZero hzero, div_eq_zero_iff, or_iff_left hd', Nat.cast_eq_zero] at hvalue
      rw [hvalue, ofRatio_zero, eq_ofNat hsign, (isZero_iff x).mp hzero]
      rfl
    | false =>
      have hpos := pos_of_isZero hzero
      have hrounds := roundsTo_shortest hpos hlt
      rw [← textValue_magnitudeText hzero, ← hvalue] at hrounds
      have hn : n ≠ 0 := by
        rintro rfl
        have hlow := (hrounds.bounds hpos hlt).1
        rw [Nat.cast_zero, zero_div] at hlow
        exact absurd hlow (not_le.mpr (by positivity))
      rw [ofRatio_eq_of_roundsTo (pos_of_ne_zero hn) hd hlt hrounds, ← eq_ofNat hsign]
  have hinf : x.isInfinite = false := by
    simp only [isFinite, Bool.and_eq_true, Bool.not_eq_true'] at hfinite
    exact hfinite.2
  rw [htext, hread, hratio, hinf]
  rfl

lemma Numeral.isFinite (h : Numeral text) (hx : read? text = some x) :
    x.isFinite = true ∧ x.isNegative = false := by
  obtain ⟨n, d, hd, -, hread⟩ := h.read?_eq
  rw [hread] at hx
  split_ifs at hx with hinf
  cases hx
  exact isFinite_ofRatio hd (Bool.eq_false_iff.mpr hinf)

end Minilang.Double
