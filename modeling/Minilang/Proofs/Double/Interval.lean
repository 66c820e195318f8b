import Minilang.Double.Shortest
import Mathlib.Algebra.Order.Field.Power
import Mathlib.Algebra.Order.Field.Rat
import Mathlib.Data.Nat.Log
import Mathlib.Data.UInt
import Mathlib.Order.Monotone.Basic
import Mathlib.Tactic.FieldSimp
import Mathlib.Tactic.Linarith
import Mathlib.Tactic.NormNum
import Mathlib.Tactic.Positivity
import Mathlib.Tactic.Ring

/-!
# Rounding intervals

Every real number between two midpoints is rounded to the double between them.  The midpoints belong
to the double whose significand is even, so no number lies in the intervals of two magnitudes.  The
shortest decimal of a double lies in the interval of the double, and hence determines it.

The bits of a magnitude number the magnitudes in their order: `partsOf n` are the significand and
the exponent of the `n`-th magnitude.
-/

namespace Minilang.Double

/-! ### Intervals -/

variable {x : Nat × Int} {y : ℚ} {m : Nat} {q : Int}

/-- The lower end of the interval of `m * 2 ^ q`. -/
def lowEnd (x : Nat × Int) : ℚ :=
  (4 * x.1 - (if x.1 = 2 ^ 52 ∧ x.2 ≠ -1074 then 1 else 2)) * 2 ^ (x.2 - 2)

/-- The upper end of the interval of `m * 2 ^ q`. -/
def highEnd (x : Nat × Int) : ℚ :=
  (4 * x.1 + 2) * 2 ^ (x.2 - 2)

/-- A number that is rounded to `m * 2 ^ q`. -/
structure RoundsTo (x : Nat × Int) (y : ℚ) : Prop where
  low : lowEnd x ≤ y
  high : y ≤ highEnd x
  /-- The ends belong to the interval of an even significand only. -/
  inner : x.1 % 2 = 1 → lowEnd x < y ∧ y < highEnd x

lemma zpow_eq_quarters (q : Int) : (2 : ℚ) ^ q = 4 * 2 ^ (q - 2) := by
  rw [zpow_sub₀ (by norm_num)]
  ring

lemma lowEnd_lt_highEnd (x : Nat × Int) : lowEnd x < highEnd x := by
  apply mul_lt_mul_of_pos_right _ (by positivity)
  split_ifs <;> linarith

lemma lowEnd_pos (h : 0 < x.1) : 0 < lowEnd x := by
  have hm : (1 : ℚ) ≤ x.1 := by exact_mod_cast h
  apply mul_pos _ (by positivity)
  split_ifs <;> linarith

lemma RoundsTo.of_lt (hlow : lowEnd x < y) (hhigh : y < highEnd x) : RoundsTo x y :=
  ⟨hlow.le, hhigh.le, fun _ => ⟨hlow, hhigh⟩⟩

/-- If two neighbouring multiples of `u` lie around a number, and `u` is small beside the unit of
its significand, one of the two is rounded to the number. -/
theorem roundsTo_or_roundsTo {u : ℚ} (hlt : m < 2 ^ 53) (hu : u * 10 ^ 16 ≤ m * 2 ^ q)
    (hbelow : y ≤ m * 2 ^ q) (habove : m * 2 ^ q < y + u) :
    RoundsTo (m, q) y ∨ RoundsTo (m, q) (y + u) := by
  have hunit : (0 : ℚ) < 2 ^ (q - 2) := by positivity
  have hm : (m : ℚ) ≤ 2 ^ 53 - 1 := by
    have : m ≤ 2 ^ 53 - 1 := by omega
    norm_num at this ⊢
    exact this
  rw [zpow_eq_quarters] at hu hbelow habove
  by_cases hpower : m = 2 ^ 52 ∧ q ≠ -1074
  · have hm : (m : ℚ) = 2 ^ 52 := by rw [hpower.1]; norm_num
    have hlow : lowEnd (m, q) = (4 * m - 1) * 2 ^ (q - 2) := by rw [lowEnd, if_pos hpower]
    by_cases hnear : (m * (4 * 2 ^ (q - 2)) - y : ℚ) < 2 ^ (q - 2)
    · exact .inl (.of_lt (by rw [hlow]; linarith) (by rw [highEnd]; linarith))
    · refine .inr (.of_lt (by rw [hlow]; linarith) ?_)
      rw [highEnd]
      rw [hm] at hu
      linarith
  · have hlow : lowEnd (m, q) = (4 * m - 2) * 2 ^ (q - 2) := by rw [lowEnd, if_neg hpower]
    by_cases hnear : (m * (4 * 2 ^ (q - 2)) - y : ℚ) < 2 * 2 ^ (q - 2)
    · exact .inl (.of_lt (by rw [hlow]; linarith) (by rw [highEnd]; linarith))
    · refine .inr (.of_lt (by rw [hlow]; linarith) ?_)
      have hmul := mul_le_mul_of_nonneg_right hm hunit.le
      rw [highEnd]
      linarith

/-! ### The order of the magnitudes -/

variable {n : Nat}

/-- The significand and the exponent of the magnitude with the bits of `n`. -/
def partsOf (n : Nat) : Nat × Int :=
  if n / 2 ^ 52 = 0 then (n, -1074) else (n % 2 ^ 52 + 2 ^ 52, ((n / 2 ^ 52 : Nat) : Int) - 1075)

lemma parts_eq (x : Double) : x.parts = partsOf x.abs.bits.toNat := rfl

lemma partsOf_of_lt (h : n < 2 ^ 52) : partsOf n = (n, -1074) := by
  rw [partsOf, if_pos (by omega)]

lemma partsOf_of_le (h : 2 ^ 52 ≤ n) :
    partsOf n = (n % 2 ^ 52 + 2 ^ 52, ((n / 2 ^ 52 : Nat) : Int) - 1075) := by
  rw [partsOf, if_neg (by omega)]

lemma partsOf_mod_two (n : Nat) : (partsOf n).1 % 2 = n % 2 := by
  rcases lt_or_ge n (2 ^ 52) with h | h
  · rw [partsOf_of_lt h]
  · rw [partsOf_of_le h]
    omega

lemma partsOf_pos (h : 0 < n) : 0 < (partsOf n).1 := by
  rcases lt_or_ge n (2 ^ 52) with hn | hn
  · rw [partsOf_of_lt hn]
    exact h
  · rw [partsOf_of_le hn]
    omega

lemma partsOf_lt (n : Nat) : (partsOf n).1 < 2 ^ 53 := by
  rcases lt_or_ge n (2 ^ 52) with h | h
  · rw [partsOf_of_lt h]
    omega
  · rw [partsOf_of_le h]
    omega

lemma highEnd_partsOf (n : Nat) : highEnd (partsOf n) = lowEnd (partsOf (n + 1)) := by
  rcases lt_trichotomy (n + 1) (2 ^ 52) with h | h | h
  · rw [partsOf_of_lt h, partsOf_of_lt (by omega), highEnd, lowEnd, if_neg (by simp only []; omega)]
    congr 1
    push_cast
    ring
  -- The least magnitude with a full significand has the exponent of those below it.
  · have hn : n = 2 ^ 52 - 1 := by omega
    subst hn
    rw [partsOf_of_lt (by norm_num), partsOf_of_le (by norm_num), highEnd, lowEnd]
    norm_num
  by_cases hnext : (n + 1) % 2 ^ 52 = 0
  -- Here the exponent grows, and the distance to the magnitude below is half that to the next.
  · have hq : (n + 1) / 2 ^ 52 = n / 2 ^ 52 + 1 := by omega
    have hm : n % 2 ^ 52 = 2 ^ 52 - 1 := by omega
    have hpow : (2 : ℚ) ^ (((n / 2 ^ 52 + 1 : Nat) : Int) - 1075 - 2) =
        2 * 2 ^ (((n / 2 ^ 52 : Nat) : Int) - 1075 - 2) := by
      rw [← zpow_one_add₀ (by norm_num)]
      congr 1
      push_cast
      ring
    rw [partsOf_of_le (by omega), partsOf_of_le (by omega), highEnd, lowEnd, hnext, hm, hq,
      if_pos ⟨by norm_num, by simp only []; omega⟩, hpow]
    ring
  · have hq : (n + 1) / 2 ^ 52 = n / 2 ^ 52 := by omega
    have hm : (n + 1) % 2 ^ 52 = n % 2 ^ 52 + 1 := by omega
    rw [partsOf_of_le (by omega), partsOf_of_le (by omega), highEnd, lowEnd, hm, hq,
      if_neg (by simp only []; omega)]
    push_cast
    ring

lemma lowEnd_strictMono : StrictMono fun n => lowEnd (partsOf n) := by
  apply strictMono_nat_of_lt_succ
  intro n
  rw [← highEnd_partsOf]
  exact lowEnd_lt_highEnd _

lemma not_roundsTo_of_lt (h : m < n) (hm : RoundsTo (partsOf m) y) : ¬RoundsTo (partsOf n) y := by
  intro hn
  have hmono : lowEnd (partsOf (m + 1)) ≤ lowEnd (partsOf n) := lowEnd_strictMono.monotone h
  have hle : highEnd (partsOf m) ≤ lowEnd (partsOf n) := by rwa [highEnd_partsOf]
  have heq : lowEnd (partsOf (m + 1)) = lowEnd (partsOf n) :=
    le_antisymm hmono (by rw [← highEnd_partsOf]; exact hn.low.trans hm.high)
  have hnext : m + 1 = n := lowEnd_strictMono.injective heq
  -- Of two neighbours one has an odd significand, whose interval has no ends.
  rcases Nat.mod_two_eq_zero_or_one m with heven | hodd
  · have hn1 := (hn.inner (by rw [partsOf_mod_two]; omega)).1
    exact absurd (hm.high.trans hle) (not_le.mpr hn1)
  · have hm1 := (hm.inner (by rw [partsOf_mod_two]; omega)).2
    exact absurd (hle.trans hn.low) (not_le.mpr hm1)

/-- **A number is rounded to one magnitude only.** -/
theorem roundsTo_unique (hm : RoundsTo (partsOf m) y) (hn : RoundsTo (partsOf n) y) : m = n := by
  rcases lt_trichotomy m n with h | h | h
  · exact absurd hn (not_roundsTo_of_lt h hm)
  · exact h
  · exact absurd hm (not_roundsTo_of_lt h hn)

/-! ### The decimal grid -/

/-- The number that is written. -/
def Scientific.value (x : Scientific) : ℚ :=
  x.significand * 10 ^ x.exponent

namespace Shortest

variable {g : Int}

/-- What one is scaled to on the common scale of quarters of `2 ^ q` and multiples of `10 ^ g`. -/
def factor (q g : Int) : ℚ :=
  2 ^ (2 - q).toNat * 10 ^ (-g).toNat

lemma factor_pos (q g : Int) : 0 < factor q g := by
  unfold factor
  positivity

lemma zpow_mul_pow_toNat {b : ℚ} (hb : b ≠ 0) (k : Int) : b ^ k * b ^ (-k).toNat = b ^ k.toNat := by
  rw [← zpow_natCast, ← zpow_natCast, ← zpow_add₀ hb]
  congr 1
  omega

lemma quarter_eq (q g : Int) : ((scale q g).quarter : ℚ) = 2 ^ (q - 2) * factor q g := by
  have h := zpow_mul_pow_toNat (b := 2) (by norm_num) (q - 2)
  have hneg : -(q - 2) = 2 - q := by ring
  rw [hneg] at h
  unfold factor scale
  push_cast
  rw [← h]
  ring

lemma unit_eq (q g : Int) : ((scale q g).unit : ℚ) = 10 ^ g * factor q g := by
  have h := zpow_mul_pow_toNat (b := 10) (by norm_num) g
  unfold factor scale
  push_cast
  rw [← h]
  ring

lemma unit_pos (q g : Int) : 0 < (scale q g).unit := by
  unfold scale
  positivity

lemma reaches_iff (m : Nat) (q g : Int) : reaches m q g = true ↔ (10 : ℚ) ^ g ≤ m * 2 ^ q := by
  rw [reaches, decide_eq_true_eq, ← Nat.cast_le (α := ℚ)]
  push_cast
  rw [unit_eq, quarter_eq, zpow_eq_quarters q, ← mul_assoc, mul_le_mul_iff_left₀ (factor_pos q g)]
  ring_nf

lemma inside_iff (hm : 0 < m) (q g : Int) (c : Nat) :
    inside m q (scale q g) c = true ↔ RoundsTo (m, q) (c * 10 ^ g) := by
  have hlow : ((4 * m * (scale q g).quarter -
        (if m = 2 ^ 52 ∧ q ≠ -1074 then 1 else 2) * (scale q g).quarter : Nat) : ℚ) =
      lowEnd (m, q) * factor q g := by
    rw [Nat.cast_sub (by split_ifs <;> nlinarith), lowEnd]
    split_ifs <;> (push_cast; rw [quarter_eq]; ring)
  have hhigh : ((4 * m * (scale q g).quarter + 2 * (scale q g).quarter : Nat) : ℚ) =
      highEnd (m, q) * factor q g := by
    rw [highEnd]
    push_cast
    rw [quarter_eq]
    ring
  have hvalue : ((c * (scale q g).unit : Nat) : ℚ) = c * 10 ^ g * factor q g := by
    push_cast
    rw [unit_eq]
    ring
  have hfactor := factor_pos q g
  unfold inside
  rcases Nat.mod_two_eq_zero_or_one m with heven | hodd
  · rw [if_pos heven]
    simp only [Bool.and_eq_true, decide_eq_true_eq]
    rw [← Nat.cast_le (α := ℚ), ← Nat.cast_le (α := ℚ), hlow, hhigh, hvalue,
      mul_le_mul_iff_left₀ hfactor, mul_le_mul_iff_left₀ hfactor]
    exact ⟨fun h => ⟨h.1, h.2, fun hodd => by simp only [] at hodd; omega⟩,
      fun h => ⟨h.low, h.high⟩⟩
  · rw [if_neg (by omega)]
    simp only [Bool.and_eq_true, decide_eq_true_eq]
    rw [← Nat.cast_lt (α := ℚ), ← Nat.cast_lt (α := ℚ), hlow, hhigh, hvalue,
      mul_lt_mul_iff_left₀ hfactor, mul_lt_mul_iff_left₀ hfactor]
    exact ⟨fun h => ⟨h.1.le, h.2.le, fun _ => h⟩, fun h => h.inner hodd⟩

lemma roundsTo_of_onGrid? (hm : 0 < m) {c : Nat} (h : onGrid? m q g = some c) :
    RoundsTo (m, q) (c * 10 ^ g) := by
  rw [← inside_iff hm]
  unfold onGrid? at h
  simp only [] at h
  split_ifs at h with hboth hpick hd hd1
  · obtain rfl := Option.some.inj h
    exact (Bool.and_eq_true _ _ ▸ hboth).1
  · obtain rfl := Option.some.inj h
    exact (Bool.and_eq_true _ _ ▸ hboth).2
  · obtain rfl := Option.some.inj h
    exact hd
  · obtain rfl := Option.some.inj h
    exact hd1

lemma neighbours (m : Nat) (q g : Int) :
    let d := 4 * m * (scale q g).quarter / (scale q g).unit
    (d * 10 ^ g : ℚ) ≤ m * 2 ^ q ∧ (m * 2 ^ q : ℚ) < (d + 1) * 10 ^ g := by
  intro d
  have hvalue : ((4 * m * (scale q g).quarter : Nat) : ℚ) = m * 2 ^ q * factor q g := by
    push_cast
    rw [quarter_eq, zpow_eq_quarters q]
    ring
  have hfactor := factor_pos q g
  have hle : d * (scale q g).unit ≤ 4 * m * (scale q g).quarter := Nat.div_mul_le_self _ _
  have hlt : 4 * m * (scale q g).quarter < (d + 1) * (scale q g).unit := by
    rw [mul_comm (d + 1)]
    exact Nat.lt_mul_div_succ _ (unit_pos q g)
  rw [← Nat.cast_le (α := ℚ), hvalue] at hle
  rw [← Nat.cast_lt (α := ℚ), hvalue] at hlt
  push_cast at hle hlt
  rw [unit_eq, ← mul_assoc] at hle hlt
  exact ⟨le_of_mul_le_mul_right hle hfactor, lt_of_mul_lt_mul_right hlt hfactor.le⟩

lemma exists_onGrid? (hm : 0 < m) (hlt : m < 2 ^ 53) (hg : (10 : ℚ) ^ (g + 16) ≤ m * 2 ^ q) :
    ∃ c, onGrid? m q g = some c := by
  obtain ⟨hbelow, habove⟩ := neighbours m q g
  set d := 4 * m * (scale q g).quarter / (scale q g).unit with hd
  have hsome : inside m q (scale q g) d = true ∨ inside m q (scale q g) (d + 1) = true := by
    rw [inside_iff hm, inside_iff hm]
    have hu : (10 ^ g * 10 ^ 16 : ℚ) ≤ m * 2 ^ q := by
      rwa [zpow_add₀ (by norm_num)] at hg
    have hsum : ((d + 1 : Nat) * 10 ^ g : ℚ) = d * 10 ^ g + 10 ^ g := by
      push_cast
      ring
    rw [hsum]
    exact roundsTo_or_roundsTo hlt hu hbelow (by linarith)
  unfold onGrid?
  simp only [← hd]
  rcases hsome with h | h <;> simp only [h] <;> split_ifs <;> simp_all

/-! ### The leading digit -/

/-- The logarithm of two is a little less than `0.30103`, whose multiples bound powers of ten by
powers of two: for the exponents of doubles the error stays below one. -/
theorem ten_pow_le_two_pow : ∀ k < 1024, 10 ^ (30103 * k / 100000) ≤ 10 * 2 ^ k := by
  decide +kernel

lemma two_pow_le_ten_pow : ∀ k < 1100, 2 ^ k ≤ 10 ^ (30103 * k / 100000 + 1) := by
  decide +kernel

lemma ten_zpow_le_two_zpow {k : Int} (hlow : -1100 < k) (hhigh : k < 1024) :
    (10 : ℚ) ^ (Int.fdiv (k * 30103) 100000 - 1) ≤ 2 ^ k := by
  rw [Int.fdiv_eq_ediv_of_nonneg _ (by norm_num)]
  obtain ⟨n, rfl | rfl⟩ := k.eq_nat_or_neg
  · have h := (Nat.cast_le (α := ℚ)).mpr (ten_pow_le_two_pow n (by omega))
    push_cast at h
    have hexp : (n : Int) * 30103 / 100000 = ((30103 * n / 100000 : Nat) : Int) := by omega
    rw [hexp, zpow_sub₀ (by norm_num), zpow_natCast, zpow_natCast]
    linarith
  · have h := (Nat.cast_le (α := ℚ)).mpr (two_pow_le_ten_pow n (by omega))
    push_cast at h
    calc (10 : ℚ) ^ (-(n : Int) * 30103 / 100000 - 1)
        ≤ 10 ^ (-((30103 * n / 100000 + 1 : Nat) : Int)) :=
          zpow_le_zpow_right₀ (by norm_num) (by omega)
      _ = (10 ^ (30103 * n / 100000 + 1))⁻¹ := by rw [zpow_neg, zpow_natCast]
      _ ≤ (2 ^ n)⁻¹ := inv_anti₀ (by positivity) h
      _ = 2 ^ (-(n : Int)) := by rw [zpow_neg, zpow_natCast]

lemma reaches_climb (steps : Nat) (h : reaches m q g = true) :
    reaches m q (climb m q steps g) = true := by
  induction steps generalizing g with
  | zero => exact h
  | succ k ih =>
    rw [climb]
    split_ifs with hnext
    · exact ih hnext
    · exact h

lemma reaches_leading (hm : 0 < m) (hlow : -1074 ≤ q) (hhigh : Nat.log2 m + q < 1024) :
    reaches m q (leading m q) = true := by
  apply reaches_climb
  rw [reaches_iff]
  have hlog : (2 ^ Nat.log2 m : ℚ) ≤ m := by
    exact_mod_cast Nat.log2_self_le (by omega)
  calc (10 : ℚ) ^ (Int.fdiv ((Nat.log2 m + q) * 30103) 100000 - 1)
      ≤ 2 ^ (Nat.log2 m + q : Int) := ten_zpow_le_two_zpow (by omega) hhigh
    _ = 2 ^ Nat.log2 m * 2 ^ q := by rw [zpow_add₀ (by norm_num), zpow_natCast]
    _ ≤ m * 2 ^ q := mul_le_mul_of_nonneg_right hlog (by positivity)

lemma value_strip (steps : Nat) (x : Scientific) : (strip steps x).value = x.value := by
  induction steps generalizing x with
  | zero => rfl
  | succ k ih =>
    rw [strip]
    split_ifs with hzero
    · rw [ih]
      have hdiv : x.significand = 10 * (x.significand / 10) := by omega
      have hcast : (x.significand : ℚ) = 10 * (x.significand / 10 : Nat) := by
        exact_mod_cast hdiv
      rw [Scientific.value, Scientific.value, hcast, zpow_add₀ (by norm_num)]
      ring
    · rfl

end Shortest

lemma partsOf_exponent (h : n < 0x7FF0000000000000) :
    -1074 ≤ (partsOf n).2 ∧ (partsOf n).2 ≤ 971 := by
  rcases lt_or_ge n (2 ^ 52) with hn | hn
  · rw [partsOf_of_lt hn]
    omega
  · rw [partsOf_of_le hn]
    omega

/-- **The shortest decimal of a magnitude is rounded to the magnitude.** -/
theorem roundsTo_shortest {x : Double} (hzero : 0 < x.abs.bits.toNat)
    (hfinite : x.abs.bits.toNat < 0x7FF0000000000000) :
    RoundsTo (partsOf x.abs.bits.toNat) x.shortest.value := by
  have hm := partsOf_pos hzero
  have hlt := partsOf_lt x.abs.bits.toNat
  have hq := partsOf_exponent hfinite
  unfold shortest
  rw [parts_eq]
  generalize partsOf x.abs.bits.toNat = p at *
  obtain ⟨m, q⟩ := p
  rw [Shortest.value_strip]
  generalize hfound : List.findSome? _ _ = found
  cases found with
  | some s =>
    obtain ⟨n, -, hs⟩ := List.exists_of_findSome?_eq_some hfound
    obtain ⟨c, hc, rfl⟩ := Option.map_eq_some_iff.mp hs
    exact Shortest.roundsTo_of_onGrid? hm hc
  | none =>
    have hlog : Nat.log2 m < 53 := (Nat.log2_lt (by omega)).mpr hlt
    have hreach := (Shortest.reaches_iff m q _).mp
      (Shortest.reaches_leading hm hq.1 (by omega : (Nat.log2 m : Int) + q < 1024))
    obtain ⟨c, hc⟩ := Shortest.exists_onGrid? hm hlt (by rwa [sub_add_cancel])
    have hnone := List.findSome?_eq_none_iff.mp hfound 16 (by simp)
    simp [hc] at hnone

end Minilang.Double
