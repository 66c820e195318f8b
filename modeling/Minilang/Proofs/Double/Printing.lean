import Minilang.Proofs.Double.Interval
import Minilang.Proofs.Double.Payload
import Minilang.Proofs.Text.Decimal

/-!
# Different numbers print differently

The text of a finite number denotes its shortest decimal, in whichever of the forms it is written;
the shortest decimal is rounded to one magnitude only.  So the text of a number determines the
number, up to the payload of a NaN.
-/

namespace Minilang.Double

open Decimal List

/-! ### The value of a text -/

variable {rest whole : Bytes}

/-- The number written behind an `e`. -/
def exponentOf : Bytes → Int
  | _ :: sign :: digits => if sign = 45 then -Decimal.value digits else Decimal.value digits
  | _ => 0

/-- The number that a text without a sign denotes: digits, a point and more digits, then an
exponent, where all but the first may be missing. -/
def textValue (text : Bytes) : ℚ :=
  let mantissa := text.takeWhile (· ≠ 101)
  let whole := mantissa.takeWhile (· ≠ 46)
  let fraction := (mantissa.dropWhile (· ≠ 46)).drop 1
  Decimal.value (whole ++ fraction) * 10 ^ (exponentOf (text.dropWhile (· ≠ 101)) - fraction.length)

/-- Digits end with the text or at an exponent. -/
def EndsDigits (rest : Bytes) : Prop :=
  rest = [] ∨ ∃ more, rest = 101 :: more

lemma digit_ne {bs : Bytes} (h : AllDigits bs) {c : UInt8}
    (hc : isDigit c = false) : ∀ b ∈ bs, decide (b ≠ c) = true := by
  intro b hb
  rw [decide_eq_true_eq]
  rintro rfl
  rw [h b hb] at hc
  exact Bool.noConfusion hc

lemma EndsDigits.takeWhile (h : EndsDigits rest) : rest.takeWhile (· ≠ 101) = [] := by
  obtain rfl | ⟨more, rfl⟩ := h <;> rfl

lemma EndsDigits.dropWhile (h : EndsDigits rest) : rest.dropWhile (· ≠ 101) = rest := by
  obtain rfl | ⟨more, rfl⟩ := h <;> rfl

lemma textValue_whole (hw : AllDigits whole) (hr : EndsDigits rest) :
    textValue (whole ++ rest) = value whole * 10 ^ exponentOf rest := by
  have he := digit_ne hw (c := 101) rfl
  have hp := digit_ne hw (c := 46) rfl
  have hall : whole.takeWhile (· ≠ 46) = whole := by
    simpa using @takeWhile_append_of_pos _ _ whole [] hp
  have hnone : whole.dropWhile (· ≠ 46) = [] := by
    simpa using @dropWhile_append_of_pos _ _ whole [] hp
  simp only [textValue]
  rw [takeWhile_append_of_pos he, dropWhile_append_of_pos he, hr.takeWhile,
    hr.dropWhile, append_nil, hall, hnone]
  simp

lemma textValue_point {fraction : Bytes} (hw : AllDigits whole)
    (hf : AllDigits fraction) (hr : EndsDigits rest) :
    textValue (whole ++ 46 :: (fraction ++ rest)) =
      value (whole ++ fraction) * 10 ^ (exponentOf rest - fraction.length) := by
  have hmantissa : ∀ b ∈ whole ++ 46 :: fraction, decide (b ≠ 101) = true := by
    intro b hb
    rcases mem_append.mp hb with hb | hb
    · exact digit_ne hw rfl b hb
    · rcases mem_cons.mp hb with rfl | hb
      · rfl
      · exact digit_ne hf rfl b hb
  have hp := digit_ne hw (c := 46) rfl
  have hsplit : whole ++ 46 :: (fraction ++ rest) = (whole ++ 46 :: fraction) ++ rest := by simp
  simp only [textValue]
  rw [hsplit, takeWhile_append_of_pos hmantissa, dropWhile_append_of_pos hmantissa,
    hr.takeWhile, hr.dropWhile, append_nil, takeWhile_append_of_pos hp,
    dropWhile_append_of_pos hp]
  simp

/-! ### The forms of a number -/

variable {digits : Bytes}

lemma zeros_isDigit (n : Nat) : AllDigits (Bytes.repeated n 48) := by
  intro b hb
  rw [eq_of_mem_replicate hb]
  rfl

lemma zero_isDigit : AllDigits ([48] : Bytes) :=
  zeros_isDigit 1

lemma endsDigits_exponentText (e : Int) : EndsDigits (exponentText e) :=
  .inr ⟨_, rfl⟩

lemma exponentOf_exponentText (e : Int) : exponentOf (exponentText e) = e := by
  simp only [exponentText, exponentOf, value_append, value_zeros, value_ofNat]
  by_cases hneg : e < 0
  · rw [if_pos hneg, if_pos rfl]
    omega
  · rw [if_neg hneg, if_neg (by decide)]
    omega

lemma scientificText_cons (d d' : UInt8) (rest : Bytes) (e : Int) :
    scientificText (d :: d' :: rest) e = [d] ++ 46 :: ((d' :: rest) ++ exponentText e) := by
  have hpoint : Bytes.ofString "." = [46] := by decide
  simp [scientificText, Bytes.concat, hpoint]

lemma textValue_scientificText (hne : digits ≠ []) (hd : AllDigits digits) (e : Int) :
    textValue (scientificText digits e) = value digits * 10 ^ (e + 1 - digits.length) := by
  have hends := endsDigits_exponentText e
  match digits, hne with
  | [d], _ =>
    rw [scientificText, ← singleton_append, textValue_whole hd hends, exponentOf_exponentText]
    simp
  | d :: d' :: rest, _ =>
    obtain ⟨hfirst, hmore⟩ := forall_mem_cons.mp hd
    rw [scientificText_cons, textValue_point (forall_mem_singleton.mpr hfirst) hmore hends,
      exponentOf_exponentText]
    simp only [length_cons]
    congr 2
    push_cast
    ring

lemma plainText_eq (hne : digits ≠ []) (hd : AllDigits digits) (point : Int) :
    ∃ whole fraction : Bytes, plainText digits point = whole ++ 46 :: (fraction ++ []) ∧
      whole ≠ [] ∧ AllDigits whole ∧
      AllDigits fraction ∧
      (value (whole ++ fraction) : ℚ) * 10 ^ (-fraction.length : Int) =
        value digits * 10 ^ (point - digits.length) := by
  have hpoint : Bytes.ofString "." = [46] := by decide
  have hnull : value [48] = 0 := by decide
  unfold plainText
  split_ifs with hsmall hinner
  · have hzero : Bytes.ofString "0." = [48, 46] := by decide
    refine ⟨[48], Bytes.repeated (-point).toNat 48 ++ digits, ?_, by simp, zero_isDigit, ?_, ?_⟩
    · simp [Bytes.concat, hzero]
    · exact fun b hb => (mem_append.mp hb).elim (zeros_isDigit _ b) (hd b)
    · simp only [value_append, value_zeros, hnull, zero_mul, zero_add]
      congr 2
      simp only [length_append, Bytes.length_repeated]
      omega
  · refine ⟨digits.take point.toNat, digits.drop point.toNat, ?_, ?_, ?_, ?_, ?_⟩
    · simp [Bytes.concat, hpoint]
    · simp [hne, hsmall]
    · exact fun b hb => hd b (mem_of_mem_take hb)
    · exact fun b hb => hd b (mem_of_mem_drop hb)
    · rw [take_append_drop]
      congr 2
      simp only [length_drop]
      omega
  · have hzero : Bytes.ofString ".0" = [46, 48] := by decide
    refine ⟨digits ++ Bytes.repeated (point.toNat - digits.length) 48, [48], ?_, by simp [hne], ?_,
      zero_isDigit, ?_⟩
    · simp [Bytes.concat, hzero]
    · exact fun b hb => (mem_append.mp hb).elim (hd b) (zeros_isDigit _ b)
    · have hlen : (point - digits.length : Int) = (point.toNat - digits.length : Nat) := by omega
      rw [hlen, zpow_natCast]
      simp only [value_append, value_zeros, hnull, Bytes.length_repeated, length_singleton]
      push_cast
      ring

lemma textValue_plainText (hne : digits ≠ []) (hd : AllDigits digits) (point : Int) :
    textValue (plainText digits point) = value digits * 10 ^ (point - digits.length) := by
  obtain ⟨whole, fraction, htext, -, hw, hf, hvalue⟩ := plainText_eq hne hd point
  have hnone : exponentOf [] = 0 := rfl
  rw [htext, textValue_point hw hf (.inl rfl), ← hvalue, hnone, zero_sub]

/-! ### Magnitudes -/

variable {x : Double}

lemma textValue_magnitudeText (h : x.isZero = false) :
    textValue x.magnitudeText = x.shortest.value := by
  have hne := ofNat_ne_nil x.shortest.significand
  have hd := ofNat_all_isDigit x.shortest.significand
  simp only [magnitudeText, h, Bool.false_eq_true, if_false]
  split_ifs
  · rw [textValue_scientificText hne hd, value_ofNat]
    congr 2
    ring
  · rw [textValue_plainText hne hd, value_ofNat]
    congr 2
    ring

lemma magnitudeText_of_isZero (h : x.isZero = true) :
    x.magnitudeText = [48] ++ 46 :: ([48] ++ []) := by
  rw [magnitudeText, if_pos h]
  decide

lemma textValue_of_isZero (h : x.isZero = true) : textValue x.magnitudeText = 0 := by
  have hvalue : value ([48] ++ [48]) = 0 := by decide
  rw [magnitudeText_of_isZero h, textValue_point zero_isDigit zero_isDigit (.inl rfl), hvalue,
    Nat.cast_zero, zero_mul]

lemma magnitudeText_eq_cons (x : Double) :
    ∃ b bs, x.magnitudeText = b :: bs ∧ isDigit b = true := by
  obtain ⟨d, ds, hcons, hd⟩ := ofNat_eq_cons x.shortest.significand
  unfold magnitudeText
  split_ifs with hzero
  · exact ⟨48, _, rfl, rfl⟩
  · simp only [hcons]
    split_ifs
    · cases ds with
      | nil => exact ⟨d, _, rfl, hd⟩
      | cons d' ds => exact ⟨d, _, rfl, hd⟩
    · unfold plainText
      split_ifs with hsmall hinner
      · exact ⟨48, _, rfl, rfl⟩
      · have hpos : 0 < (x.shortest.exponent + (d :: ds).length - 1 + 1).toNat := by omega
        obtain ⟨n, hn⟩ := Nat.exists_eq_succ_of_ne_zero hpos.ne'
        rw [hn]
        exact ⟨d, _, rfl, hd⟩
      · exact ⟨d, _, rfl, hd⟩

/-! ### Numbers -/

variable {y : Double}

lemma toNat_abs (x : Double) : x.abs.bits.toNat = x.bits.toNat % 2 ^ 63 := by
  have hmask : (9223372036854775807 : UInt64).toNat = 2 ^ 63 - 1 := by decide
  rw [abs, UInt64.toNat_and, hmask, Nat.and_two_pow_sub_one_eq_mod]

lemma eq_of_abs_eq (hsign : x.isNegative = y.isNegative)
    (habs : x.abs.bits.toNat = y.abs.bits.toNat) : x = y := by
  rw [toNat_abs, toNat_abs] at habs
  simp only [isNegative, UInt64.le_iff_toNat_le, decide_eq_decide, UInt64.reduceToNat] at hsign
  have hx := x.bits.toNat_lt
  have hy := y.bits.toNat_lt
  have hbits : x.bits = y.bits := UInt64.toNat_inj.mp (by omega)
  exact congrArg mk hbits

lemma isZero_iff (x : Double) : x.isZero = true ↔ x.abs.bits.toNat = 0 := by
  rw [isZero, decide_eq_true_eq, ← UInt64.toNat_inj]
  rfl

lemma pos_of_isZero (hzero : x.isZero = false) : 0 < x.abs.bits.toNat := by
  rw [pos_iff_ne_zero, ne_eq, ← isZero_iff, hzero]
  exact Bool.false_ne_true

/-- The double is a number and not infinite. -/
def isFinite (x : Double) : Bool :=
  !x.isNaN && !x.isInfinite

lemma isFinite_iff (x : Double) : x.isFinite = true ↔ x.abs.bits.toNat < 0x7FF0000000000000 := by
  simp only [isFinite, isNaN, isInfinite, Bool.and_eq_true, Bool.not_eq_true',
    decide_eq_false_iff_not, UInt64.lt_iff_toNat_lt, ← UInt64.toNat_inj, UInt64.reduceToNat]
  omega

/-- **The text of a magnitude determines it.** -/
theorem abs_eq_of_magnitudeText (hx : x.isFinite = true) (hy : y.isFinite = true)
    (h : x.magnitudeText = y.magnitudeText) : x.abs.bits.toNat = y.abs.bits.toNat := by
  have hpos : ∀ z : Double, z.isFinite = true → z.isZero = false →
      RoundsTo (partsOf z.abs.bits.toNat) z.shortest.value ∧ 0 < z.shortest.value := by
    intro z hfinite hzero
    have hbits := pos_of_isZero hzero
    have hrounds := roundsTo_shortest hbits ((isFinite_iff z).mp hfinite)
    exact ⟨hrounds, (lowEnd_pos (partsOf_pos hbits)).trans_le hrounds.low⟩
  cases hzx : x.isZero with
  | true =>
    cases hzy : y.isZero with
    | true => rw [(isZero_iff x).mp hzx, (isZero_iff y).mp hzy]
    | false =>
      have hval := (hpos y hy hzy).2
      rw [← textValue_magnitudeText hzy, ← h, textValue_of_isZero hzx] at hval
      exact absurd hval (lt_irrefl _)
  | false =>
    have hvx := hpos x hx hzx
    cases hzy : y.isZero with
    | true =>
      have hval := hvx.2
      rw [← textValue_magnitudeText hzx, h, textValue_of_isZero hzy] at hval
      exact absurd hval (lt_irrefl _)
    | false =>
      have hvy := (hpos y hy hzy).1
      rw [← textValue_magnitudeText hzy, ← h, textValue_magnitudeText hzx] at hvy
      exact roundsTo_unique hvx.1 hvy

lemma text_of_isFinite (h : x.isFinite = true) :
    x.text = if x.isNegative then 45 :: x.magnitudeText else x.magnitudeText := by
  simp only [isFinite, Bool.and_eq_true, Bool.not_eq_true'] at h
  rw [text, h.1, h.2]
  rfl

lemma text_of_isFinite_cons (h : x.isFinite = true) :
    ∃ b bs, isDigit b = true ∧ (x.text = b :: bs ∨ x.text = 45 :: b :: bs) := by
  obtain ⟨b, bs, hcons, hb⟩ := magnitudeText_eq_cons x
  refine ⟨b, bs, hb, ?_⟩
  rw [text_of_isFinite h, hcons]
  cases x.isNegative
  · exact .inl rfl
  · exact .inr rfl

lemma text_of_not_isFinite (h : x.isFinite = false) : x.text = if x.isNaN then [78, 97, 78]
      else if x.isNegative then [45, 73, 110, 102] else [43, 73, 110, 102] := by
  have hnan : Bytes.ofString "NaN" = [78, 97, 78] := by decide
  have hneg : Bytes.ofString "-Inf" = [45, 73, 110, 102] := by decide
  have hpos : Bytes.ofString "+Inf" = [43, 73, 110, 102] := by decide
  rw [text]
  cases hn : x.isNaN with
  | true => rfl
  | false =>
    have hinf : x.isInfinite = true := by simpa [isFinite, hn] using h
    rw [hinf]
    rfl

lemma text_ne_of_isFinite (hx : x.isFinite = true) (hy : y.isFinite = false) : x.text ≠ y.text := by
  intro h
  obtain ⟨b, bs, hb, htext⟩ := text_of_isFinite_cons hx
  rw [h, text_of_not_isFinite hy] at htext
  have hdigit : ∀ c, isDigit c = false → c ≠ b := by
    rintro c hc rfl
    rw [hb] at hc
    exact Bool.noConfusion hc
  have hN := hdigit 78 rfl
  have hminus := hdigit 45 rfl
  have hplus := hdigit 43 rfl
  have hI := hdigit 73 rfl
  split_ifs at htext <;> simp [hN, hminus, hplus, hI] at htext

lemma eq_of_text_of_isFinite (hx : x.isFinite = true) (hy : y.isFinite = true)
    (h : x.text = y.text) : x = y := by
  -- A magnitude has no sign in front, so the texts agree in the sign as well.
  have hsign : ∀ z z' : Double, z.magnitudeText ≠ 45 :: z'.magnitudeText := by
    intro z z' hz
    obtain ⟨b, bs, hcons, hb⟩ := magnitudeText_eq_cons z
    rw [hcons] at hz
    rw [(cons.inj hz).1] at hb
    exact absurd hb (by decide)
  rw [text_of_isFinite hx, text_of_isFinite hy] at h
  cases hnx : x.isNegative <;> cases hny : y.isNegative <;> rw [hnx, hny] at h
  · exact eq_of_abs_eq (by rw [hnx, hny]) (abs_eq_of_magnitudeText hx hy h)
  · exact absurd h (hsign x y)
  · exact absurd h.symm (hsign y x)
  · exact eq_of_abs_eq (by rw [hnx, hny]) (abs_eq_of_magnitudeText hx hy (cons.inj h).2)

lemma canon_eq_of_text_of_not_isFinite (hx : x.isFinite = false) (hy : y.isFinite = false)
    (h : x.text = y.text) : x.canon = y.canon := by
  rw [text_of_not_isFinite hx, text_of_not_isFinite hy] at h
  cases hnx : x.isNaN with
  | true =>
    cases hny : y.isNaN with
    | true => rw [canon_of_isNaN hnx, canon_of_isNaN hny]
    | false =>
      rw [hnx, hny] at h
      cases hs : y.isNegative <;> simp [hs] at h
  | false =>
    cases hny : y.isNaN with
    | true =>
      rw [hnx, hny] at h
      cases hs : x.isNegative <;> simp [hs] at h
    | false =>
      have hinf : ∀ z : Double, z.isFinite = false → z.isNaN = false →
          z.abs.bits = 0x7FF0000000000000 := by
        intro z hz hn
        simpa [isFinite, hn, isInfinite] using hz
      have hsign : x.isNegative = y.isNegative := by
        rw [hnx, hny] at h
        cases hsx : x.isNegative <;> cases hsy : y.isNegative <;> simp [hsx, hsy] at h ⊢
      rw [eq_of_abs_eq hsign (by rw [hinf x hx hnx, hinf y hy hny])]

/-- **Numbers with the same text are equal, up to the payload of a NaN.** -/
theorem canon_eq_of_text (h : x.text = y.text) : x.canon = y.canon := by
  cases hx : x.isFinite with
  | true =>
    cases hy : y.isFinite with
    | true => rw [eq_of_text_of_isFinite hx hy h]
    | false => exact absurd h (text_ne_of_isFinite hx hy)
  | false =>
    cases hy : y.isFinite with
    | true => exact absurd h.symm (text_ne_of_isFinite hy hx)
    | false => exact canon_eq_of_text_of_not_isFinite hx hy h

end Minilang.Double
