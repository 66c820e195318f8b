import Minilang.Text.Decimal
import Mathlib.Algebra.Order.Ring.Nat
import Mathlib.Data.UInt
import Mathlib.Tactic.Common
import Mathlib.Tactic.Ring

/-!
# Decimal texts are read back

The digits of a number denote the number, so two numbers with the same decimal text are equal.
-/

namespace Minilang

open List

@[simp]
lemma Bytes.length_repeated (n : Nat) (b : UInt8) : (repeated n b).length = n :=
  length_replicate

namespace Decimal

/-! ### Digits -/

lemma toNat_digit (d : Nat) : (digit d).toNat = 48 + d % 10 := by
  unfold digit
  rw [UInt8.toNat_ofNat']
  omega

lemma isDigit_iff (b : UInt8) : isDigit b = true ↔ 48 ≤ b.toNat ∧ b.toNat ≤ 57 := by
  simp only [isDigit, Bool.and_eq_true, decide_eq_true_eq]
  exact Iff.rfl

lemma isDigit_digit (d : Nat) : isDigit (digit d) = true := by
  rw [isDigit_iff, toNat_digit]
  omega

lemma digitValue_digit (d : Nat) : digitValue (digit d) = d % 10 := by
  unfold digitValue
  rw [toNat_digit]
  omega

/-! ### The value of digits -/
variable (n : Nat)

lemma foldl_value (digits : Bytes) :
    digits.foldl (fun n b => 10 * n + digitValue b) n = n * 10 ^ digits.length + value digits := by
  induction digits generalizing n with
  | nil => simp [value]
  | cons b digits ih =>
    simp only [value, foldl_cons, length_cons, mul_zero, zero_add]
    rw [ih (10 * n + digitValue b), ih (digitValue b)]
    ring

@[simp]
lemma value_append (xs ys : Bytes) : value (xs ++ ys) = value xs * 10 ^ ys.length + value ys := by
  rw [value, foldl_append, foldl_value]
  rfl

@[simp]
lemma value_zeros : value (Bytes.repeated n 48) = 0 := by
  induction n with
  | zero => rfl
  | succ n ih =>
    have hcons : Bytes.repeated (n + 1) 48 = [48] ++ Bytes.repeated n 48 := rfl
    have hzero : value [48] = 0 := by decide
    rw [hcons, value_append, ih, hzero, zero_mul]

/-! ### Natural numbers -/

lemma ofNat_ne_nil : ofNat n ≠ [] := by
  rw [ofNat]
  split <;> simp

/-- All bytes of a text are digits. -/
abbrev AllDigits (text : Bytes) : Prop :=
  ∀ b ∈ text, isDigit b = true

lemma ofNat_all_isDigit : AllDigits (ofNat n) := by
  fun_induction ofNat n with
  | case1 n h => simp [AllDigits, isDigit_digit]
  | case2 n h ih =>
    intro b hb
    rcases mem_append.mp hb with hb | hb
    · exact ih b hb
    · rw [mem_singleton.mp hb]
      exact isDigit_digit n

@[simp]
lemma value_ofNat : value (ofNat n) = n := by
  have hdigit : ∀ d, value [digit d] = d % 10 := by
    simp [value, digitValue_digit]
  fun_induction ofNat n with
  | case1 n h => rw [hdigit]; omega
  | case2 n h ih =>
    rw [value_append, hdigit, length_singleton]
    omega

lemma ofNat_injective {m n : Nat} (h : ofNat m = ofNat n) : m = n := by
  rw [← value_ofNat m, h, value_ofNat]

lemma ofNat_eq_cons : ∃ b bs, ofNat n = b :: bs ∧ isDigit b = true := by
  obtain ⟨b, bs, h⟩ := exists_cons_of_ne_nil (ofNat_ne_nil n)
  exact ⟨b, bs, h, ofNat_all_isDigit n b (by rw [h]; exact mem_cons_self)⟩

lemma ofNat_ne_cons {n : Nat} {b : UInt8} {bs : Bytes} (hb : isDigit b = false) :
    ofNat n ≠ b :: bs := by
  intro h
  obtain ⟨b', bs', h', hb'⟩ := ofNat_eq_cons n
  rw [h', cons.injEq] at h
  rw [h.1, hb] at hb'
  cases hb'

/-! ### Integers -/

section Digits

variable {text : Bytes} (hne : text ≠ []) (hd : AllDigits text)

include hne hd

lemma readNat?_digits : readNat? text = some (value text) :=
  if_pos ⟨hne, all_eq_true.mpr hd⟩

lemma readInt?_digits : readInt? text = if value text < 2 ^ 63 then some (value text : Int)
    else none := by
  have hread : readInt? text = ((readNat? text).map Int.ofNat).filter inWord := by
    obtain ⟨b, bs, rfl⟩ := exists_cons_of_ne_nil hne
    have hb := hd b mem_cons_self
    simp only [readInt?]
    split
    · next h => rw [(cons.inj h).1] at hb; cases hb
    · next h => rw [(cons.inj h).1] at hb; cases hb
    · rfl
  rw [hread, readNat?_digits hne hd, Option.map_some, Option.filter_some]
  congr 1
  simp only [inWord, Int.ofNat_eq_natCast, Bool.and_eq_true, decide_eq_true_eq, eq_iff_iff]
  omega

lemma readInt?_minus :
    readInt? (45 :: text) = if value text ≤ 2 ^ 63 then some (-(value text : Int)) else none := by
  have hread : readInt? (45 :: text) = (some (-(value text : Int))).filter inWord := by
    simp only [readInt?, readNat?_digits hne hd]
    rfl
  rw [hread, Option.filter_some]
  congr 1
  simp only [inWord, Bool.and_eq_true, decide_eq_true_eq, eq_iff_iff]
  omega

end Digits

lemma eq_of_readInt?_ofNat {n : Nat} {p : Int} (h : readInt? (ofNat n) = some p) : p = n := by
  rw [readInt?_digits (ofNat_ne_nil n) (ofNat_all_isDigit n), value_ofNat] at h
  split_ifs at h
  exact (Option.some.inj h).symm

lemma ofInt_injective {m n : Int} (h : ofInt m = ofInt n) : m = n := by
  -- A minus sign is no digit, so the texts agree in the sign as well.
  have hsign : ∀ k l, ofNat k ≠ 45 :: ofNat l := fun _ _ => ofNat_ne_cons (by decide)
  cases m with
  | ofNat m =>
    cases n with
    | ofNat n => rw [ofNat_injective h]
    | negSucc n => exact absurd h (hsign _ _)
  | negSucc m =>
    cases n with
    | ofNat n => exact absurd h.symm (hsign _ _)
    | negSucc n =>
      have := ofNat_injective (cons.inj h).2
      rw [Nat.succ_injective this]

end Decimal

end Minilang
