import Minilang.Proofs.Text.Decimal
import Minilang.Tac.Lowering
import Mathlib.Data.Set.Lattice
import Mathlib.Order.Interval.Set.LinearOrder

/-!
# Pieces of code

A piece of three-address code is known by the registers it writes, the numbers of its labels, the
labels outside of it that it jumps to, and the registers that have to be written before it.  Two
pieces make a larger one if their labels have different numbers.  A piece that jumps to no label
outside of it, that needs no registers but the parameters, and that ends with a return is the body
of a valid function.
-/

namespace Minilang.Tac

open List

/-! ### Names of labels -/

variable {K K' : Set Nat} {l : Bytes}

lemma digits_of_freshName (stem : Bytes) (k : Nat) :
    ((Bytes.concat [stem, ".", Decimal.ofNat k]).reverse.takeWhile Decimal.isDigit).reverse =
      Decimal.ofNat k := by
  have hconcat : Bytes.concat [stem, ".", Decimal.ofNat k] = stem ++ 46 :: Decimal.ofNat k := by
    simp only [Bytes.concat, flatten_cons, flatten_nil, append_nil]
    rfl
  have hdigits : Decimal.AllDigits (Decimal.ofNat k).reverse := fun b hb =>
    Decimal.ofNat_all_isDigit k b (mem_reverse.mp hb)
  have hpoint : (46 :: stem.reverse).takeWhile Decimal.isDigit = [] :=
    takeWhile_cons_of_neg (by decide)
  rw [hconcat, reverse_append, reverse_cons, append_assoc, singleton_append,
    takeWhile_append_of_pos hdigits, hpoint, append_nil, reverse_reverse]

lemma freshName_injective {stem stem' : Bytes} {k k' : Nat}
    (h : Bytes.concat [stem, ".", Decimal.ofNat k] = Bytes.concat [stem', ".", Decimal.ofNat k']) :
    k = k' := by
  apply Decimal.ofNat_injective
  rw [← digits_of_freshName stem k, h, digits_of_freshName]

/-- The label has one of the numbers. -/
def Numbered (K : Set Nat) (l : Bytes) : Prop :=
  ∃ stem, ∃ k ∈ K, l = Bytes.concat [stem, ".", Decimal.ofNat k]

lemma Numbered.disjoint (h : Numbered K l) (h' : Numbered K' l) : ∃ k ∈ K, k ∈ K' := by
  obtain ⟨stem, k, hk, rfl⟩ := h
  obtain ⟨stem', k', hk', heq⟩ := h'
  exact ⟨k, hk, freshName_injective heq ▸ hk'⟩

/-! ### Registers and labels of code -/

variable {code xs ys : Code} {W' W : Set Nat} {v : Operand} {r : Nat}

/-- The labels in code. -/
def labelsOf (code : Code) : List Bytes :=
  code.filterMap fun i => i.val.label?

/-- The registers that have been written after code. -/
def after (W : Set Nat) (code : Code) : Set Nat :=
  W ∪ {r | ∃ i ∈ code, i.val.dst? = some r}

/-- Every register is written before it is read, in the order of the instructions. -/
def Reads (W : Set Nat) : Code → Prop
  | [] => True
  | i :: is => (∀ r, .reg r ∈ i.val.uses → r ∈ W) ∧ Reads (after W [i]) is

lemma labelsOf_append (xs ys : Code) : labelsOf (xs ++ ys) = labelsOf xs ++ labelsOf ys :=
  filterMap_append

lemma mem_labelsOf : l ∈ labelsOf code ↔ ∃ i ∈ code, i.val.label? = some l :=
  mem_filterMap

lemma subset_after (W : Set Nat) (code : Code) : W ⊆ after W code :=
  Set.subset_union_left

lemma Subset.after (h : W ⊆ W') (code : Code) : W ⊆ after W' code :=
  h.trans (subset_after W' code)

lemma after_nil (W : Set Nat) : after W [] = W := by
  simp [after]

lemma after_append (W : Set Nat) (xs ys : Code) : after W (xs ++ ys) = after (after W xs) ys := by
  ext r
  simp [after, or_and_right, exists_or, or_assoc]

lemma after_mono (h : W ⊆ W') (code : Code) : after W code ⊆ after W' code :=
  Set.union_subset_union_left _ h

lemma dst_mem_after {i : Located Instr} (hi : i ∈ code) (hr : i.val.dst? = some r) :
    r ∈ after W code :=
  .inr ⟨i, hi, hr⟩

lemma reads_append : Reads W (xs ++ ys) ↔ Reads W xs ∧ Reads (after W xs) ys := by
  induction xs generalizing W with
  | nil => simp [Reads, after_nil]
  | cons i xs ih =>
    have hafter : after W (i :: xs) = after (after W [i]) xs := after_append W [i] xs
    rw [cons_append, Reads, Reads, ih, hafter, and_assoc]

lemma Reads.mono (h : Reads W code) (hW : W ⊆ W') : Reads W' code := by
  induction code generalizing W W' with
  | nil => trivial
  | cons i is ih => exact ⟨fun r hr => hW (h.1 r hr), ih h.2 (after_mono hW [i])⟩

/-- An operand can be read once registers have been written. -/
def Operand.Known (W : Set Nat) (v : Operand) : Prop :=
  ∀ r, v = .reg r → r ∈ W

lemma Operand.Known.mono (h : v.Known W) (hW : W ⊆ W') : v.Known W' :=
  fun r hr => hW (h r hr)

lemma Operand.known_lit (W : Set Nat) (l : Lit) : (lit l).Known W :=
  nofun

lemma Operand.known_reg (h : r ∈ W) : (reg r).Known W := by
  rintro _ ⟨⟩
  exact h

lemma Operand.known_pair {w : Operand} (hv : v.Known W) (hw : w.Known W) :
    ∀ x ∈ [v, w], x.Known W :=
  forall_mem_cons.mpr ⟨hv, forall_mem_singleton.mpr hw⟩

/-! ### Pieces -/

/-- A piece of code: it writes registers in `V`, its labels have numbers in `K`, its jumps go to
labels of its own or to those in `J`, and it reads what has been written before. -/
structure Piece (V K : Set Nat) (J : Set Bytes) (W : Set Nat) (code : Code) : Prop where
  writes : ∀ i ∈ code, ∀ d, i.val.dst? = some d → d ∈ V
  reads : Reads W code
  nodup : (labelsOf code).Nodup
  numbered : ∀ l ∈ labelsOf code, Numbered K l
  jumps : ∀ i ∈ code, ∀ l, i.val.target? = some l → l ∈ labelsOf code ∨ l ∈ J

namespace Piece

variable {V V' : Set Nat} {J J' : Set Bytes}

lemma nil : Piece V K J W [] where
  writes := by simp
  reads := trivial
  nodup := nodup_nil
  numbered := by simp [labelsOf]
  jumps := by simp

lemma append (hx : Piece V K J W xs) (hy : Piece V K' J (after W xs) ys)
    (hK : ∀ k ∈ K, k ∉ K') : Piece V (K ∪ K') J W (xs ++ ys) where
  writes i hi d hd := by
    rcases mem_append.mp hi with hi | hi
    · exact hx.writes i hi d hd
    · exact hy.writes i hi d hd
  reads := reads_append.mpr ⟨hx.reads, hy.reads⟩
  nodup := by
    rw [labelsOf_append]
    refine nodup_append.mpr ⟨hx.nodup, hy.nodup, fun l hl l' hl' heq => ?_⟩
    obtain ⟨k, hk, hk'⟩ := (hx.numbered l hl).disjoint (heq ▸ hy.numbered l' hl')
    exact hK k hk hk'
  numbered l hl := by
    rw [labelsOf_append] at hl
    rcases mem_append.mp hl with hl | hl
    · obtain ⟨stem, k, hk, heq⟩ := hx.numbered l hl
      exact ⟨stem, k, .inl hk, heq⟩
    · obtain ⟨stem, k, hk, heq⟩ := hy.numbered l hl
      exact ⟨stem, k, .inr hk, heq⟩
  jumps i hi l hl := by
    rw [labelsOf_append, mem_append]
    rcases mem_append.mp hi with hi | hi
    · exact (hx.jumps i hi l hl).imp_left .inl
    · exact (hy.jumps i hi l hl).imp_left .inr

lemma mono (h : Piece V K J W xs) (hV : V ⊆ V') (hK : K ⊆ K') (hJ : J ⊆ J') :
    Piece V' K' J' W xs where
  writes i hi d hd := hV (h.writes i hi d hd)
  reads := h.reads
  nodup := h.nodup
  numbered l hl := by
    obtain ⟨stem, k, hk, heq⟩ := h.numbered l hl
    exact ⟨stem, k, hK hk, heq⟩
  jumps i hi l hl := (h.jumps i hi l hl).imp_right fun hl => hJ hl

lemma mono_reads (h : Piece V K J W xs) (hW : W ⊆ W') : Piece V K J W' xs :=
  ⟨h.writes, h.reads.mono hW, h.nodup, h.numbered, h.jumps⟩

lemma snoc (hx : Piece V K J W xs) (hy : Piece V ∅ J (after W xs) ys) :
    Piece V K J W (xs ++ ys) := by
  have h := hx.append hy fun _ _ => Set.notMem_empty _
  rwa [Set.union_empty] at h

lemma cons (hx : Piece V ∅ J W xs) (hy : Piece V K J (after W xs) ys) :
    Piece V K J W (xs ++ ys) := by
  have h := hx.append hy fun _ hk => absurd hk (Set.notMem_empty _)
  rwa [Set.empty_union] at h

lemma close (h : Piece V K J W xs) (hK : K ⊆ K') (hJ : ∀ l ∈ J, l ∈ labelsOf xs) :
    Piece V K' ∅ W xs where
  writes := h.writes
  reads := h.reads
  nodup := h.nodup
  numbered := (h.mono (Set.Subset.refl V) hK (Set.Subset.refl J)).numbered
  jumps i hi l hl := .inl ((h.jumps i hi l hl).elim id (hJ l))

/-! ### Single instructions -/

variable {span : Span} {i : Instr} {is : Code}

lemma single (hlabel : i.label? = none) (htarget : ∀ l, i.target? = some l → l ∈ J)
    (hwrites : ∀ d, i.dst? = some d → d ∈ V) (huses : ∀ v ∈ i.uses, v.Known W) :
    Piece V ∅ J W [⟨span, i⟩] where
  writes j hj d hd := by
    obtain rfl := mem_singleton.mp hj
    exact hwrites d hd
  reads := ⟨fun r hr => huses _ hr r rfl, trivial⟩
  nodup := by simp [labelsOf, hlabel]
  numbered := by simp [labelsOf, hlabel]
  jumps j hj l hl := by
    obtain rfl := mem_singleton.mp hj
    exact .inr (htarget l hl)

lemma plain (hlabel : i.label? = none) (htarget : i.target? = none)
    (hwrites : ∀ d, i.dst? = some d → d ∈ V) (huses : ∀ v ∈ i.uses, v.Known W) :
    Piece V ∅ J W [⟨span, i⟩] :=
  single hlabel (by simp [htarget]) hwrites huses

lemma silent (hlabel : i.label? = none) (htarget : i.target? = none) (hdst : i.dst? = none)
    (huses : ∀ v ∈ i.uses, v.Known W) : Piece V ∅ J W [⟨span, i⟩] := by
  refine .plain hlabel htarget (fun d hd => ?_) huses
  rw [hdst] at hd
  cases hd

lemma label (hl : Numbered K l) : Piece V K J W [⟨span, .label l⟩] where
  writes j hj d hd := by
    obtain rfl := mem_singleton.mp hj
    cases hd
  reads := ⟨nofun, trivial⟩
  nodup := by simp [labelsOf, Instr.label?]
  numbered l' hl' := by
    have heq : l' = l := by simpa [labelsOf, Instr.label?] using hl'
    exact heq ▸ hl
  jumps j hj l hl := by
    obtain rfl := mem_singleton.mp hj
    cases hl

lemma jump (hl : l ∈ J) : Piece V ∅ J W [⟨span, .jump l⟩] := by
  refine single rfl ?_ nofun nofun
  rintro _ ⟨⟩
  exact hl

lemma jumpUnless (hv : v.Known W) (hl : l ∈ J) : Piece V ∅ J W [⟨span, .jumpUnless v l⟩] := by
  refine single rfl ?_ nofun ?_
  · rintro _ ⟨⟩
    exact hl
  · simpa [Instr.uses] using hv

lemma assign {d : Nat} (hd : d ∈ V) (hv : v.Known W) : Piece V ∅ J W [⟨span, .assign d v⟩] := by
  refine plain rfl rfl ?_ ?_
  · rintro _ ⟨⟩
    exact hd
  · simpa [Instr.uses] using hv

end Piece

end Minilang.Tac
