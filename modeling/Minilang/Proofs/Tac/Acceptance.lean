import Minilang.Proofs.Tac.Pieces

/-!
# What the check finds out

The check of a function goes through its instructions with the set of the registers that have been
written.  It accepts the functions that read no register before an instruction has written it, have
no register out of range, define every label once and jump to their own labels only
(`Func.check_eq_ok_iff`).  A valid function also ends with a return.
-/

namespace Minilang.Tac

open List

variable {K W : Set Nat} {labels seen : Std.HashSet Bytes} {is : Code} {numVars : Nat}
  {written written' : Std.HashSet Nat} {i : Located Instr} {f : Func}

/-- What holds of a function that passes the check. -/
@[mk_iff]
structure Func.Accepted (f : Func) : Prop where
  params : f.params.length ≤ f.numVars
  writes : ∀ i ∈ f.body, ∀ d, i.val.dst? = some d → d < f.numVars
  reads : Reads {r | r < f.params.length} f.body
  labels : (labelsOf f.body).Nodup
  jumps : ∀ i ∈ f.body, ∀ l, i.val.target? = some l → l ∈ labelsOf f.body

/-- A function of valid code. -/
structure Func.Valid (f : Func) : Prop extends f.Accepted where
  returns : ∃ span v?, f.body.getLast? = some ⟨span, .ret v?⟩

lemma Piece.valid (h : Piece {r | r < f.numVars} K ∅ {r | r < f.params.length} f.body)
    (hparams : f.params.length ≤ f.numVars)
    (hreturns : ∃ span v?, f.body.getLast? = some ⟨span, .ret v?⟩) : f.Valid :=
  ⟨⟨hparams, h.writes, h.reads, h.nodup, fun i hi l hl => (h.jumps i hi l hl).resolve_right id⟩,
    hreturns⟩

lemma checkLabels_eq_ok_iff : checkLabels seen is = .ok labels ↔
    (labelsOf is).Nodup ∧ (∀ l ∈ labelsOf is, l ∉ seen) ∧
    seen.insertMany (labelsOf is) = labels := by
  induction is generalizing seen with
  | nil => simp [checkLabels, labelsOf]
  | cons i is ih =>
    rw [checkLabels]
    cases hl : i.val.label? with
    | none =>
      have hlabels : labelsOf (i :: is) = labelsOf is := filterMap_cons_none hl
      rw [hlabels]
      exact ih
    | some l =>
      have hlabels : labelsOf (i :: is) = l :: labelsOf is := filterMap_cons_some hl
      rw [hlabels, Std.HashSet.insertMany_cons]
      by_cases hseen : l ∈ seen
      · simp [hseen]
      · simp only [Std.HashSet.contains_iff_mem, if_neg hseen, ih,
          Std.HashSet.mem_insert, beq_iff_eq]
        grind

lemma firstUnwritten?_eq_none_iff {xs : List Operand} :
    firstUnwritten? numVars written xs = none ↔ ∀ r, .reg r ∈ xs → r < numVars ∧ r ∈ written := by
  induction xs with
  | nil => simp [firstUnwritten?]
  | cons x xs ih =>
    cases x with
    | reg r =>
      simp only [firstUnwritten?, mem_cons, Operand.reg.injEq, forall_eq_or_imp, ← ih]
      split <;> grind
    | lit l => simp [firstUnwritten?, ih]
    | missing => simp [firstUnwritten?, ih]

lemma checkInstr_eq_ok_iff : checkInstr numVars labels written i = .ok written' ↔
    (∀ r, .reg r ∈ i.val.uses → r < numVars ∧ r ∈ written) ∧
      (∀ d, i.val.dst? = some d → d < numVars) ∧ (∀ l, i.val.target? = some l → l ∈ labels) ∧
      i.val.dst?.elim written written.insert = written' := by
  rw [← firstUnwritten?_eq_none_iff, checkInstr]
  cases firstUnwritten? numVars written i.val.uses with
  | some r => simp
  | none =>
    -- What can still be wrong is the register that is written, or the label of a jump.
    cases i.val.dst? <;> cases i.val.target? <;>
      simp [pure, Except.pure, bind, Except.bind, throw, throwThe, MonadExceptOf.throw] <;> grind

lemma checkInstrs_eq_ok_iff (hW : ∀ r, r ∈ written ↔ r ∈ W) (hlt : ∀ r ∈ W, r < numVars) :
    checkInstrs numVars labels written is = .ok () ↔
      Reads W is ∧ (∀ i ∈ is, ∀ d, i.val.dst? = some d → d < numVars) ∧
        ∀ i ∈ is, ∀ l, i.val.target? = some l → l ∈ labels := by
  induction is generalizing written W with
  | nil => simp [checkInstrs, Reads]
  | cons i is ih =>
    have hcons : checkInstrs numVars labels written (i :: is) = .ok () ↔
        ∃ w, checkInstr numVars labels written i = .ok w ∧
        checkInstrs numVars labels w is = .ok () := by
      rw [checkInstrs]
      cases checkInstr numVars labels written i <;> simp
    have hafter : ∀ r, r ∈ i.val.dst?.elim written written.insert ↔ r ∈ after W [i] := by
      cases hd : i.val.dst? <;> simp [after, hd, hW, or_comm, eq_comm (a := (_ : Nat))]
    have hrange (hdst : ∀ d, i.val.dst? = some d → d < numVars) :
        ∀ r ∈ after W [i], r < numVars := by
      rintro r (hr | ⟨j, hj, hd⟩)
      · exact hlt r hr
      · exact hdst r (mem_singleton.mp hj ▸ hd)
    have hrest (hdst : ∀ d, i.val.dst? = some d → d < numVars) := ih hafter (hrange hdst)
    simp only [hcons, checkInstr_eq_ok_iff, Reads, forall_mem_cons]
    grind

/-- **The check accepts exactly these functions.** -/
theorem Func.check_eq_ok_iff : f.check = .ok () ↔ f.Accepted := by
  rw [accepted_iff, check, ← getElem?_eq_none_iff]
  cases hparams : f.params[f.numVars]? with
  | some param => simp
  | none =>
    have hstart : ∀ r, r ∈ Std.HashSet.ofList (range f.params.length) ↔ r < f.params.length := by
      simp
    have hlt : ∀ r, r < f.params.length → r < f.numVars := fun r hr =>
      hr.trans_le (getElem?_eq_none_iff.mp hparams)
    cases hlabels : checkLabels ∅ f.body with
    | error e =>
      have hnot : ¬(labelsOf f.body).Nodup := by
        intro hnodup
        have hok : checkLabels ∅ f.body = .ok _ := checkLabels_eq_ok_iff.mpr ⟨hnodup, by simp, rfl⟩
        rw [hok] at hlabels
        cases hlabels
      simp [hnot, bind, Except.bind]
    | ok labels =>
      obtain ⟨hnodup, -, rfl⟩ := checkLabels_eq_ok_iff.mp hlabels
      simp [hnodup, bind, Except.bind, checkInstrs_eq_ok_iff (W := {r | r < f.params.length}) hstart
        hlt, and_left_comm]

lemma checkFuncs_eq_ok_iff {fs : List Func} : checkFuncs fs = .ok () ↔ ∀ f ∈ fs, f.Accepted := by
  induction fs with
  | nil => simp [checkFuncs]
  | cons f fs ih =>
    rw [checkFuncs, forall_mem_cons, ← ih, ← Func.check_eq_ok_iff]
    cases f.check <;> simp

end Minilang.Tac
