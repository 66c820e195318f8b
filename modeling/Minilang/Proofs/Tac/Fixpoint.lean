import Minilang.Proofs.Tac.Acceptance
import Minilang.Proofs.Tac.Folding

/-!
# One pass of folding is enough

A pass of folding replaces instructions where they stand, by assignments of literals to the same
registers.  So the labels and jumps, the places in the source and the registers that are written
stay as they are, and the check accepts a folded function exactly if it accepts the function: an
operation that is folded reads no register, and nor does what replaces it.  An assignment is never
folded, so a second pass finds nothing to do.
-/

namespace Minilang.Tac

open List

variable {i : Instr} {f : Func} (i : Instr)

/-! ### Instructions -/

lemma Instr.fold?_folded : i.folded.fold? = none := by
  unfold folded
  cases hi : i.fold? with
  | none => exact hi
  | some j =>
    obtain ⟨d, v, l, -, -, rfl⟩ := fold?_eq_some hi
    rfl

lemma Instr.folded_folded : i.folded.folded = i.folded := by
  rw [folded, fold?_folded, Option.getD_none]

/-- The pass counts the instructions that it changes. -/
theorem Instr.isSome_fold?_iff : i.fold?.isSome ↔ i.folded ≠ i := by
  constructor
  · intro hsome heq
    have hnone := i.fold?_folded
    rw [heq] at hnone
    simp [hnone] at hsome
  · intro hne
    cases hi : i.fold? with
    | none => exact absurd (by rw [folded, hi, Option.getD_none]) hne
    | some j => rfl

/-- An instruction is left as it is, or it reads literals only and is folded to one that writes the
same register. -/
theorem Instr.folded_cases :
    i.folded = i ∨ ∃ d l v, i.dst? = some d ∧ i.target? = none ∧ (∀ r, .reg r ∉ i.uses) ∧
      Lit.ofValue? v = some l ∧ i.folded = .assign d (.lit l) := by
  unfold folded
  cases hi : i.fold? with
  | none => exact .inl rfl
  | some j =>
    obtain ⟨d, v, l, hr, hl, rfl⟩ := fold?_eq_some hi
    obtain ⟨_, _, _, _, _, rfl, -⟩ | ⟨_, _, _, rfl, -⟩ := result?_cases hr <;>
      exact .inr ⟨d, l, v, rfl, rfl, by simp [uses], hl, rfl⟩

lemma Instr.dst?_folded : i.folded.dst? = i.dst? := by
  obtain heq | ⟨d, l, v, hdst, -, -, -, heq⟩ := i.folded_cases
  · rw [heq]
  · rw [heq, hdst]
    rfl

lemma Instr.target?_folded : i.folded.target? = i.target? := by
  obtain heq | ⟨d, l, v, -, htarget, -, -, heq⟩ := i.folded_cases
  · rw [heq]
  · rw [heq, htarget]
    rfl

lemma Instr.reg_mem_uses_folded {r : Nat} : .reg r ∈ i.folded.uses ↔ .reg r ∈ i.uses := by
  obtain heq | ⟨d, l, v, -, -, huses, -, heq⟩ := i.folded_cases
  · rw [heq]
  · rw [heq]
    exact iff_of_false (by simp [uses]) (huses r)

/-! ### The check -/

lemma labelsOf_fold (code : Code) :
    labelsOf (code.map fun i => { i with val := i.val.folded }) = labelsOf code := by
  rw [labelsOf, filterMap_map]
  exact filterMap_congr fun i _ => i.val.label?_folded

lemma Func.mem_body_fold {i : Located Instr} (h : i ∈ f.fold.1.body) :
    ∃ j ∈ f.body, i.val = j.val.folded := by
  obtain ⟨j, hj, rfl⟩ := mem_map.mp h
  exact ⟨j, hj, rfl⟩

lemma reads_fold {W : Set Nat} {code : Code} :
    Reads W (code.map fun i => { i with val := i.val.folded }) ↔ Reads W code := by
  induction code generalizing W with
  | nil => rfl
  | cons i is ih =>
    have hafter : after W [{ i with val := i.val.folded }] = after W [i] := by
      simp [after, Instr.dst?_folded]
    simp only [map_cons, Reads, Instr.reg_mem_uses_folded, hafter, ih]

/-- **The check accepts a folded function exactly if it accepts the function.** -/
theorem Func.accepted_fold (f : Func) : f.fold.1.Accepted ↔ f.Accepted := by
  have hparams : f.fold.1.params = f.params := rfl
  have hnumVars : f.fold.1.numVars = f.numVars := rfl
  simp only [accepted_iff, hparams, hnumVars, labelsOf_fold, body_fold, forall_mem_map,
    Instr.dst?_folded, Instr.target?_folded, reads_fold]

lemma Program.check_fold (p : Program) : p.fold.1.check = .ok () ↔ p.check = .ok () := by
  rw [check, check, checkFuncs_eq_ok_iff, checkFuncs_eq_ok_iff, funcs_fold, forall_mem_map]
  exact forall₂_congr fun f _ => f.accepted_fold

/-! ### Passes -/

lemma Func.fold_fold (f : Func) : f.fold.1.fold = (f.fold.1, 0) := by
  have hbody : f.fold.1.body.map (fun i => { i with val := i.val.folded }) = f.fold.1.body := by
    rw [body_fold, map_map]
    exact map_congr_left fun i _ => by simp only [Function.comp_apply, Instr.folded_folded]
  have hnone : f.fold.1.body.countP (fun i => i.val.fold?.isSome) = 0 := by
    rw [countP_eq_zero]
    intro i hi
    obtain ⟨j, -, hj⟩ := mem_body_fold hi
    rw [hj, Instr.fold?_folded]
    exact Bool.false_ne_true
  refine Prod.ext ?_ hnone
  exact congrArg (fun body => { f.fold.1 with body := body }) hbody

lemma Program.fold_fold (p : Program) : p.fold.1.fold = (p.fold.1, 0) := by
  have hfuncs : p.fold.1.funcs.map Func.fold = p.fold.1.funcs.map fun f => (f, 0) := by
    rw [funcs_fold, map_map, map_map]
    exact map_congr_left fun f _ => f.fold_fold
  have hzero (fs : List Func) : (fs.map fun _ => 0).foldl (· + ·) 0 = 0 := by
    induction fs with
    | nil => rfl
    | cons f fs ih => exact ih
  have hfold : p.fold.1.fold =
      (⟨(p.fold.1.funcs.map Func.fold).map (·.1)⟩,
        ((p.fold.1.funcs.map Func.fold).map (·.2)).foldl (· + ·) 0) := rfl
  rw [hfold, hfuncs, map_map, map_map]
  exact Prod.ext (congrArg mk (map_id _)) (hzero _)

lemma Program.foldTimes_fold (p : Program) (n : Nat) : p.fold.1.foldTimes n = (p.fold.1, 0) := by
  induction n with
  | zero => rfl
  | succ n ih => simp only [foldTimes, fold_fold, ih]

/-- What a pass keeps of an instruction: its place in the source, the register it writes, and all of
it if it is a label or a jump. -/
structure Kept (i j : Located Instr) : Prop where
  span : j.span = i.span
  dst : j.val.dst? = i.val.dst?
  label : j.val.label? = i.val.label?
  target : j.val.target? = i.val.target?
  flow : i.val.label?.isSome ∨ i.val.target?.isSome → j.val = i.val

lemma kept_folded (i : Located Instr) : Kept i { i with val := i.val.folded } where
  span := rfl
  dst := i.val.dst?_folded
  label := i.val.label?_folded
  target := i.val.target?_folded
  flow h := by
    obtain heq | ⟨d, l, v, hdst, htarget, -⟩ := i.val.folded_cases
    · exact heq
    · cases hi : i.val <;> simp_all [Instr.label?, Instr.target?, Instr.dst?]

lemma Func.count_fold (f : Func) :
    f.fold.2 = (f.body.zip f.fold.1.body).countP fun e => e.2.val ≠ e.1.val := by
  have hzip : f.body.zip (f.body.map fun i => { i with val := i.val.folded }) =
      f.body.map fun i => (i, { i with val := i.val.folded }) := by
    simpa using zip_map' (f := id)
  rw [body_fold, hzip, countP_map]
  refine countP_congr fun i _ => ?_
  simpa using i.val.isSome_fold?_iff

/-- **Folding keeps the shape of a function, and one pass of it is enough.**  A pass keeps the
instructions where they are, with what `Kept` says of each of them; it reports as many replacements
as there are instructions that differ; the check accepts what it makes of a function or a program
exactly if it accepts these; and a second pass changes nothing and reports nothing, so that any
number of passes gives the program and the count of one. -/
theorem fold_kept_once :
    (∀ f : Func, Forall₂ Kept f.body f.fold.1.body ∧ f.fold.1 = { f with body := f.fold.1.body } ∧
      f.fold.2 = ((f.body.zip f.fold.1.body).countP fun e => e.2.val ≠ e.1.val) ∧
      (f.fold.1.check = .ok () ↔ f.check = .ok ()) ∧ f.fold.1.fold = (f.fold.1, 0)) ∧
    ∀ p : Program, (p.fold.1.check = .ok () ↔ p.check = .ok ()) ∧
      ∀ n, p.foldTimes (n + 1) = p.foldTimes 1 := by
  refine ⟨fun f => ⟨?_, rfl, f.count_fold, ?_, f.fold_fold⟩, fun p => ⟨p.check_fold, fun n => ?_⟩⟩
  · rw [Func.body_fold, forall₂_map_right_iff, forall₂_same]
    exact fun i _ => kept_folded i
  · rw [Func.check_eq_ok_iff, Func.check_eq_ok_iff, Func.accepted_fold]
  · have hsucc (n : Nat) : p.foldTimes (n + 1) =
        ((p.fold.1.foldTimes n).1, p.fold.2 + (p.fold.1.foldTimes n).2) := rfl
    rw [hsucc, hsucc, Program.foldTimes_fold, Program.foldTimes_fold]

end Minilang.Tac
