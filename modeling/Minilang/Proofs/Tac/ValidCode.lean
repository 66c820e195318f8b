import Minilang.Proofs.Tac.LoweredCode

/-!
# The code of a lowering is valid

What a valid function is, said instruction by instruction: a register that is read is a parameter or
has been written by an instruction before (`Func.Valid.read_before`), and so the register exists.
Both lowerings, that of a checked program and that of a program of which nothing is known, either
reject the program or give code that passes the check (`lowering_ends_valid`).
-/

namespace Minilang.Tac

variable {before rest : Code} {i : Located Instr} {r : Nat} {f : Func}

lemma Reads.mem_after {W : Set Nat} (h : Reads W (before ++ i :: rest))
    (hr : .reg r ∈ i.val.uses) : r ∈ after W before :=
  (reads_append.mp h).2.1 r hr

namespace Func.Valid

variable (h : f.Valid)
include h

lemma read_before (hbody : f.body = before ++ i :: rest) (hr : .reg r ∈ i.val.uses) :
    r < f.params.length ∨ ∃ j ∈ before, j.val.dst? = some r := by
  have hreads := h.reads
  rw [hbody] at hreads
  exact hreads.mem_after hr

lemma read_lt (hi : i ∈ f.body) (hr : .reg r ∈ i.val.uses) : r < f.numVars := by
  obtain ⟨before, rest, hbody⟩ := List.append_of_mem hi
  rcases h.read_before hbody hr with hlt | ⟨j, hj, hdst⟩
  · exact hlt.trans_le h.params
  · exact h.writes j (hbody ▸ List.mem_append_left _ hj) r hdst

end Func.Valid

/-- What is said of a function by the instructions of its body: a register that is read exists and
is a parameter or has been written by an instruction before; a label stands at one place; a jump
goes to a label of the body; and the last instruction is a return. -/
structure Func.Sound (f : Func) : Prop where
  reads : ∀ before i rest, f.body = before ++ i :: rest → ∀ r, .reg r ∈ i.val.uses →
    r < f.numVars ∧ (r < f.params.length ∨ ∃ j ∈ before, j.val.dst? = some r)
  labels : ∀ l ∈ labelsOf f.body, (labelsOf f.body).count l = 1
  jumps : ∀ i ∈ f.body, ∀ l, i.val.target? = some l → l ∈ labelsOf f.body
  returns : ∃ span v?, f.body.getLast? = some ⟨span, .ret v?⟩

lemma Func.Valid.sound (h : f.Valid) : f.Sound where
  reads before _ _ hbody _ hr :=
    ⟨h.read_lt (hbody ▸ List.mem_append_right before List.mem_cons_self) hr, h.read_before hbody hr⟩
  labels _ hl := List.count_eq_one_of_mem h.labels hl
  jumps := h.jumps
  returns := h.returns

/-- How a lowering ends: the program is rejected, or its code passes the check. -/
inductive Ending (lowered : Except (Located LowerError) (List Func)) :
    Except LowerFailure Program → Prop where
  | rejected {e : Located LowerError} (h : lowered = .error e) :
    Ending lowered (.error (.rejected e))
  | valid {p : Program} (h : lowered = .ok p.funcs) (hcheck : p.check = .ok ())
      (hsound : ∀ f ∈ p.funcs, f.Sound) : Ending lowered (.ok p)

/-- The functions that come from declarations are the program, and they pass the check. -/
theorem ending_lowerWith {α : Type} (c : Lowering.Context α) (decls : List (FuncDecl α)) :
    Ending (Lowering.lowerFuncs c [] decls) (lowerWith c decls) := by
  rw [lowerWith_eq]
  cases h : Lowering.lowerFuncs c [] decls with
  | error e => exact .rejected rfl
  | ok fs =>
    have hvalid := Lowering.lowerFuncs_valid c h
    exact .valid rfl (checkFuncs_eq_ok_iff.mpr fun f hf => (hvalid f hf).toAccepted) fun f hf =>
      (hvalid f hf).sound

/-- **The code of a lowering is valid.**  Whether a program has been checked or nothing is known of
its expressions, if no function of it is rejected, then all of its functions, those of function
literals among them, pass the check and end with a return: no lowering ends because its code is not
valid. -/
theorem lowering_ends_valid {α : Type} : (∀ package : Package,
      Ending (Lowering.lowerFuncs
          ⟨id, package.defs, package.program.funcs.map fun f => f.name.text⟩ []
          package.program.funcs)
        (lower package)) ∧
    ∀ tree : Minilang.Program α,
      Ending (Lowering.lowerFuncs
          ⟨fun _ => .blank, [], (latestFuncs [] tree.funcs).map fun f => f.name.text⟩ []
          (latestFuncs [] tree.funcs))
        (lowerUnchecked tree) :=
  ⟨fun _ => ending_lowerWith _ _, fun _ => ending_lowerWith _ _⟩

end Minilang.Tac
