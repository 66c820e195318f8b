import Minilang.Proofs.Bytecode.Refinement
import Minilang.Tac.Folding

/-!
# Folding keeps what a program does

An operation on literals has the same result at every time, so the instruction that replaces it does
the same in every state.  Folding neither adds nor removes nor moves instructions, so a program and
the folded program go through the same states, apart from the code that the calls run.  Their
bytecode is another, but on the machine it does what the two programs do.
-/

namespace Minilang

variable {cap : Int}

namespace Tac

/-! ### Operations on literals -/

variable {p : Program} {x v : Value} {l : Lit}

lemma Operand.eq_lit_of_value? {x : Operand} (h : x.value? = some v) : ∃ l, x = .lit l := by
  cases x with
  | lit l => exact ⟨l, rfl⟩
  | reg r => cases h
  | missing => cases h

lemma Lit.eval_of_value? (h : l.value? = some v) : l.eval p = v := by
  cases l <;> cases h <;> rfl

/-- A value of a basic type, which does not refer to the heap. -/
def IsBasic : Value → Prop
  | .int _ | .float _ | .bool _ | .string _ => True
  | _ => False

lemma Lit.isBasic_of_value? (h : l.value? = some v) : IsBasic v := by
  cases l <;> cases h <;> trivial

lemma equal_of_isBasic (hx : IsBasic x) (h h' : Heap) (y : Value) : h.equal x y = h'.equal x y := by
  unfold Heap.equal
  cases x <;> first
    | exact hx.elim
    | cases y <;> simp [Heap.compare]

lemma binary_of_isBasic (hx : IsBasic x) (h h' : Heap) (op : BinaryOp) (y : Value) :
    Value.binary h op x y = Value.binary h' op x y := by
  cases op with
  | eq | ne => simp [Value.binary, equal_of_isBasic hx h h' y]
  | _ => rfl

lemma primitive_of_isBasic (hx : IsBasic x) (h h' : Heap) (op : Primitive) :
    Value.primitive h op x = Value.primitive h' op x := by
  cases x <;> first
    | exact hx.elim
    | cases op <;> rfl

lemma eval_of_ofValue? (h : Lit.ofValue? v = some l) : l.eval p = v := by
  cases v <;> cases h <;> rfl

/-! ### Instructions -/

variable {i : Instr} {d : Nat} (s : State)

/-- The instruction, folded if it can be. -/
def Instr.folded (i : Instr) : Instr := i.fold?.getD i

lemma Instr.fold?_eq_some {j : Instr} (h : i.fold? = some j) :
    ∃ d v l, i.result? = some (d, v) ∧ Lit.ofValue? v = some l ∧ j = .assign d (.lit l) := by
  simp only [fold?, Option.bind_eq_bind, Option.bind_eq_some_iff] at h
  obtain ⟨⟨d, v⟩, hr, l, hl, hj⟩ := h
  exact ⟨d, v, l, hr, hl, (Option.some.inj hj).symm⟩

lemma ok_of_toOption {ε α : Type} {r : Except ε α} {a : α} (h : r.toOption = some a) :
    r = .ok a := by
  cases r <;> cases h
  rfl

/-- The operations that have a result: those on literals that do not fail. -/
theorem Instr.result?_cases (h : i.result? = some (d, v)) :
    (∃ op l l' a b, i = .binary d (.known op) (.lit l) (.lit l') ∧ l.value? = some a ∧
      l'.value? = some b ∧ Value.binary .empty op a b = .ok v) ∨
    ∃ op l a, i = .unary d (.known op) (.lit l) ∧ l.value? = some a ∧
      Value.primitive .empty op a = .ok v := by
  cases i with
  | binary d' op x y =>
    cases op with
    | unknown c => cases h
    | known op =>
      simp only [result?, Option.bind_eq_bind, Option.bind_eq_some_iff] at h
      obtain ⟨a, ha, b, hb, w, hw, heq⟩ := h
      cases heq
      obtain ⟨l, rfl⟩ := Operand.eq_lit_of_value? ha
      obtain ⟨l', rfl⟩ := Operand.eq_lit_of_value? hb
      exact .inl ⟨op, l, l', a, b, rfl, ha, hb, ok_of_toOption hw⟩
  | unary d' op x =>
    cases op with
    | unknown c => cases h
    | known op =>
      simp only [result?, Option.bind_eq_bind, Option.bind_eq_some_iff] at h
      obtain ⟨a, ha, w, hw, heq⟩ := h
      cases heq
      obtain ⟨l, rfl⟩ := Operand.eq_lit_of_value? ha
      exact .inr ⟨op, l, a, rfl, ha, ok_of_toOption hw⟩
  | _ => cases h

lemma execute_of_result? {s : State} (h : i.result? = some (d, v)) :
    execute p cap s i = .ok (none, s.write d v) := by
  obtain ⟨op, l, l', a, b, rfl, ha, hb, hop⟩ | ⟨op, l, a, rfl, ha, hop⟩ := Instr.result?_cases h
  · rw [binary_of_isBasic (Lit.isBasic_of_value? ha) .empty s.heap] at hop
    simp only [execute, State.eval, Operand.eval, Lit.eval_of_value? ha, Lit.eval_of_value? hb,
      binaryResult, hop]
    rfl
  · rw [primitive_of_isBasic (Lit.isBasic_of_value? ha) .empty s.heap] at hop
    simp only [execute, State.eval, Operand.eval, Lit.eval_of_value? ha, unaryResult, hop]
    rfl

/-- **A folded instruction does what the instruction does.** -/
theorem execute_folded (p : Program) (cap : Int) (s : State) (i : Instr) :
    execute p cap s i.folded = execute p cap s i := by
  unfold Instr.folded
  cases hi : i.fold? with
  | none => rfl
  | some j =>
    obtain ⟨d, v, l, hr, hl, rfl⟩ := Instr.fold?_eq_some hi
    rw [execute_of_result? hr, Option.getD_some, execute, State.eval, Operand.eval,
      eval_of_ofValue? hl]

lemma Instr.label?_folded (i : Instr) : i.folded.label? = i.label? := by
  unfold folded
  cases hi : i.fold? with
  | none => rfl
  | some j =>
    obtain ⟨d, v, l, hr, -, rfl⟩ := fold?_eq_some hi
    cases i <;> first | rfl | cases hr

/-! ### States -/

/-- The call of the folded function. -/
def Call.fold (c : Call) : Call :=
  { c with func := c.func.fold.1 }

/-- The state of the folded program. -/
def State.fold : State :=
  { s with call := s.call.fold, callers := s.callers.map fun c => (c.1.fold, c.2) }

variable {s : State}

lemma Program.funcs_fold (p : Program) : p.fold.1.funcs = p.funcs.map fun f => f.fold.1 := by
  simp [fold]

lemma Func.body_fold (f : Func) :
    f.fold.1.body = f.body.map fun i => { i with val := i.val.folded } := rfl

lemma Func.place?_fold (f : Func) (l : Bytes) : f.fold.1.place? l = f.place? l := by
  simp [place?, body_fold, Function.comp_def, Instr.label?_folded]

lemma Program.index?_fold (p : Program) (name : Bytes) : p.fold.1.index? name = p.index? name := by
  simp only [index?, funcs_fold, List.findIdx?_map]
  rfl

lemma Lit.eval_fold (l : Lit) : l.eval p.fold.1 = l.eval p := by
  cases l <;> first | rfl | rw [eval, eval, Program.index?_fold]

lemma State.eval_fold : s.fold.eval p.fold.1 = s.eval p := by
  funext x
  cases x with
  | lit l => exact Lit.eval_fold l
  | reg r => rfl
  | missing => rfl

lemma State.jump_fold (l : Bytes) : s.fold.jump l = (s.jump l).fold := by
  have hlen : s.fold.call.func.body.length = s.call.func.body.length := by
    simp [fold, Call.fold, Func.body_fold]
  have hplace : s.fold.call.func.place? l = s.call.func.place? l := Func.place?_fold _ l
  rw [jump, hlen, hplace]
  rfl

lemma State.leave_fold (v : Value) : s.fold.leave v = ((s.leave v).1, (s.leave v).2.fold) := by
  obtain ⟨call, callers, heap, output⟩ := s
  cases callers with
  | nil => rfl
  | cons c cs => rfl

lemma callee_fold (p : Program) (v : Value) :
    callee p.fold.1 v = (callee p v).map fun f => f.fold.1 := by
  cases v with
  | func name index =>
    simp only [callee, Program.funcs_fold, List.getElem?_map]
    by_cases hneg : index < 0
    · simp only [if_pos hneg]
      rfl
    · simp only [if_neg hneg]
      cases p.funcs[index.toNat]? <;> rfl
  | _ => rfl

lemma enter_fold (d : Nat) (f : Func) (args : List Value) :
    enter cap s.fold d f.fold.1 args = (enter cap s d f args).map State.fold := by
  have hparams : f.fold.1.params = f.params := rfl
  have hcallers : s.fold.callers.length = s.callers.length := by simp [State.fold]
  unfold enter
  rw [hparams, hcallers]
  split
  · rfl
  · split <;> rfl

lemma execute_fold (p : Program) (cap : Int) (s : State) (i : Instr) :
    execute p.fold.1 cap s.fold i =
      (execute p cap s i).map fun r => (r.1, r.2.fold) := by
  have hheap : s.fold.heap = s.heap := rfl
  cases i with
  | assign d x => simp only [execute, State.eval_fold]; rfl
  | binary d op x y =>
    simp only [execute, State.eval_fold, hheap]
    cases binaryResult s.heap op (s.eval p x) (s.eval p y) <;> rfl
  | unary d op x =>
    simp only [execute, State.eval_fold, hheap]
    cases unaryResult s.heap op (s.eval p x) <;> rfl
  | call d f args =>
    simp only [execute, State.eval_fold, callee_fold]
    cases callee p (s.eval p f) with
    | error e => rfl
    | ok g =>
      simp only [Except.map, bind, Except.bind, enter_fold]
      cases enter cap s d g (args.map (s.eval p)) <;> rfl
  | ret value =>
    cases value with
    | none => simp only [execute, State.leave_fold]; rfl
    | some x => simp only [execute, State.eval_fold, State.leave_fold]; rfl
  | jumpUnless x l =>
    simp only [execute, State.eval_fold, State.jump_fold]
    cases condition (s.eval p x) with
    | error e => rfl
    | ok c => cases c <;> rfl
  | jump l => simp only [execute, State.jump_fold]; rfl
  | label l => rfl
  | array d xs => simp only [execute, State.eval_fold]; rfl
  | index d x i =>
    simp only [execute, State.eval_fold, hheap]
    cases position s.heap (s.eval p x) (s.eval p i) <;> rfl
  | setIndex x i v =>
    simp only [execute, State.eval_fold, hheap]
    cases position s.heap (s.eval p x) (s.eval p i) <;> rfl
  | field d x name =>
    simp only [execute, State.eval_fold, hheap]
    cases fieldOf s.heap (s.eval p x) name <;> rfl
  | setField x name v =>
    simp only [execute, State.eval_fold, hheap]
    cases fieldOf s.heap (s.eval p x) name <;> rfl
  | record d type names xs => simp only [execute, State.eval_fold]; rfl
  | print x => simp only [execute, State.eval_fold]; rfl

/-! ### Runs -/

/-- **One step of the folded program is one step of the program.** -/
theorem step_fold (p : Program) (cap : Int) (s : State) :
    step p.fold.1 cap s.fold = (step p cap s).map fun r => (r.1, r.2.fold) := by
  have hbody : s.fold.call.instr? =
      s.call.instr?.map fun i => { i with val := i.val.folded } := by
    rw [Call.instr?, show s.fold.call.func.body = _ from Func.body_fold _, List.getElem?_map]
    rfl
  rw [step, hbody, step]
  cases s.call.instr? with
  | none =>
    simp only [State.leave_fold]
    rfl
  | some i =>
    have hgoTo : s.fold.goTo (s.fold.call.pc + 1) = (s.goTo (s.call.pc + 1)).fold := rfl
    simp only [Option.map_some, execute_folded, hgoTo, execute_fold]
    cases execute p cap (s.goTo (s.call.pc + 1)) i.val <;> rfl

lemma runFrom_fold (p : Program) (cap : Int) (steps : Nat) (s : State) :
    runFrom p.fold.1 cap steps s.fold = runFrom p cap steps s := by
  induction steps generalizing s with
  | zero => rfl
  | succ n ih =>
    rw [runFrom, step_fold, runFrom]
    cases step p cap s with
    | error e => rfl
    | ok r =>
      obtain ⟨v?, s'⟩ := r
      cases v? with
      | none => exact ih s'
      | some v => rfl

lemma run_fold (p : Program) (cap : Int) (steps : Nat) :
    run p.fold.1 cap steps = run p cap steps := by
  have hfind : p.fold.1.find? "main" = (p.find? "main").map fun f => f.fold.1 := by
    simp only [Program.find?, Program.funcs_fold, List.find?_map]
    rfl
  have hstart : start p.fold.1 cap = (start p cap).map State.fold := by
    rw [start, hfind, start]
    cases p.find? "main" with
    | none => rfl
    | some f =>
      simp only [Option.map_some]
      split <;> rfl
  rw [run, hstart, run]
  cases start p cap with
  | error e => rfl
  | ok s => exact runFrom_fold p cap steps s

/-- **Folding any number of times keeps every run of a program.** -/
theorem run_foldTimes (n : Nat) (p : Program) (cap : Int) (steps : Nat) :
    run (p.foldTimes n).1 cap steps = run p cap steps := by
  induction n generalizing p with
  | zero => rfl
  | succ n ih =>
    have hsucc : (p.foldTimes (n + 1)).1 = (p.fold.1.foldTimes n).1 := rfl
    rw [hsucc, ih, run_fold]

end Tac

/-! ### The bytecode of folded programs -/

namespace Machine

variable {h h' : Heap} {o o' : Outcome}

/-- Outcomes that cannot be told apart: values of the same kind and with the same text, or faults
that differ at most in the number of the instruction. -/
inductive Outcome.Alike (h h' : Heap) : Outcome → Outcome → Prop
  | halted {v v' : Value} : v.kind = v'.kind → h.text v = h'.text v' →
      Outcome.Alike h h' (.halted v) (.halted v')
  | failed {e e' : Fault} : e.kind = e'.kind → e.func = e'.func → e.span = e'.span →
      e.cause = e'.cause → Outcome.Alike h h' (.failed e) (.failed e')
  | unfinished : Outcome.Alike h h' .unfinished .unfinished

/-- Runs that cannot be told apart. -/
structure Final.Alike (f f' : Final) : Prop where
  output : f.output = f'.output
  outcome : Outcome.Alike f.heap f'.heap f.outcome f'.outcome

lemma Outcome.Agrees.alike {h0 : Heap} {o0 : Outcome} (ho : Agrees h0 h o0 o)
    (ho' : Agrees h0 h' o0 o') : Alike h h' o o' := by
  cases ho with
  | halted hv hh =>
    obtain ⟨hv', hh'⟩ := ho'
    exact .halted (Value.kind_eq_of_canon (hv.symm.trans hv'))
      (Heap.text_eq_of_canon (hh.symm.trans hh') (hv.symm.trans hv'))
  | failed hkind hfunc hspan hcause =>
    obtain _ | ⟨hkind', hfunc', hspan', hcause'⟩ := ho'
    exact .failed (hkind.symm.trans hkind') (hfunc.symm.trans hfunc') (hspan.symm.trans hspan')
      (hcause.symm.trans hcause')
  | unfinished =>
    cases ho'
    exact .unfinished

lemma Outcome.Alike.symm (ho : Alike h h' o o') : Alike h' h o' o := by
  cases ho with
  | halted hkind htext => exact .halted hkind.symm htext.symm
  | failed hkind hfunc hspan hcause =>
    exact .failed hkind.symm hfunc.symm hspan.symm hcause.symm
  | unfinished => exact .unfinished

lemma Outcome.Alike.unfinished_iff (ho : Alike h h' o o') : o = .unfinished ↔ o' = .unfinished := by
  cases ho <;> simp

end Machine

namespace Bytecode

open Machine (Final)

lemma Agrees.alike {a : Tac.Final} {f f' : Final} (h : Agrees a f) (h' : Agrees a f') :
    f.Alike f' :=
  ⟨h.output.symm.trans h'.output, h.outcome.alike h'.outcome⟩

/-- The code of two programs that run alike: the machine comes as far with the second as with the
first, as it comes as far as the programs themselves. -/
theorem ProgramCode.run_alike {p p' : Tac.Program} {b b' : Program} (code : ProgramCode p b)
    (code' : ProgramCode p' b') (hrun : ∀ n, Tac.run p cap n = Tac.run p' cap n)
    (tracing : Bool) (k : Nat) :
    ∃ k', (Machine.run b cap tracing k).Alike (Machine.run b' cap tracing k') := by
  obtain ⟨n, hn⟩ := code.run_backward cap tracing k
  obtain ⟨k', hk'⟩ := code'.run_forward cap tracing n
  rw [hrun n] at hn
  exact ⟨k', hn.alike hk'⟩

/-- **Folding does not change what a program does.**  However far the machine has come with the
code of one of the two programs, it comes as far with that of the other, and to the same; and if it
never ends with one of them, it does not end with the other. -/
theorem generate_foldTimes_alike (p : Tac.Program) (n : Nat) {b b' : Program}
    (hb : generate p = .ok b) (hb' : generate (p.foldTimes n).1 = .ok b') (cap : Int)
    (tracing : Bool) :
    (∀ k, ∃ k', (Machine.run b cap tracing k).Alike (Machine.run b' cap tracing k')) ∧
    (∀ k', ∃ k, (Machine.run b cap tracing k).Alike (Machine.run b' cap tracing k')) ∧
    ((∀ k, (Machine.run b cap tracing k).outcome = .unfinished) ↔
      ∀ k', (Machine.run b' cap tracing k').outcome = .unfinished) := by
  have code := programCode_of_generate hb
  have code' := programCode_of_generate hb'
  have hrun : ∀ k, Tac.run p cap k = Tac.run (p.foldTimes n).1 cap k :=
    fun k => (Tac.run_foldTimes n p cap k).symm
  have forward := code.run_alike code' hrun tracing
  have backward := code'.run_alike code (fun k => (hrun k).symm) tracing
  refine ⟨forward, fun k' => (backward k').imp fun _ h => ⟨h.output.symm, h.outcome.symm⟩,
    ?_, ?_⟩
  · intro hforever k'
    obtain ⟨k, hk⟩ := backward k'
    exact hk.outcome.unfinished_iff.mpr (hforever k)
  · intro hforever k
    obtain ⟨k', hk'⟩ := forward k
    exact hk'.outcome.unfinished_iff.mpr (hforever k')

lemma foldTimes_looping (place : Nat → Span) :
    ((looping place joining).foldTimes 1).1 = looping place joined := by
  simp only [Tac.Program.foldTimes, Tac.Program.fold, Tac.Func.fold, Tac.foldBody, looping,
    List.map_cons, List.map_nil, List.mapIdx_cons, List.mapIdx_nil]
  rfl

theorem generate_foldTimes_alike_chatter : ∃ b b', generate chatter = .ok b ∧
    generate (chatter.foldTimes 1).1 = .ok b' ∧
    (∀ k, ∃ k', (Machine.run b 1 false k).Alike (Machine.run b' 1 false k')) ∧
    (∀ k', ∃ k, (Machine.run b 1 false k).Alike (Machine.run b' 1 false k')) ∧
    ((∀ k, (Machine.run b 1 false k).outcome = .unfinished) ↔
      ∀ k', (Machine.run b' 1 false k').outcome = .unfinished) := by
  obtain ⟨b, hb⟩ := generate_chatter
  obtain ⟨b', hb'⟩ := generate_looping (fun _ => .none) (.inr rfl)
  rw [← foldTimes_looping] at hb'
  exact ⟨b, b', hb, hb', generate_foldTimes_alike chatter 1 hb hb' 1 false⟩

end Bytecode

end Minilang
