import Minilang.Proofs.Bytecode.Simulation

/-!
# The machine runs three-address code

The bytecode of a program does on the machine what the program does: it prints the same lines,
halts with the same result, fails with the same fault of the same instruction, or runs forever as
well.  However far one of the two has come, the other comes as far.
-/

namespace Minilang

/-! ### Outcomes -/

namespace Machine

/-- Two outcomes that differ at most in the payloads of NaNs and in the numbers of instructions. -/
inductive Outcome.Agrees (h h' : Heap) : Outcome → Outcome → Prop
  | halted {v v' : Value} : v.canon = v'.canon → h.canon = h'.canon →
      Outcome.Agrees h h' (.halted v) (.halted v')
  | failed {e e' : Fault} : e.kind = e'.kind → e.func = e'.func → e.span = e'.span →
      e.cause = e'.cause → Outcome.Agrees h h' (.failed e) (.failed e')
  | unfinished : Outcome.Agrees h h' .unfinished .unfinished

lemma Outcome.Agrees.unfinished_iff {h h' : Heap} {o o' : Outcome}
    (ho : Agrees h h' o o') : o = .unfinished ↔ o' = .unfinished := by
  cases ho <;> simp

/-! ### Runs of the machine -/

variable {b : Bytecode.Program} {cap : Int} (tracing : Bool) {s s' : State} {k : Nat}

lemma runFrom_succ (h : (step b cap).run s = .ok none s') (trace : Array Bytes) :
    ∃ trace', ∀ m, runFrom b cap tracing (m + 1) trace s =
      runFrom b cap tracing m trace' s' := by
  exact ⟨_, fun m => by rw [runFrom, h]⟩

lemma Quiet.runFrom_add (h : Quiet b cap k s s') (trace : Array Bytes) :
    ∃ trace', ∀ m, runFrom b cap tracing (k + m) trace s =
      runFrom b cap tracing m trace' s' := by
  induction h generalizing trace with
  | refl s => exact ⟨trace, fun m => by rw [zero_add]⟩
  | step hstep _ _ ih =>
    obtain ⟨trace1, h1⟩ := runFrom_succ tracing hstep trace
    obtain ⟨trace2, h2⟩ := ih trace1
    exact ⟨trace2, fun m => by rw [add_right_comm, h1, h2]⟩

lemma Quiet.runFrom_le (h : Quiet b cap k s s') {m : Nat} (hm : m ≤ k) (trace : Array Bytes) :
    (runFrom b cap tracing m trace s).outcome = .unfinished ∧
      (runFrom b cap tracing m trace s).output = s.output := by
  induction h generalizing m trace with
  | refl s =>
    obtain rfl := Nat.le_zero.mp hm
    exact ⟨rfl, rfl⟩
  | step hstep ho _ ih =>
    cases m with
    | zero => exact ⟨rfl, rfl⟩
    | succ m =>
      obtain ⟨trace', h'⟩ := runFrom_succ tracing hstep trace
      rw [h', ← ho]
      exact ih (Nat.le_of_succ_le_succ hm) trace'

end Machine

namespace Bytecode

open Machine (Quiet)

/-- A run of three-address code and a run of the machine that have come to the same. -/
structure Agrees (a : Tac.Final) (c : Machine.Final) : Prop where
  output : a.output = c.output
  outcome : Machine.Outcome.Agrees a.heap c.heap a.outcome c.outcome

variable {p : Tac.Program} {b : Program} {cap : Int} {tracing : Bool} {t : Tac.State}
  {s : Machine.State}

lemma Related.output_eq (h : Related p b t s) : s.output = t.output := by
  obtain ⟨w, ip, h, code, rfl, -⟩ := h
  rfl

/-- What the machine does after a step of three-address code, on all runs from there. -/
def Continues (p : Tac.Program) (b : Program) (cap : Int) (tracing : Bool) (t : Tac.State)
    (s : Machine.State) : Prop :=
  (∃ k s1 s' t', Quiet b cap k s s1 ∧ (Machine.step b cap).run s1 = .ok none s' ∧
    Tac.step p cap t = .ok (none, t') ∧ Related p b t' s') ∨
  ∃ k s1, Quiet b cap k s s1 ∧ ∀ n m trace, Agrees (Tac.runFrom p cap (n + 1) t)
    (Machine.runFrom b cap tracing (m + 1) trace s1)

lemma Related.continues (hr : Related p b t s) (span : Span)
    {r : Except Tac.Reason (Option Value × Tac.State)} (hstep : Tac.step p cap t = match r with
      | .ok r => .ok r
      | .error e => .error (t.call.fault span e))
    (h : Follows p b cap t.call.func.name span s r) (tracing : Bool) :
    Continues p b cap tracing t s := by
  cases h with
  | go hq hs hrel => exact .inl ⟨_, _, _, _, hq, hs, hstep, hrel⟩
  | halt hq hs hv hh ho =>
    refine .inr ⟨_, _, hq, fun n m trace => ?_⟩
    rw [Tac.runFrom, hstep, Machine.runFrom, hs]
    exact ⟨ho.symm, .halted hv.symm hh.symm⟩
  | fail hq hs ho =>
    refine .inr ⟨_, _, hq, fun n m trace => ?_⟩
    rw [Tac.runFrom, hstep, Machine.runFrom, hs]
    exact ⟨(ho.trans hr.output_eq).symm, .failed rfl rfl rfl rfl⟩

section

variable (hb : ProgramCode p b) (cap : Int) (tracing : Bool)

include hb

/-- From related states: a label is passed, the machine comes to the next related state, or both
stop alike. -/
theorem Related.round (hr : Related p b t s) :
    (∃ t', Tac.step p cap t = .ok (none, t') ∧ Related p b t' s ∧
      t'.call.func.body.length - t'.call.pc < t.call.func.body.length - t.call.pc) ∨
    Continues p b cap tracing t s := by
  cases hi : t.call.instr? with
  | none =>
    have hstep : Tac.step p cap t = .ok (t.leave .null) := by rw [Tac.step, hi]
    exact .inr (hr.continues .none hstep (hr.end hi) tracing)
  | some i =>
    cases hlabel : i.val.label? with
    | none =>
      refine .inr (hr.continues i.span ?_ (hr.follows hb hi hlabel) tracing)
      rewrite [Tac.step, hi]
      rfl
    | some l =>
      have hval : i.val = .label l := by
        cases hv : i.val <;> simp_all [Tac.Instr.label?]
      have hlt := (getElem?_eq_some_iff.mp hi).1
      refine .inl ⟨t.goTo (t.call.pc + 1), ?_, hr.label hi hval, ?_⟩
      · rw [Tac.step, hi]
        simp only [hval]
        rfl
      · simp only [Tac.State.goTo]
        omega

/-! ### Whole runs -/

lemma Related.forward (n : Nat) : ∀ {t s}, Related p b t s → ∀ trace, ∃ m,
      Agrees (Tac.runFrom p cap n t) (Machine.runFrom b cap tracing m trace s) := by
  induction n with
  | zero => exact fun hr _ => ⟨0, hr.output_eq.symm, .unfinished⟩
  | succ n ih =>
    intro t s hr trace
    obtain ⟨t', hstep, hrel, -⟩ | ⟨k, s1, s', t', hq, hs, hstep, hrel⟩ | ⟨k, s1, hq, hstop⟩ :=
      hr.round hb cap tracing
    · rw [Tac.runFrom, hstep]
      exact ih hrel trace
    · obtain ⟨trace1, h1⟩ := hq.runFrom_add tracing trace
      obtain ⟨trace2, h2⟩ := Machine.runFrom_succ tracing hs trace1
      obtain ⟨m, hm⟩ := ih hrel trace2
      refine ⟨k + (m + 1), ?_⟩
      rw [Tac.runFrom, hstep, h1, h2]
      exact hm
    · obtain ⟨trace1, h1⟩ := hq.runFrom_add tracing trace
      refine ⟨k + (0 + 1), ?_⟩
      rw [h1]
      exact hstop n 0 trace1

/-- Three-address code comes as far as the machine.  Labels take no step of the machine, so the
induction is on the steps of the machine and then on the instructions that are left. -/
theorem Related.backward (m : Nat) : ∀ {t s}, Related p b t s → ∀ trace, ∃ n,
      Agrees (Tac.runFrom p cap n t) (Machine.runFrom b cap tracing m trace s) := by
  induction m using Nat.strong_induction_on with
  | _ m ihm =>
    intro t
    induction hrest : t.call.func.body.length - t.call.pc using Nat.strong_induction_on
      generalizing t with
    | _ rest ihr =>
      intro s hr trace
      have hquiet : ∀ {k s1}, Quiet b cap k s s1 → (∀ m' < m, ∀ trace, ∃ n, Agrees
          (Tac.runFrom p cap n t) (Machine.runFrom b cap tracing (m' + 1) trace s1)) → ∃ n,
          Agrees (Tac.runFrom p cap n t) (Machine.runFrom b cap tracing m trace s) := by
        intro k s1 hq hlater
        rcases lt_or_ge k m with hlt | hle
        · obtain ⟨m', rfl⟩ : ∃ m', m = k + (m' + 1) := ⟨m - k - 1, by omega⟩
          obtain ⟨trace1, h1⟩ := hq.runFrom_add tracing trace
          rw [h1]
          exact hlater m' (by omega) trace1
        · obtain ⟨hout, ho⟩ := hq.runFrom_le tracing hle trace
          exact ⟨0, by rw [ho, hr.output_eq]; rfl, by rw [hout]; exact .unfinished⟩
      obtain ⟨t', hstep, hrel, hless⟩ | ⟨k, s1, s', t', hq, hs, hstep, hrel⟩ | ⟨k, s1, hq, hstop⟩ :=
        hr.round hb cap tracing
      · obtain ⟨n, hn⟩ := ihr _ (by omega) rfl hrel trace
        refine ⟨n + 1, ?_⟩
        rw [Tac.runFrom, hstep]
        exact hn
      · refine hquiet hq fun m' hm' trace1 => ?_
        obtain ⟨trace2, h2⟩ := Machine.runFrom_succ tracing hs trace1
        obtain ⟨n, hn⟩ := ihm m' hm' hrel trace2
        refine ⟨n + 1, ?_⟩
        rw [Tac.runFrom, hstep, h2]
        exact hn
      · exact hquiet hq fun m' _ trace1 => ⟨0 + 1, hstop 0 m' trace1⟩

lemma ProgramCode.start : (∃ e, Tac.start p cap = .error e ∧ Machine.start b cap = .error e) ∨
      ∃ t s, Tac.start p cap = .ok t ∧ Machine.start b cap = .ok s ∧
        Related p b t s := by
  obtain ⟨k, hk, hmain⟩ := hb.entry
  obtain ⟨f, hf, hfind⟩ := Tac.Program.find?_of_index? hmain
  obtain ⟨g, hg, ⟨code⟩⟩ := hb.func hf
  have hentry : (if b.entry < 0 then none else b.funcs[b.entry.toNat]?) = some g := by
    rw [hk, if_neg (by omega), Int.toNat_natCast, hg]
  by_cases hdepth : cap ≤ 0
  · refine .inl ⟨⟨.stackOverflow, f.name, 0, .none, Machine.tooDeep cap f.name⟩, ?_, ?_⟩
    · simp [Tac.start, hfind, if_pos hdepth]
    · simp [Machine.start, hentry, if_pos hdepth, code.name_eq]
  · refine .inr ⟨⟨f.call [], [], .empty, #[]⟩,
      Machine.View.state ⟨[], Machine.View.localsOf g [], g, #[]⟩ [] 0 .empty #[], ?_, ?_, ?_⟩
    · simp [Tac.start, hfind, if_neg hdepth]
    · have hmax : (max g.numLocals ((0 : Nat) : Int)).toNat = g.numLocals.toNat := by omega
      simp only [Machine.start, hentry, if_neg hdepth, hb.heap_eq, Machine.newFrame, hmax,
        Machine.Frame.makeRoom, Machine.Frame.room]
      simp [Machine.View.state, Machine.View.frame, Machine.View.localsOf, Machine.padded]
    · exact ⟨⟨[], Machine.View.localsOf g [], g, #[]⟩, 0, .empty, code, rfl,
        ⟨code.holds_call (Nat.zero_le _) rfl, rfl, .nil⟩, code.place_start⟩

lemma ProgramCode.run_forward (n : Nat) :
    ∃ m, Agrees (Tac.run p cap n) (Machine.run b cap tracing m) := by
  obtain ⟨e, ht, hs⟩ | ⟨t, s, ht, hs, hr⟩ := hb.start cap
  · refine ⟨0, ?_⟩
    rw [Tac.run, Machine.run, ht, hs]
    exact ⟨rfl, .failed rfl rfl rfl rfl⟩
  · rw [Tac.run, ht]
    simp only [Machine.run, hs]
    exact hr.forward hb cap tracing n #[]

lemma ProgramCode.run_backward (m : Nat) :
    ∃ n, Agrees (Tac.run p cap n) (Machine.run b cap tracing m) := by
  obtain ⟨e, ht, hs⟩ | ⟨t, s, ht, hs, hr⟩ := hb.start cap
  · refine ⟨0, ?_⟩
    rw [Tac.run, Machine.run, ht, hs]
    exact ⟨rfl, .failed rfl rfl rfl rfl⟩
  · rw [Machine.run, hs]
    simp only [Tac.run, ht]
    exact hr.backward hb cap tracing m #[]

end

/-- **Generated code does what the program does.**  Whatever one of the two has printed and come to
in a number of steps, the other prints and comes to in some number of steps; and if one of them
never ends, neither does the other. -/
theorem generate_refines {p : Tac.Program} {b : Program} (h : generate p = .ok b) (cap : Int)
    (tracing : Bool) : (∀ n, ∃ m, Agrees (Tac.run p cap n) (Machine.run b cap tracing m)) ∧
    (∀ m, ∃ n, Agrees (Tac.run p cap n) (Machine.run b cap tracing m)) ∧
    ((∀ n, (Tac.run p cap n).outcome = .unfinished) ↔
      ∀ m, (Machine.run b cap tracing m).outcome = .unfinished) := by
  have hb := programCode_of_generate h
  refine ⟨hb.run_forward cap tracing, hb.run_backward cap tracing, ?_, ?_⟩
  · intro hforever m
    obtain ⟨n, hn⟩ := hb.run_backward cap tracing m
    exact hn.outcome.unfinished_iff.mp (hforever n)
  · intro hforever n
    obtain ⟨m, hm⟩ := hb.run_forward cap tracing n
    exact hm.outcome.unfinished_iff.mpr (hforever m)

/-- A program that prints in a loop, and then selects a component which its record does not have.
What it prints is the result of `i`. -/
def looping (place : Nat → Span) (i : Tac.Instr) : Tac.Program :=
  ⟨[⟨"main", [], 5, [.record 0 "E.B" [] [], .assign 1 (.reg 0), .assign 2 (.lit (.bool true)),
    .label "loop.0", .jumpUnless (.reg 2) "end.1", i, .print (.reg 3),
    .assign 2 (.lit (.bool false)), .jump "loop.0", .label "end.1", .field 4 (.reg 1) "0",
    .ret (some (.reg 4))].mapIdx fun k i => ⟨place k, i⟩⟩]⟩

/-- The concatenation of two constants. -/
def joining : Tac.Instr := .binary 3 (.known .add) (.lit (.string [97])) (.lit (.string [98]))

/-- The same with the text worked out. -/
def joined : Tac.Instr := .assign 3 (.lit (.string [97, 98]))

lemma Generate.pure_apply {σ ε α : Type} (a : α) (s : σ) :
    (StateT.pure a : StateT σ (Except ε) α) s = .ok (a, s) := rfl

lemma Generate.set_apply {σ ε : Type} (s s' : σ) :
    (set s' : StateT σ (Except ε) PUnit) s = .ok (.unit, s') := rfl

lemma generate_looping (place : Nat → Span) {i : Tac.Instr} (hi : i = joining ∨ i = joined) :
    ∃ b, generate (looping place i) = .ok b := by
  have hlabels : Bytes.ofString "loop.0" ≠ Bytes.ofString "end.1" := by decide
  have htype : Bytes.ofString "E.B" = [69, 46, 66] := by decide
  have hfield : Bytes.ofString "0" = [48] := by decide
  have hbool : Heap.empty.text (.bool true) ≠ Heap.empty.text (.bool false) := by decide
  rcases hi with rfl | rfl
  all_goals exact ⟨_, by
    simp [hlabels, htype, hfield, hbool, generate, looping, joining, joined, Generate.number,
      Generate.allFuncs, Generate.func, Generate.instrs, Generate.instr, Generate.pushAll,
      Generate.pushFields, Generate.push, Generate.pushConst, Generate.constant, Generate.literal,
      Generate.emitArg, Generate.add, Generate.emit, Generate.store, Generate.slot,
      Generate.resolve, Generate.paramSlots, Pool.index, OrderedMap.intern, OrderedMap.internAt,
      OrderedMap.storeAt, OrderedMap.index?, OrderedMap.push, OrderedMap.empty, OrderedMap.size,
      Instruction.maxArg, Value.kind, bind, Except.bind, StateT.bind, StateT.run, pure, Except.pure,
      Generate.pure_apply, Generate.set_apply, modify, modifyGet, MonadStateOf.modifyGet,
      StateT.modifyGet, get, getThe, MonadStateOf.get, StateT.get, Std.HashMap.size_insert,
        Std.HashMap.getElem_insert]
    rfl⟩

/-- The loop without any spans. -/
def chatter : Tac.Program := looping (fun _ => .none) joining

lemma generate_chatter : ∃ b, generate chatter = .ok b :=
  generate_looping _ (.inl rfl)

theorem generate_refines_chatter : ∃ b, generate chatter = .ok b ∧
    (∀ n, ∃ m, Agrees (Tac.run chatter 1 n) (Machine.run b 1 false m)) ∧
    (∀ m, ∃ n, Agrees (Tac.run chatter 1 n) (Machine.run b 1 false m)) ∧
    ((∀ n, (Tac.run chatter 1 n).outcome = .unfinished) ↔
      ∀ m, (Machine.run b 1 false m).outcome = .unfinished) := by
  obtain ⟨b, hb⟩ := generate_chatter
  exact ⟨b, hb, generate_refines hb 1 false⟩

end Bytecode

end Minilang
