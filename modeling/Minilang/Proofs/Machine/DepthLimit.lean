import Minilang.Proofs.Machine.Steps

/-!
# The limit on calls

A limit on the number of calls only cuts runs short.  What a step does depends on the limit only
where it calls a function, and only in that the call is refused or not (`step_limit`).  So two runs
with different limits go through the same states until the one with the smaller limit refuses a
call.
-/

namespace Minilang.Machine

open EStateM List

variable {α β : Type} {p : Bytecode.Program} {d d' : Int} {s s' : State}

/-! ### Steps -/

variable {u : State} {i : Instruction} {f : Fault} {n : Nat} {g : Bytecode.Func}

/-- What the limit on calls is to a step: nothing, or the step calls a function, and the call is
refused if there are as many calls as the limit allows. -/
inductive StepLimit (p : Bytecode.Program) (s : State) : Prop
  | free (same : ∀ d, (step p d).run s = (step p 0).run s)
      (ends : Ends (step p 0) s (fun _ s' => s.PrintsOn s') fun f _ => f.kind ≠ .stackOverflow)
  | call {i : Instruction} {t u : State} (next : s.Next i .call)
      (refused : ∀ d : Int, d ≤ s.callers.size + 1 →
        ∃ f, f.kind = .stackOverflow ∧ (step p d).run s = .error f u)
      (entered : ∀ d : Int, s.callers.size + 1 < d → (step p d).run s = .ok none t)
      (output : t.output = s.output)

lemma StepLimit.of_error (hf : f.kind ≠ .stackOverflow) (h : ∀ d, (step p d).run s = .error f u) :
    StepLimit p s :=
  .free (fun d => by rw [h, h]) (.of_error (h 0) hf)

lemma step_of_instruction (hi : s.frame.func.code[s.frame.ip]? = some i) :
    (step p d).run s = (execute p d i).run s.advanced := by
  simp only [step, run_bind, run_get, hi]
  rfl

lemma execute_free (hi : i.opcode? ≠ some .call) (d : Int) : execute p d i = execute p 0 i := by
  unfold execute
  cases hop : i.opcode? with
  | none => rfl
  | some op =>
    cases op with
    | call => exact absurd hop hi
    | _ => rfl

lemma enter_refused (h : d ≤ s.callers.size + 1) :
    (enter d g n).run s = .error (s.fault .stackOverflow (tooDeep d g.name)) s := by
  simp only [enter, run_bind, run_get, if_pos h]
  rfl

lemma enter_entered (h : s.callers.size + 1 < d) :
    (enter d g n).run s = .ok () ⟨(newFrame g s.stack.size n).makeRoom s.stack,
      newFrame g s.stack.size n, s.callers.push s.frame, s.heap, s.output⟩ := by
  simp only [enter, run_bind, run_get, if_neg (Int.not_le.mpr h)]
  rfl

lemma StepLimit.of_enter (next : s.Next i .call) (hcallers : u.callers = s.callers)
    (houtput : u.output = s.output)
    (h : ∀ d, (step p d).run s = (enter d g n >>= fun _ => pure none).run u) : StepLimit p s := by
  have hentered : ∀ d : Int, s.callers.size + 1 < d → (step p d).run s =
      .ok none ⟨(newFrame g u.stack.size n).makeRoom u.stack, newFrame g u.stack.size n,
        u.callers.push u.frame, u.heap, u.output⟩ := by
    intro d hd
    rw [h, run_bind, enter_entered (hcallers ▸ hd)]
    rfl
  have hrefused : ∀ d : Int, d ≤ s.callers.size + 1 → (step p d).run s =
      .error (u.fault .stackOverflow (tooDeep d g.name)) u := by
    intro d hd
    rw [h, run_bind, enter_refused (hcallers ▸ hd)]
  exact .call next (fun d hd => ⟨_, rfl, hrefused d hd⟩) hentered houtput

lemma stepLimit_call (next : s.Next i .call) : StepLimit p s := by
  have hstep : ∀ d, (step p d).run s =
      (call p d i >>= fun _ => pure none).run s.advanced := by
    intro d
    rw [step_of_instruction next.1, execute, next.2]
  generalize ht : s.advanced = t at hstep
  have hcallers : t.callers = s.callers := by rw [← ht]; rfl
  have houtput : t.output = s.output := by rw [← ht]; rfl
  have hpop : Ends (pop i) t (fun _ u => u = t.drop 1) fun f _ => f.kind ≠ .stackOverflow :=
    .pop (fun _ => by simp [State.fault]) fun _ => rfl
  cases hrun : (pop i).run t with
  | error f u =>
    refine .of_error (u := u) (hpop.error hrun) fun d => ?_
    simp [hstep, call, hrun]
  | ok v u =>
    obtain rfl := hpop.ok hrun
    -- Whatever else is wrong with the call is found before the limit is looked at.
    have hfail : ∀ kind {cause}, kind ≠ .stackOverflow →
        (∀ d, (call p d i).run t = .error ((t.drop 1).fault kind cause) (t.drop 1)) →
        StepLimit p s := by
      intro kind cause hkind hcall
      refine .of_error (f := (t.drop 1).fault kind cause) (u := t.drop 1) hkind fun d => ?_
      rw [hstep, run_bind, hcall]
    cases v with
    | func name index =>
      cases hf : (if index < 0 then none else p.funcs[index.toNat]?) with
      | none =>
        exact hfail .invalidOpcode (by simp) fun d => by
          simp only [call, run_bind, hrun, hf]
          rfl
      | some g =>
        by_cases hparams : (i.arg.toNat : Int) ≠ g.numParams
        · exact hfail .typeMismatch (by simp) fun d => by
            simp only [call, run_bind, hrun, hf, if_pos hparams]
            rfl
        · by_cases hfew : (t.drop 1).operands < i.arg.toNat
          · exact hfail .stackUnderflow (by simp) fun d => by
              simp only [call, run_bind, hrun, hf, if_neg hparams, run_get, if_pos hfew]
              rfl
          · refine .of_enter (g := g) (n := i.arg.toNat) (u := t.drop 1) next hcallers houtput
              fun d => ?_
            simp only [hstep, run_bind, call, hrun, hf, if_neg hparams, run_get, if_neg hfew]
    | _ =>
      exact hfail .typeMismatch (by simp) fun d => by
        simp only [call, run_bind, hrun]
        rfl

lemma step_prints (p : Bytecode.Program) (d : Int) (s : State) :
    Ends (step p d) s (fun _ s' => s.PrintsOn s') fun _ s' => s'.output = s.output := by
  refine (step_spec p d s).imp (fun r s' h => ?_) fun f s' h => ?_
  · cases r with
    | none => cases h <;> assumption
    | some v => exact h.2.2
  · obtain ⟨n, -, rfl⟩ := h.state
    rfl

/-- A step that does not call a function does not depend on the limit. -/
theorem StepLimit.of_free (hcall : ∀ i, ¬s.Next i .call)
    (same : ∀ d, (step p d).run s = (step p 0).run s) : StepLimit p s := by
  refine .free same ?_
  cases hstep : (step p 0).run s with
  | ok r t => exact .of_ok hstep ((step_prints p 0 s).ok hstep)
  | error f t =>
    refine .of_error hstep ?_
    obtain ⟨i, hi, hblames⟩ := ((step_spec p 0 s).error hstep).blames
    generalize f.kind = kind at hblames ⊢
    cases hblames with
    | depth hop => exact absurd ⟨hi, hop⟩ (hcall i)
    | other hvalues => exact hvalues.2
    | _ => simp

lemma step_limit (p : Bytecode.Program) (s : State) : StepLimit p s := by
  cases hi : s.frame.func.code[s.frame.ip]? with
  | some i =>
    by_cases hop : i.opcode? = some .call
    · exact stepLimit_call ⟨hi, hop⟩
    · refine .of_free ?_ fun d => ?_
      · rintro j ⟨hj, hop'⟩
        exact hop (Option.some.inj (hi.symm.trans hj) ▸ hop')
      · rw [step_of_instruction hi, step_of_instruction hi, execute_free hop]
  | none =>
    refine .of_free ?_ fun d => ?_
    · rintro j ⟨hj, -⟩
      cases hi.symm.trans hj
    · simp [step, hi]

/-- What a step does that is allowed more calls: the same, unless the smaller limit refuses a call.
-/
theorem step_deeper (p : Bytecode.Program) (s : State) (hd : d ≤ d') :
    ((step p d').run s = (step p d).run s ∧
      ∀ f t, (step p d).run s = .error f t → f.kind ≠ .stackOverflow) ∨
    ∃ i f t, s.Next i .call ∧ (step p d).run s = .error f t ∧ f.kind = .stackOverflow ∧
      d ≤ s.callers.size + 1 := by
  cases step_limit p s with
  | free same ends =>
    refine .inl ⟨by rw [same, same d], fun f t hstep => ?_⟩
    rw [same] at hstep
    exact ends.error hstep
  | @call i t u next refused entered output =>
    by_cases hdepth : d ≤ s.callers.size + 1
    · obtain ⟨f, hf, hstep⟩ := refused d hdepth
      exact .inr ⟨i, f, u, next, hstep, hf, hdepth⟩
    · refine .inl ⟨by rw [entered d' (by omega), entered d (by omega)], fun f t hstep => ?_⟩
      rw [entered d (by omega)] at hstep
      cases hstep

lemma start_deeper (p : Bytecode.Program) (hd : d ≤ d') :
    (start p d' = start p d ∧ ∀ f, start p d = .error f → f.kind ≠ .stackOverflow) ∨
      d ≤ 0 ∧ ∃ f, start p d = .error f ∧ f.kind = .stackOverflow := by
  unfold start
  split
  · exact .inl ⟨rfl, fun f hf => by cases hf; simp⟩
  · by_cases h : d ≤ 0
    · exact .inr ⟨h, by simp [if_pos h]⟩
    · rw [if_neg h, if_neg (by omega)]
      exact .inl ⟨rfl, by simp⟩

/-! ### Runs -/

variable {tracing : Bool}

lemma after_deeper (hd : d ≤ d') (h : after p d n = some s) : after p d' n = some s := by
  induction n generalizing s with
  | zero =>
    have hstart := after_zero.mp h
    rcases start_deeper p hd with ⟨hsame, -⟩ | ⟨-, f, herror, -⟩
    · rw [after_zero, hsame, hstart]
    · cases hstart.symm.trans herror
  | succ n ih =>
    obtain ⟨t, ht, hstep⟩ := after_succ.mp h
    rcases step_deeper p t hd with ⟨hsame, -⟩ | ⟨i, f, u, -, herror, -⟩
    · exact after_succ.mpr ⟨t, ih ht, hsame.trans hstep⟩
    · cases hstep.symm.trans herror

/-- Two runs go through the same states as long as the one with the smaller limit goes on. -/
theorem after_eq_of_le (hd : d ≤ d') {j k : Nat} (h : after p d k = some s) (hj : j ≤ k) :
    after p d' j = after p d j := by
  obtain ⟨t, ht⟩ := exists_after_of_le h hj
  rw [ht, after_deeper hd ht]

lemma traceTo_congr (h : ∀ j < n, after p d' j = after p d j) :
    traceTo p d' tracing n = traceTo p d tracing n := by
  induction n with
  | zero => rfl
  | succ n ih =>
    rw [traceTo, traceTo, h n (Nat.lt_succ_self n), ih fun j hj => h j (Nat.lt_succ_of_lt hj)]

/-- What has been printed and traced before is the beginning of what a run leaves. -/
structure Final.Continues (r : Final) (output trace : Array Bytes) : Prop where
  output : output.toList <+: r.output.toList
  trace : trace.toList <+: r.trace.toList

lemma runAfter_continues {steps : Nat}
    (h : ∀ trace s, (runFrom p d tracing steps trace s).Continues s.output trace)
    (trace : Array Bytes) (s : State) :
    (runAfter p d tracing steps trace ((step p d).run s)).Continues s.output trace := by
  have hprints := step_prints p d s
  cases hstep : (step p d).run s with
  | error f t => exact ⟨State.PrintsOn.of_eq (hprints.error hstep), prefix_rfl⟩
  | ok r t =>
    have houtput := hprints.ok hstep
    cases r with
    | some v => exact ⟨houtput, prefix_rfl⟩
    | none => exact ⟨IsPrefix.trans houtput (h trace t).output, (h trace t).trace⟩

lemma runFrom_continues (p : Bytecode.Program) (d : Int) (tracing : Bool) (steps : Nat)
    (trace : Array Bytes) (s : State) :
    (runFrom p d tracing steps trace s).Continues s.output trace := by
  induction steps generalizing trace s with
  | zero => exact ⟨prefix_rfl, prefix_rfl⟩
  | succ steps ih =>
    have h := runAfter_continues ih (s.traced tracing trace) s
    exact ⟨h.output, (s.prefix_traced tracing trace).trans h.trace⟩

section

variable {k m : Nat}

lemma run_deeper_of_lt (tracing : Bool) (hd : d ≤ d') (hs : after p d k = some s) (hk : k < n) :
    ∃ steps, run p d' tracing n =
      runAfter p d' tracing steps (traceTo p d tracing (k + 1)) ((step p d').run s) := by
  have htrace : traceTo p d' tracing (k + 1) = traceTo p d tracing (k + 1) :=
    traceTo_congr fun j hj => after_eq_of_le hd hs (Nat.le_of_lt_succ hj)
  rw [← htrace]
  exact run_of_lt tracing (after_deeper hd hs) hk

lemma run_deeper_of_end (hd : d ≤ d') (hs : after p d k = some s) (hk : k < n) (hm : n ≤ m)
    (hend : next? p d s = none) (hsame : (step p d').run s = (step p d).run s) :
    run p d' tracing m = run p d tracing n := by
  obtain ⟨steps, hrun⟩ := run_of_lt tracing hs hk
  obtain ⟨steps', hrun'⟩ :=
    run_deeper_of_lt tracing hd hs (lt_of_lt_of_le hk hm)
  rw [hrun, hrun', hsame]
  rcases of_next?_eq_none hend with ⟨v, t, hstep⟩ | ⟨f, t, hstep⟩
  · rw [hstep]
    rfl
  · rw [hstep]
    rfl

lemma run_deeper_continues (hd : d ≤ d') (hs : after p d k = some s) (hk : k < n) (hm : n ≤ m)
    (hstep : (step p d).run s = .error f s') :
    (run p d' tracing m).Continues (run p d tracing n).output (run p d tracing n).trace := by
  obtain ⟨steps, hrun⟩ := run_of_lt tracing hs hk
  obtain ⟨steps', hrun'⟩ :=
    run_deeper_of_lt tracing hd hs (lt_of_lt_of_le hk hm)
  rw [hrun, hrun', hstep]
  have houtput : s'.output = s.output := (step_prints p d s).error hstep
  simp only [runAfter, State.final, houtput]
  exact runAfter_continues (runFrom_continues p d' tracing steps') _ s

lemma length_calls_of_refused (hs : after p d k = some s) (hdepth : d ≤ s.callers.size + 1) :
    (s.calls.length : Int) = max d 0 := by
  have hlimit := (reaches_of_after hs).layout.depth
  rw [State.calls, length_append, Array.length_toList, length_singleton]
  omega

end

/-- **A limit on calls only cuts runs short.**  A run that is not cut short leaves the same with any
greater limit.  One that is cut short goes through the same states as a run with a greater limit
until its last call, which is refused where the calls are as many as the limit allows, and has
printed the beginning of what that run prints; or the program does not even start. -/
theorem run_deeper (p : Bytecode.Program) (hd : d ≤ d') (tracing : Bool) (n : Nat) :
    ((run p d tracing n).outcome = .unfinished → run p d' tracing n = run p d tracing n) ∧
    ((run p d tracing n).outcome ≠ .unfinished →
      (∀ f, (run p d tracing n).outcome = .failed f → f.kind ≠ .stackOverflow) →
      ∀ m ≥ n, run p d' tracing m = run p d tracing n) ∧
    ∀ f, (run p d tracing n).outcome = .failed f → f.kind = .stackOverflow →
      (∀ m ≥ n, (run p d' tracing m).Continues (run p d tracing n).output
        (run p d tracing n).trace) ∧
      (d ≤ 0 ∧ start p d = .error f ∨
        ∃ k < n, ∃ s i s', (∀ j ≤ k, after p d' j = after p d j) ∧ after p d k = some s ∧
          s.Next i .call ∧ (step p d).run s = .error f s' ∧ (s.calls.length : Int) = max d 0) := by
  rcases run_cases p d n with ⟨f, hf⟩ | ⟨s, hs⟩ | ⟨k, hk, s, hs, hend⟩
  · rw [run_of_start tracing hf]
    rcases start_deeper p hd with ⟨hsame, hkind⟩ | ⟨hd0, g, hg, hkind⟩
    · have hrun := run_of_start tracing (hsame.trans hf)
      refine ⟨by simp, fun _ _ m _ => hrun m, ?_⟩
      rintro g ⟨⟩ hover
      exact absurd hover (hkind f hf)
    · obtain rfl : f = g := Except.error.inj (hf.symm.trans hg)
      refine ⟨by simp, fun _ h => absurd hkind (h f rfl), ?_⟩
      rintro g ⟨⟩ -
      exact ⟨fun m _ => ⟨List.nil_prefix, List.nil_prefix⟩, .inl ⟨hd0, hf⟩⟩
  · have hrun := run_of_after tracing hs
    have hsame : run p d' tracing n = run p d tracing n := by
      rw [hrun, run_of_after tracing (after_deeper hd hs),
        traceTo_congr fun j hj => after_eq_of_le hd hs (Nat.le_of_lt hj)]
    exact ⟨fun _ => hsame, fun h => absurd (by rw [hrun]; rfl) h, by simp [hrun, State.final]⟩
  · obtain ⟨steps, hrun⟩ := run_of_lt tracing hs hk
    rcases step_deeper p s hd with ⟨hsame, hkind⟩ | ⟨i, f, t, next, hstep, hkind, hdepth⟩
    · have heq : ∀ m ≥ n, run p d' tracing m = run p d tracing n := fun m hm =>
        run_deeper_of_end hd hs hk hm hend hsame
      refine ⟨fun _ => heq n (Nat.le_refl n), fun _ _ => heq, fun f hf hover => ?_⟩
      rcases of_next?_eq_none hend with ⟨v, t, hstep⟩ | ⟨g, t, hstep⟩
      · rw [hrun, hstep] at hf
        cases hf
      · rw [hrun, hstep] at hf
        exact absurd hover (hkind f t (Outcome.failed.inj hf ▸ hstep))
    · have hfailed : (run p d tracing n).outcome = .failed f := by rw [hrun, hstep]; rfl
      refine ⟨by simp [hfailed], fun _ h => absurd hkind (h f hfailed), fun g hg _ => ?_⟩
      obtain rfl : f = g := Outcome.failed.inj (hfailed.symm.trans hg)
      exact ⟨fun m hm => run_deeper_continues hd hs hk hm hstep,
        .inr ⟨k, hk, s, i, t, fun j hj => after_eq_of_le hd hs hj, hs, next, hstep,
          length_calls_of_refused hs hdepth⟩⟩

/-- A program that calls a function is cut short where one call is allowed, and not where two are.
-/
theorem run_deeper_relay :
    (∃ f, (run relay 1 true 9).outcome = .failed f ∧ f.kind = .stackOverflow ∧
      ∃ k < 9, ∃ s i, after relay 2 k = some s ∧ s.Next i .call ∧ s.calls.length = 1) ∧
    (run relay 2 true 9).outcome = .halted (.string "kept") ∧
    run relay 5 true 20 = run relay 2 true 9 := by
  have hhalted : (run relay 2 true 9).outcome = .halted (.string "kept") := rfl
  refine ⟨?_, hhalted, ?_⟩
  · obtain ⟨-, -, h⟩ := run_deeper relay (show (1 : Int) ≤ 2 by decide) true 9
    obtain ⟨-, ⟨h, -⟩ | ⟨k, hk, s, i, s', hstates, hs, next, -, hdepth⟩⟩ := h _ rfl rfl
    · cases h
    · exact ⟨_, rfl, rfl, k, hk, s, i, by rw [hstates k (Nat.le_refl k), hs], next, by omega⟩
  · obtain ⟨-, h, -⟩ := run_deeper relay (show (2 : Int) ≤ 5 by decide) true 9
    exact h (by simp [hhalted]) (by simp [hhalted]) 20 (by decide)

end Minilang.Machine
