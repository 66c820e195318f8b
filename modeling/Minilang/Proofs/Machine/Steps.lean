import Minilang.Proofs.Machine.Layout

/-!
# Runs step by step

The state after a number of steps, and how it decides what is left at the end of a run: a run that
is given more steps than the program takes ends at the first step that does not go on.
-/

namespace Minilang.Machine

variable {p : Bytecode.Program} {cap : Int} {tracing : Bool} {s s' : State} {n : Nat}

/-! ### States -/

/-- The state after a step, if the run goes on. -/
def next? (p : Bytecode.Program) (cap : Int) (s : State) : Option State :=
  match (step p cap).run s with
  | .ok none s' => some s'
  | _ => none

/-- The state after a number of steps, if the program has come so far. -/
def after (p : Bytecode.Program) (cap : Int) : Nat → Option State
  | 0 => (start p cap).toOption
  | n + 1 => (after p cap n).bind (next? p cap)

lemma next?_eq_some : next? p cap s = some s' ↔ (step p cap).run s = .ok none s' := by
  unfold next?
  split
  · next t hstep => rw [hstep, Option.some.injEq, EStateM.Result.ok.injEq, eq_self, true_and]
  · next hstep => exact ⟨by simp, fun h => absurd h (hstep s')⟩

lemma of_next?_eq_none (h : next? p cap s = none) : (∃ v t, (step p cap).run s = .ok (some v) t) ∨
      ∃ f t, (step p cap).run s = .error f t := by
  cases hstep : (step p cap).run s with
  | error f t => exact .inr ⟨f, t, rfl⟩
  | ok r t =>
    cases r with
    | some v => exact .inl ⟨v, t, rfl⟩
    | none =>
      rw [next?_eq_some.mpr hstep] at h
      cases h

lemma after_zero : after p cap 0 = some s ↔ start p cap = .ok s := by
  rw [after]
  cases start p cap with
  | ok t => simp [Except.toOption]
  | error f => simp [Except.toOption]

lemma after_succ : after p cap (n + 1) = some s' ↔
    ∃ s, after p cap n = some s ∧ (step p cap).run s = .ok none s' := by
  simp [after, Option.bind_eq_some_iff, next?_eq_some]

lemma reaches_of_after (h : after p cap n = some s) : Reaches p cap s := by
  induction n generalizing s with
  | zero => exact .start (after_zero.mp h)
  | succ n ih =>
    obtain ⟨t, ht, hstep⟩ := after_succ.mp h
    exact .step (ih ht) hstep

lemma exists_after_of_le {m : Nat} (h : after p cap n = some s) (hmn : m ≤ n) :
    ∃ t, after p cap m = some t := by
  induction n generalizing s with
  | zero =>
    obtain rfl := Nat.le_zero.mp hmn
    exact ⟨s, h⟩
  | succ n ih =>
    rcases Nat.le_succ_iff.mp hmn with hle | rfl
    · obtain ⟨t, ht, -⟩ := after_succ.mp h
      exact ih ht hle
    · exact ⟨s, h⟩

/-! ### Traces -/

/-- The trace with a line for the next instruction, if there is to be one. -/
def State.traced (s : State) (tracing : Bool) (trace : Array Bytes) : Array Bytes :=
  if tracing then
    match s.traceLine? with
    | some line => trace.push line
    | none => trace
  else trace

lemma State.prefix_traced (s : State) (tracing : Bool) (trace : Array Bytes) :
    trace.toList <+: (s.traced tracing trace).toList := by
  unfold traced
  split
  · split
    · rw [Array.toList_push]
      exact List.prefix_append _ _
    · exact List.prefix_rfl
  · exact List.prefix_rfl

/-- The trace of the first steps. -/
def traceTo (p : Bytecode.Program) (cap : Int) (tracing : Bool) : Nat → Array Bytes
  | 0 => #[]
  | n + 1 =>
    (after p cap n).elim (traceTo p cap tracing n) fun s =>
      s.traced tracing (traceTo p cap tracing n)

lemma traceTo_succ (h : after p cap n = some s) :
    traceTo p cap tracing (n + 1) = s.traced tracing (traceTo p cap tracing n) := by
  rw [traceTo, h, Option.elim]

/-! ### Runs -/

/-- What a step leaves of a run: the run of the steps after it, or its end. -/
def runAfter (p : Bytecode.Program) (cap : Int) (tracing : Bool) (steps : Nat)
    (trace : Array Bytes) : EStateM.Result Fault State (Option Value) → Final
  | .ok none s => runFrom p cap tracing steps trace s
  | .ok (some v) s => s.final trace (.halted v)
  | .error f s => s.final trace (.failed f)

lemma runFrom_step (p : Bytecode.Program) (cap : Int) (tracing : Bool) (steps : Nat)
    (trace : Array Bytes) (s : State) :
    runFrom p cap tracing (steps + 1) trace s =
      runAfter p cap tracing steps (s.traced tracing trace) ((step p cap).run s) := by
  rfl

section

variable (tracing) {n : Nat}

lemma run_add (h : after p cap n = some s) (m : Nat) :
    run p cap tracing (n + m) =
      runFrom p cap tracing m (traceTo p cap tracing n) s := by
  induction n generalizing s m with
  | zero =>
    rw [Nat.zero_add, run, after_zero.mp h]
    rfl
  | succ n ih =>
    obtain ⟨t, ht, hstep⟩ := after_succ.mp h
    rw [Nat.add_right_comm, Nat.add_assoc, ih ht, runFrom_step, hstep, traceTo_succ ht]
    rfl

lemma run_of_after (h : after p cap n = some s) :
    run p cap tracing n = s.final (traceTo p cap tracing n) .unfinished :=
  run_add tracing h 0

lemma run_of_lt {k : Nat} (h : after p cap k = some s) (hkn : k < n) :
    ∃ m, run p cap tracing n = runAfter p cap tracing m
      (traceTo p cap tracing (k + 1)) ((step p cap).run s) := by
  obtain ⟨m, rfl⟩ := Nat.exists_eq_add_of_lt hkn
  exact ⟨m, by rw [Nat.add_assoc, run_add tracing h, runFrom_step, traceTo_succ h]⟩

lemma run_of_start {f : Fault} (h : start p cap = .error f) (n : Nat) :
    run p cap tracing n = ⟨.failed f, #[], p.heap, #[], #[]⟩ := by
  rw [run, h]

end

/-- **How far a run comes.**  The program cannot start, or it takes all the steps, or it takes fewer
and ends with the next. -/
theorem run_cases (p : Bytecode.Program) (cap : Int) (n : Nat) :
    (∃ f, start p cap = .error f) ∨ (∃ s, after p cap n = some s) ∨
      ∃ k < n, ∃ s, after p cap k = some s ∧ next? p cap s = none := by
  induction n with
  | zero =>
    cases h : start p cap with
    | ok s => exact .inr (.inl ⟨s, after_zero.mpr h⟩)
    | error f => exact .inl ⟨f, rfl⟩
  | succ n ih =>
    rcases ih with hstart | ⟨s, hs⟩ | ⟨k, hk, hend⟩
    · exact .inl hstart
    · cases hnext : next? p cap s with
      | none => exact .inr (.inr ⟨n, Nat.lt_succ_self n, s, hs, hnext⟩)
      | some t => exact .inr (.inl ⟨t, by rw [after, hs, Option.bind_some, hnext]⟩)
    · exact .inr (.inr ⟨k, Nat.lt_succ_of_lt hk, hend⟩)

end Minilang.Machine
