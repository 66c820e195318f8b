import Minilang.Proofs.Machine.Layout

/-!
# A call keeps what lies below it

From the moment a function is called until it returns, whatever it and the functions it calls do,
the values below its part of the stack and the calls around it stay as they are.  When it returns,
its part of the stack is replaced by its result, and its caller goes on at the instruction after the
call.
-/

namespace Minilang.Machine

open List

variable {p : Bytecode.Program} {cap : Int} {below : List Value} {around : List Frame}

/-- The values below the part of a call and the calls around it are still there. -/
structure State.Keeps (below : List Value) (around : List Frame) (s : State) : Prop where
  stack : s.stack.toList.take below.length = below
  callers : ∃ inner, s.callers.toList = around ++ inner ∧
    Stacked below.length inner s.frame.base

namespace State.Keeps

variable {s s' : State}

variable (h : s.Keeps below around)

include h

lemma length_le : below.length ≤ s.stack.size := by
  have hlength := congrArg length h.stack
  have hstack : s.stack.toList.length = s.stack.size := Array.length_toList
  rw [length_take] at hlength
  omega

lemma length_le_base : below.length ≤ s.frame.base := by
  obtain ⟨inner, -, hinner⟩ := h.callers
  exact hinner.bottom_le

lemma of_take {k : Nat} (hk : below.length ≤ k)
    (hstack : s'.stack.toList.take k = s.stack.toList.take k) (hbase : s'.frame.base = s.frame.base)
    (hcallers : s'.callers = s.callers) : s'.Keeps below around where
  stack := by
    have hs' := congrArg (take below.length) hstack
    rw [take_take, take_take, min_eq_left hk, h.stack] at hs'
    exact hs'
  callers := by
    rw [hcallers, hbase]
    exact h.callers

/-- **A step inside a call keeps what lies below the call, and a step out of it leaves that with the
result on top.** -/
theorem step (hs : Moves p cap s s') :
    s'.Keeps below around ∨
      s'.calls = around ∧ s'.stack.toList = below ++ [s.result] := by
  have hsize := h.length_le
  have hbase_le := h.length_le_base
  have hlength : s.stack.toList.length = s.stack.size := Array.length_toList
  cases hs with
  | @operands i op ip vs next replaces takes gives stack ip_mem frame callers =>
    have hk : below.length ≤ s.stack.size - op.takes i.arg.toNat := by
      simp only [operands] at takes
      omega
    refine .inl (h.of_take hk ?_ (by rw [frame]; rfl) callers)
    rw [stack, s.toList_drop, take_left' (by simp)]
  | @store i next takes size kept frame callers =>
    exact .inl (h.of_take hbase_le kept (by rw [frame]) callers)
  | @call i f next func params takes depth frame stack callers =>
    simp only [operands] at takes
    obtain ⟨inner, houter, hinner⟩ := h.callers
    refine .inl ⟨?_, inner ++ [s.advanced.frame], ?_, ?_⟩
    · rw [stack, Frame.makeRoom, padded, Array.toList_append, take_append_of_le_length,
        s.take_drop (by omega), h.stack]
      rw [s.toList_drop, length_take]
      omega
    · rw [callers, Array.toList_push, houter, append_assoc]
    · have hbase : s'.frame.base = s.stack.size - 1 - i.arg.toNat := by rw [frame]; rfl
      have htop : s.advanced.frame.top = s.frame.base + s.frame.locals := rfl
      have hpush : s.advanced.frame.top ≤ s'.frame.base := by omega
      exact stacked_concat.mpr ⟨hinner, hpush⟩
  | ret returns stack callers =>
    obtain ⟨inner, houter, hinner⟩ := h.callers
    have hcalls : s'.calls = around ++ inner := by
      rw [← houter, callers, Array.toList_push]
      rfl
    rcases eq_nil_or_concat inner with rfl | ⟨inner, fr, rfl⟩
    · -- The call itself returns.
      have hbase : s.frame.base = below.length := hinner.bottom_eq
      exact .inr ⟨by rw [hcalls, append_nil], by rw [stack, hbase, h.stack]⟩
    · -- A call inside it returns.
      rw [concat_eq_append, ← append_assoc] at hcalls
      obtain ⟨hcallers, hframe⟩ := append_inj' hcalls rfl
      rw [concat_eq_append] at hinner
      obtain rfl : s'.frame = fr := by simpa using hframe
      refine .inl ⟨?_, inner, hcallers, (stacked_concat.mp hinner).1⟩
      rw [stack, take_append_of_le_length, take_take, min_eq_left hbase_le, h.stack]
      rw [length_take]
      omega

end State.Keeps

/-! ### A call from its start to its end -/

/-- The states inside a call from its start on, while there are more than `outer` calls around. -/
inductive Inside (p : Bytecode.Program) (cap : Int) (outer : Nat) (s : State) : State → Prop
  | start : Inside p cap outer s s
  | step {t u : State} : Inside p cap outer s t → (step p cap).run t = .ok none u →
      outer < u.callers.size → Inside p cap outer s u

variable {s t u : State} {i : Instruction}

lemma State.Next.call_moves (next : s.Next i .call) (hs : Moves p cap s t) :
    t.frame.base + i.arg.toNat + 1 = s.stack.size ∧
      t.Keeps (s.stack.toList.take t.frame.base) s.advanced.calls := by
  cases hs with
  | operands vs next' replaces =>
    rw [next'.op_eq next] at replaces
    cases replaces
  | store next' => cases next'.op_eq next
  | ret returns => cases returns _ _ next
  | @call j f next' func params takes depth frame stack callers =>
    cases next.1.symm.trans next'.1
    simp only [operands] at takes
    have hbase : t.frame.base = s.stack.size - 1 - i.arg.toNat := by rw [frame]; rfl
    have hlength : s.stack.toList.length = s.stack.size := Array.length_toList
    have hbelow : (s.stack.toList.take t.frame.base).length = t.frame.base := by
      rw [length_take]
      omega
    refine ⟨by omega, ?_, [], ?_, ?_⟩
    · rw [hbelow, stack, Frame.makeRoom, padded, Array.toList_append,
        take_append_of_le_length, s.take_drop (by omega)]
      rw [s.toList_drop, length_take]
      omega
    · rw [callers, Array.toList_push, append_nil]
      rfl
    · rw [hbelow]
      exact .nil t.frame.base

lemma Inside.keeps {outer : Nat} (houter : around.length = outer + 1) (hs : s.Keeps below around)
    (h : Inside p cap outer s u) : u.Keeps below around := by
  induction h with
  | start => exact hs
  | @step t u _ hstep hdeep ih =>
    rcases ih.step ((step_spec p cap t).ok hstep) with hkeeps | ⟨hcalls, -⟩
    · exact hkeeps
    · rw [← hcalls, State.calls, length_append, Array.length_toList] at houter
      have : [u.frame].length = 1 := rfl
      omega

/-- **A call keeps the values below it and the calls around it, and leaves its result.** -/
theorem call_isolated (next : s.Next i .call) (henter : (step p cap).run s = .ok none t)
    (hinside : Inside p cap s.callers.size t u) :
    t.frame.base + i.arg.toNat + 1 = s.stack.size ∧
    u.stack.toList.take t.frame.base = s.stack.toList.take t.frame.base ∧
    u.callers.toList.take (s.callers.size + 1) = (s.goTo (s.frame.ip + 1)).calls ∧
    match (step p cap).run u with
    | .ok none w =>
      s.callers.size < w.callers.size ∨
        w.stack.toList = s.stack.toList.take t.frame.base ++ [u.result] ∧
          w.calls = (s.goTo (s.frame.ip + 1)).calls
    | .ok (some _) _ => False
    | .error _ w =>
      w.stack.toList.take t.frame.base = s.stack.toList.take t.frame.base ∧
        w.callers = u.callers := by
  obtain ⟨hbase, hkeeps⟩ := next.call_moves ((step_spec p cap s).ok henter)
  have hlength : s.advanced.calls.length = s.callers.size + 1 := by
    simp [State.calls, State.goTo]
  have hbelow : (s.stack.toList.take t.frame.base).length = t.frame.base := by
    rw [List.length_take, Array.length_toList]
    omega
  have hu := hinside.keeps hlength hkeeps
  have hstack : u.stack.toList.take t.frame.base = s.stack.toList.take t.frame.base := by
    have := hu.stack
    rwa [hbelow] at this
  obtain ⟨inner, hcallers, -⟩ := hu.callers
  have hspec := step_spec p cap u
  refine ⟨hbase, hstack, by rw [hcallers, List.take_left' hlength], ?_⟩
  cases hrun : (step p cap).run u with
  | ok r w =>
    cases r with
    | none =>
      rcases hu.step (hspec.ok hrun) with hw | ⟨hcalls, hleft⟩
      · obtain ⟨inner, hinner, -⟩ := hw.callers
        have hsize := congrArg List.length hinner
        rw [Array.length_toList, List.length_append, hlength] at hsize
        exact .inl (by omega)
      · exact .inr ⟨hleft, hcalls⟩
    | some v =>
      have hnone : u.callers = #[] := (hspec.ok hrun).1
      have hsize := congrArg List.length hcallers
      rw [hnone, List.length_append, hlength] at hsize
      have hzero : (#[] : Array Frame).toList.length = 0 := rfl
      omega
  | error f w =>
    obtain ⟨n, hn, rfl⟩ := (hspec.error hrun).state
    have hle := hu.length_le
    have hle_base := hu.length_le_base
    simp only [State.operands] at hn
    rw [hbelow] at hle hle_base
    refine ⟨Eq.trans (State.take_drop ?_) hstack, rfl⟩
    show t.frame.base ≤ u.stack.size - n
    omega

theorem call_isolated_relay : (relayAfter 2).Next (.of .call 0) .call ∧ (step relay 2).run
    (relayAfter 2) = .ok none (relayAfter 3) ∧
    Inside relay 2 0 (relayAfter 3) (relayAfter 6) ∧
    (relayAfter 6).stack.toList.take 1 = (relayAfter 2).stack.toList.take 1 ∧
    (relayAfter 7).stack.toList = (relayAfter 2).stack.toList.take 1 ++ [.bool true] ∧
    (relayAfter 7).calls = ((relayAfter 2).goTo 3).calls := by
  have next : (relayAfter 2).Next (.of .call 0) .call := ⟨rfl, rfl⟩
  have henter : (step relay 2).run (relayAfter 2) = .ok none (relayAfter 3) := rfl
  have hinside : Inside relay 2 0 (relayAfter 3) (relayAfter 6) :=
    .step (.step (.step .start (u := relayAfter 4) rfl (by decide)) (u := relayAfter 5) rfl
      (by decide)) rfl (by decide)
  have hstep : (step relay 2).run (relayAfter 6) = .ok none (relayAfter 7) := rfl
  obtain ⟨-, hstack, -, hleft⟩ := call_isolated next henter hinside
  rw [hstep] at hleft
  rcases hleft with hdeep | ⟨hresult, hcalls⟩
  · exact absurd hdeep (by decide)
  · exact ⟨next, henter, hinside, hstack, hresult, hcalls⟩

end Minilang.Machine
