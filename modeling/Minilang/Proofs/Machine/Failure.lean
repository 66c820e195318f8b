import Minilang.Proofs.Machine.Steps

/-!
# Instructions that fail

An instruction that fails has done nothing but take operands of the current call: every check of an
instruction comes before its effect.  The operands lie above the local variables of all calls, so
the local variables are as they were, and so are the heap, the output and the calls.
-/

namespace Minilang.Machine

variable {p : Bytecode.Program} {cap : Int} {s s' : State} {fr : Frame} {n k : Nat}

/-- The second state differs from the first at most in that the current call has passed an
instruction and some of its operands are gone. -/
structure State.Undisturbed (s s' : State) : Prop where
  heap : s'.heap = s.heap
  output : s'.output = s.output
  callers : s'.callers = s.callers
  frame : s'.frame = { s.frame with ip := s.frame.ip + 1 }
  /-- The local variables of all calls. -/
  locals : ∀ fr ∈ s.calls, ∀ j < fr.locals, s'.stack[fr.base + j]? = s.stack[fr.base + j]?
  /-- The operands of the current call are all that is gone from the stack. -/
  operands : ∃ taken, s.stack.toList = s'.stack.toList ++ taken ∧
    (taken.length : Int) ≤ max s.operands 0

/-! ### Where the local variables are -/

lemma Stacked.top_le {bottom base : Nat} {calls : List Frame} (h : Stacked bottom calls base)
    (hfr : fr ∈ calls) : fr.top ≤ base := by
  induction calls using List.reverseRecOn generalizing base with
  | nil => cases hfr
  | append_singleton calls last ih =>
    obtain ⟨hcalls, htop⟩ := stacked_concat.mp h
    rcases List.mem_append.mp hfr with hmem | hmem
    · have hbase : fr.top ≤ last.base := ih hcalls hmem
      exact le_trans hbase (le_trans (Nat.le_add_right _ _) htop)
    · rwa [List.mem_singleton.mp hmem]

lemma State.Layout.top_le_top (h : s.Layout cap) (hfr : fr ∈ s.calls) : fr.top ≤ s.frame.top := by
  rcases List.mem_append.mp hfr with hmem | hmem
  · exact le_trans (h.stacked.top_le hmem) (Nat.le_add_right _ _)
  · rw [List.mem_singleton.mp hmem]

lemma State.getElem?_drop (h : k < s.stack.size - n) : (s.drop n).stack[k]? = s.stack[k]? := by
  rw [← Array.getElem?_toList, ← Array.getElem?_toList, toList_drop, List.getElem?_take_of_lt h]

lemma State.getElem?_drop_of_operands (hn : (n : Int) ≤ max s.operands 0)
    (hk : k < s.frame.top) : (s.drop n).stack[k]? = s.stack[k]? := by
  by_cases hoperands : s.operands ≤ 0
  · -- The call has no operands, maybe not even all its local variables.
    obtain rfl : n = 0 := by omega
    rw [drop_zero]
  · refine getElem?_drop ?_
    simp only [operands] at hn hoperands
    simp only [Frame.top] at hk
    omega

/-- **An instruction that fails has no lasting effect.**  In every state that a program comes to, an
instruction that fails leaves the heap, the output, the calls and all their local variables as they
were, and takes at most operands of the current call. -/
theorem undisturbed_of_error {f : Fault} (hs : Reaches p cap s)
    (hstep : (step p cap).run s = .error f s') : s.Undisturbed s' := by
  obtain ⟨n, hn, rfl⟩ := ((step_spec p cap s).error hstep).state
  refine ⟨rfl, rfl, rfl, rfl, fun fr hfr j hj => ?_, ?_⟩
  · have htop := hs.layout.top_le_top hfr
    have hplace : fr.base + j < s.frame.top := Nat.lt_of_lt_of_le (Nat.add_lt_add_left hj _) htop
    exact State.getElem?_drop_of_operands (s := s.advanced) hn hplace
  · have hlength : (s.stack.toList.drop (s.stack.size - n)).length ≤ n := by
      rw [List.length_drop, Array.length_toList]
      omega
    refine ⟨s.stack.toList.drop (s.stack.size - n), ?_, by omega⟩
    rw [State.toList_drop]
    exact (List.take_append_drop _ _).symm

/-- A program whose main function passes an array of one element to a function, which stores to the
tenth. -/
def overrun : Bytecode.Program where
  consts := #[.array 0, .func "spoil" 1, .int 9]
  heap := (Heap.empty.newArray #[.int 5]).2
  funcs := #[⟨"main", 0, 1, #[.of .const 0, .of .const 1, .of .call 1], #[]⟩,
    ⟨"spoil", 1, 1, #[.of .load 0, .of .const 2, .of .const 2, .of .indexSet 0], #[]⟩]
  entry := 0

/-- The state before the element is stored. -/
def overrunState : State :=
  ⟨#[.null, .array 0, .array 0, .int 9, .int 9], ⟨overrun.funcs[1], 3, 1, 1⟩,
    #[⟨overrun.funcs[0], 3, 0, 1⟩], overrun.heap, #[]⟩

theorem undisturbed_overrun :
    after overrun 2 6 = some overrunState ∧ overrunState.operands = 3 ∧
      ∃ f s', (step overrun 2).run overrunState = .error f s' ∧ f.kind = .indexOutOfBounds ∧
        s'.operands = 0 ∧ overrunState.Undisturbed s' := by
  have hafter : after overrun 2 6 = some overrunState := rfl
  exact ⟨hafter, rfl, _, _, rfl, rfl, rfl, undisturbed_of_error (reaches_of_after hafter) rfl⟩

end Minilang.Machine
