import Minilang.Proofs.Bytecode.Heights
import Minilang.Proofs.Bytecode.Refinement
import Minilang.Proofs.Machine.Layout

/-!
# Well-formed bytecode is never to blame

In a run of a well-formed program each call has as many operands as its code says, and a call that
waits for another will have them once that has returned.  So every instruction finds its operands,
its local variable, its constant and its target, and no run ends with a fault that blames the
bytecode, whatever the types of its values are.
-/

namespace Minilang

open Array

/-- A well-formed program. -/
structure Bytecode.Program.WellFormed (b : Bytecode.Program) : Prop where
  func : ∀ g ∈ b.funcs, ∃ boundary, g.WellFormed b.consts boundary
  /-- There is room for the local variables of a function that can be called. -/
  locals_le : ∀ g ∈ b.funcs, g.numLocals ≤ max g.numParams 65536
  callee : ∀ {name : Bytes} {index : Int}, .func name index ∈ b.consts →
    0 ≤ index ∧ index < b.funcs.size
  heap : b.heap.All b.Knows
  entry : 0 ≤ b.entry ∧ b.entry < b.funcs.size

namespace Machine

/-- A call has its operands on a stack of the given size. -/
structure Frame.Has (b : Bytecode.Program) (n : Nat) (fr : Frame) : Prop where
  func : fr.func ∈ b.funcs
  locals : fr.func.numLocals ≤ fr.locals
  size : fr.top + fr.func.height fr.ip = n

/-- Each call has its operands: the current one now, and one that waits for another once it has the
result of that in the place of its part of the stack. -/
structure State.Balanced (b : Bytecode.Program) (s : State) : Prop where
  frame : s.frame.Has b s.stack.size
  callers : Linked (fun c base => c.Has b (base + 1)) s.callers.toList s.frame.base

variable {b : Bytecode.Program} {cap : Int} {s s' : State} {i : Instruction}

lemma height_zero (f : Bytecode.Func) : f.height 0 = 0 := by
  simp [Bytecode.Func.height, Bytecode.climb]

lemma State.Balanced.operands_eq (hs : s.Balanced b) :
    s.operands = s.frame.func.height s.frame.ip := by
  have hsize := hs.frame.size
  simp only [Frame.top] at hsize
  simp only [operands]
  omega

lemma State.Balanced.admits (hb : b.WellFormed) (hs : s.Balanced b)
    (hi : s.frame.func.code[s.frame.ip]? = some i) : ∃ op boundary, i.opcode? = some op ∧
      s.frame.func.Admits b.consts boundary s.frame.ip op i.arg.toNat := by
  obtain ⟨boundary, hwf⟩ := hb.func s.frame.func hs.frame.func
  obtain ⟨op, hop, hadmits⟩ := hwf.admits hi
  exact ⟨op, boundary, hop, hadmits⟩

lemma State.Next.admits (hb : b.WellFormed) (hs : s.Balanced b) {op : Opcode} (next : s.Next i op) :
    ∃ boundary, s.frame.func.Admits b.consts boundary s.frame.ip op i.arg.toNat := by
  obtain ⟨op', boundary, hop, hadmits⟩ := hs.admits hb next.1
  cases hop.symm.trans next.2
  exact ⟨boundary, hadmits⟩

/-! ### Steps -/

variable {f : Fault}

lemma balanced_start (h : start b cap = .ok s) : s.Balanced b := by
  unfold start at h
  split at h
  · cases h
  · rename_i f hf
    split at h
    · cases h
    · cases h
      have hmem : f ∈ b.funcs := by
        split at hf
        · cases hf
        · exact mem_of_getElem? hf
      have hroom : (newFrame f 0 0).room = (newFrame f 0 0).top := if_pos (.inl rfl)
      refine ⟨⟨hmem, ?_, ?_⟩, .nil _ _⟩
      · simp only [newFrame]
        omega
      · rw [size_makeRoom, hroom]
        show (newFrame f 0 0).top + f.height 0 = _
        rw [height_zero]
        simp

variable (hb : b.WellFormed)

include hb

lemma State.Balanced.step (hs : s.Balanced b) (h : Moves b cap s s') : s'.Balanced b := by
  obtain ⟨⟨hfunc, hlocals, hsize⟩, hcallers⟩ := id hs
  simp only [Frame.top] at hsize
  cases h with
  | @operands i op ip vs next replaces takes gives stack ip_mem frame callers =>
    obtain ⟨boundary, hadmits⟩ := next.admits hb hs
    have htakes := hadmits.takes
    have hnext := hadmits.next ip ip_mem
    have hsize' : s'.stack.size = s.stack.size - op.takes i.arg.toNat + vs.length := by
      rw [← length_toList, stack, List.length_append, length_toList, s.size_drop]
    obtain ⟨stack', frame', callers', heap', output'⟩ := s'
    obtain rfl : frame' = _ := frame
    obtain rfl : callers' = _ := callers
    refine ⟨⟨hfunc, hlocals, ?_⟩, hcallers⟩
    show s.frame.base + s.frame.locals + s.frame.func.height ip = _
    omega
  | @store i next takes size below frame callers =>
    obtain ⟨boundary, hadmits⟩ := next.admits hb hs
    have hslot := hadmits.local_lt rfl
    have hnext : s.frame.func.height (s.frame.ip + 1) + 1 = s.frame.func.height s.frame.ip + 0 :=
      hadmits.next _ (Opcode.mem_next rfl)
    have hmax : max s.frame.locals (i.arg.toNat + 1) = s.frame.locals := by omega
    rw [hmax] at frame
    obtain ⟨stack', frame', callers', heap', output'⟩ := s'
    obtain rfl : frame' = _ := frame
    obtain rfl : callers' = _ := callers
    refine ⟨⟨hfunc, hlocals, ?_⟩, hcallers⟩
    show s.frame.base + s.frame.locals + s.frame.func.height (s.frame.ip + 1) = _
    omega
  | @call i f next func params takes depth frame stack callers =>
    obtain ⟨boundary, hadmits⟩ := next.admits hb hs
    have htakes : i.arg.toNat + 1 ≤ s.frame.func.height s.frame.ip := hadmits.takes
    have hnext : s.frame.func.height (s.frame.ip + 1) + (i.arg.toNat + 1) =
        s.frame.func.height s.frame.ip + 1 := hadmits.next _ (Opcode.mem_next rfl)
    have hfew := hb.locals_le f func
    have harg := i.arg.toNat_lt
    have hbase : s'.frame.base = s.stack.size - 1 - i.arg.toNat := by
      rw [frame]
      rfl
    have htop : s'.frame.locals = (max f.numLocals i.arg.toNat).toNat := by
      rw [frame]
      rfl
    have hroom : s'.frame.room = s'.frame.base + s'.frame.locals := if_pos (.inr (.inl (by omega)))
    have hsize' : s'.stack.size = max (s.stack.size - 1) s'.frame.room := by
      rw [stack, size_makeRoom, s.size_drop]
    have hzero : s'.frame.func.height s'.frame.ip = 0 := by
      rw [frame]
      exact height_zero f
    refine ⟨⟨by rw [frame]; exact func, ?_, ?_⟩, ?_⟩
    · rw [show s'.frame.func = f by rw [frame]; rfl]
      omega
    · rw [Frame.top]
      omega
    · rw [callers, toList_push]
      refine linked_concat.mpr ⟨hcallers, hfunc, hlocals, ?_⟩
      show s.frame.base + s.frame.locals + s.frame.func.height (s.frame.ip + 1) = _
      omega
  | ret returns stack callers =>
    rw [callers, toList_push] at hcallers
    obtain ⟨hcallers, hcaller⟩ := linked_concat.mp hcallers
    have hsize' : s'.stack.size = s.frame.base + 1 := by
      rw [← length_toList, stack, List.length_append, List.length_take, length_toList,
        min_eq_left (by omega)]
      rfl
    exact ⟨hsize' ▸ hcaller, hcallers⟩

/-- **A step of a balanced state never blames the bytecode.** -/
theorem State.Balanced.innocent (hs : s.Balanced b) (hknown : s.Known b) (h : Stops b s f s') :
    Ends.Innocent f := by
  obtain ⟨i, hi, hblames⟩ := h.blames
  obtain ⟨op, boundary, hop, hadmits⟩ := hs.admits hb hi
  have hoperands := hs.operands_eq
  generalize hkind : f.kind = kind at hblames
  cases hblames with
  | opcode hnone =>
    rw [hop] at hnone
    cases hnone
  | operands hop' hfew =>
    cases hop.symm.trans hop'
    have htakes := hadmits.takes
    omega
  | slot hop' hnone =>
    cases hop.symm.trans hop'
    have hslot := hadmits.local_lt rfl
    have hlocals := hs.frame.locals
    have hsize := hs.frame.size
    simp only [Frame.top] at hsize
    rw [local?, if_pos (by omega), getElem?_eq_none_iff] at hnone
    omega
  | constant hop' hconst hnone =>
    cases hop.symm.trans hop'
    obtain ⟨v, hv, -⟩ := hadmits.constant hconst
    rw [hnone] at hv
    cases hv
  | target hop' hjumps hfar =>
    cases hop.symm.trans hop'
    have htarget := (hadmits.target hjumps).1
    omega
  | func _ hback hrange =>
    exact absurd (hb.callee (hknown.stack _ (mem_of_back? hback) rfl)) hrange
  | depth => simp [Ends.Innocent, hkind]
  | @other g hvalues => rw [Ends.Innocent, hkind]; exact hvalues.1

/-! ### Runs -/

lemma runFrom_innocent (cap : Int) (tracing : Bool) (steps : Nat) (trace : Array Bytes)
    (hs : s.Balanced b) (hknown : s.Known b)
    (h : (runFrom b cap tracing steps trace s).outcome = .failed f) : Ends.Innocent f := by
  induction steps generalizing s trace with
  | zero => cases h
  | succ steps ih =>
    have hspec := step_spec b cap s
    simp only [runFrom] at h
    cases hstep : (step b cap).run s with
    | ok r s' =>
      rw [hstep] at h
      cases r with
      | none =>
        have hmoves : Moves b cap s s' := hspec.ok hstep
        exact ih _ (hs.step hb hmoves) (hmoves.known hknown) h
      | some v => cases h
    | error e s' =>
      rw [hstep] at h
      cases h
      exact hs.innocent hb hknown (hspec.error hstep)

/-- **No run of a well-formed program blames the bytecode.** -/
theorem run_innocent (cap : Int) (tracing : Bool) (steps : Nat)
    (h : (run b cap tracing steps).outcome = .failed f) : Ends.Innocent f := by
  unfold run at h
  cases hstart : start b cap with
  | ok s =>
    rw [hstart] at h
    exact runFrom_innocent hb cap tracing steps #[] (balanced_start hstart)
      (known_start hb.heap hstart) h
  | error e =>
    rw [hstart] at h
    cases h
    unfold start at hstart
    split at hstart
    · rename_i hnone
      obtain ⟨hzero, hlt⟩ := hb.entry
      rw [if_neg (by omega), getElem?_eq_none_iff] at hnone
      omega
    · split at hstart
      · cases hstart
        exact ⟨nofun, nofun⟩
      · cases hstart

end Machine

namespace Bytecode

/-! ### Generated programs -/

variable {p : Tac.Program} {b : Program}

lemma ProgramCode.func_of_getElem? (hb : ProgramCode p b) {k : Nat} {g : Func}
    (hg : b.funcs[k]? = some g) :
    ∃ f, p.funcs[k]? = some f ∧ Nonempty (FuncCode p b.consts f g) := by
  have hlt : k < p.funcs.length := by
    rw [← hb.size_eq]
    exact (Array.getElem?_eq_some_iff.mp hg).1
  obtain ⟨g', hg', hcode⟩ := hb.func (List.getElem?_eq_getElem hlt)
  cases hg.symm.trans hg'
  exact ⟨p.funcs[k], List.getElem?_eq_getElem hlt, hcode⟩

lemma ProgramCode.callee (hb : ProgramCode p b) {name : Bytes} {index : Int}
    (h : .func name index ∈ b.consts) :
    ∃ (k : Nat) (g : Func), index = k ∧ b.funcs[k]? = some g ∧ g.name = name := by
  obtain ⟨k, hk, rfl⟩ := hb.constant h
  obtain ⟨f, hf, hfind⟩ := Tac.Program.find?_of_index? hk
  obtain ⟨g, hg, ⟨code⟩⟩ := hb.func hf
  refine ⟨k, g, rfl, hg, ?_⟩
  have hname := List.find?_some hfind
  rw [code.name_eq]
  simpa using hname

lemma ProgramCode.wellFormed (hb : ProgramCode p b) : b.WellFormed where
  func g hg := by
    obtain ⟨k, hk⟩ := getElem?_of_mem hg
    obtain ⟨f, -, ⟨code⟩⟩ := hb.func_of_getElem? hk
    exact ⟨_, code.wellFormed⟩
  locals_le g hg := by
    obtain ⟨k, hk⟩ := getElem?_of_mem hg
    obtain ⟨f, -, ⟨code⟩⟩ := hb.func_of_getElem? hk
    rw [code.numParams_eq]
    exact code.numLocals_le
  callee h := by
    obtain ⟨k, g, rfl, hg, -⟩ := hb.callee h
    have hlt := (Array.getElem?_eq_some_iff.mp hg).1
    omega
  heap := by
    rw [hb.heap_eq]
    exact .empty
  entry := by
    obtain ⟨k, hk, hmain⟩ := hb.entry
    obtain ⟨f, hf, -⟩ := Tac.Program.find?_of_index? hmain
    have hlt := (getElem?_eq_some_iff.mp hf).1
    rw [hb.size_eq]
    omega

/-- Bytecode that is balanced: the code of each function is that of its instructions, one after the
other, with a known number of operands before each bytecode instruction, a function among the
constants is one of the program, and no run blames the bytecode. -/
structure Balanced (p : Tac.Program) (b : Program) : Prop where
  func {k : Nat} {g : Func} : b.funcs[k]? = some g → ∃ f, p.funcs[k]? = some f ∧
    g.code.size = offset f.body f.body.length ∧
    (∀ {n : Nat} {i : Located Tac.Instr}, f.body[n]? = some i → ∀ j < width i.val,
      g.span (offset f.body n + j) = i.span) ∧
    g.WellFormed b.consts (IsBoundary f)
  callee {name : Bytes} {index : Int} : .func name index ∈ b.consts →
    ∃ (k : Nat) (g : Func), index = k ∧ b.funcs[k]? = some g ∧ g.name = name
  innocent (cap : Int) (tracing : Bool) (steps : Nat) (f : Fault) :
    (Machine.run b cap tracing steps).outcome = .failed f →
      f.kind ≠ .stackUnderflow ∧ f.kind ≠ .invalidOpcode

/-- **Generated bytecode is well formed and balanced.** -/
theorem generate_balanced {p : Tac.Program} {b : Program} (h : generate p = .ok b) :
    Balanced p b := by
  have hb := programCode_of_generate h
  refine ⟨fun hg => ?_, hb.callee, fun cap tracing steps f hf => ?_⟩
  · obtain ⟨f, hf, ⟨code⟩⟩ := hb.func_of_getElem? hg
    refine ⟨f, hf, ?_, fun hi j hj => code.span_eq hi hj, code.wellFormed⟩
    rw [code.size_eq, code.laid.length_eq]
  · exact Machine.run_innocent hb.wellFormed cap tracing steps hf

theorem generate_balanced_chatter : ∃ b, generate chatter = .ok b ∧ Balanced chatter b := by
  obtain ⟨b, hb⟩ := generate_chatter
  exact ⟨b, hb, generate_balanced hb⟩

end Bytecode

end Minilang
