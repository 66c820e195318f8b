import Minilang.Machine.Run
import Minilang.Proofs.Value.Contents
import Mathlib.Data.List.Basic

/-!
# What one step of the machine does

A step that succeeds does one of four things: it replaces operands of the current call by others, it
pops a value into a local variable, it calls a function, or it returns from the current call.
`Moves` says what each of them does to the stack and to the calls, and `Stops` says what a step that
fails leaves, and when it may blame the bytecode itself: an operation that does not exist, too few
operands, or an argument that is out of range.  Only a call can be refused for its depth.  No step
makes a function: one on the stack or in the heap is a constant of the program (`State.Known`).
What a step does in a whole run is derived from `step_spec`, with no further look at the
instructions.
-/

namespace Minilang

open List

variable {op : Opcode}

namespace Opcode

variable {ip arg : Nat}

/-- The number of operands that an operation takes. -/
def takes (arg : Nat) : Opcode → Nat
  | .const | .load | .null | .jump => 0
  | .store | .pop | .primitive _ | .jumpIfFalse | .ret | .print | .fieldGet => 1
  | .binary _ | .indexGet | .fieldSet => 2
  | .indexSet => 3
  | .call => arg + 1
  | .array => arg
  | .record => 1 + 2 * arg

/-- The number of values that an operation gives.  A call gives one once it has returned. -/
def gives : Opcode → Nat
  | .const | .load | .null | .binary _ | .primitive _ | .call | .array | .indexGet | .record
  | .fieldGet => 1
  | .store | .pop | .jump | .jumpIfFalse | .ret | .print | .indexSet | .fieldSet => 0

/-- Whether the argument is the number of a local variable. -/
def argIsLocal : Opcode → Bool
  | .load | .store => true
  | _ => false

/-- Whether an operation goes on at the instruction that its argument numbers. -/
def jumps : Opcode → Bool
  | .jump | .jumpIfFalse => true
  | _ => false

/-- Whether all that an operation does to the stack is to replace its operands by others. -/
def replaces : Opcode → Bool
  | .store | .call | .ret => false
  | _ => true

/-- The instructions that an operation at `ip` goes on at in the same call. -/
def next (ip arg : Nat) : Opcode → List Nat
  | .jump => [arg]
  | .jumpIfFalse => [ip + 1, arg]
  | .ret => []
  | _ => [ip + 1]

lemma mem_next (h : op.next ip arg = [ip + 1]) : ip + 1 ∈ op.next ip arg := by
  rw [h]
  exact mem_singleton.mpr rfl

lemma eq_of_jumps (h : op.jumps) : op = .jump ∨ op = .jumpIfFalse := by
  cases op with
  | jump => exact .inl rfl
  | jumpIfFalse => exact .inr rfl
  | _ => cases h

lemma of_mem_next {ip' : Nat} (h : ip' ∈ op.next ip arg) : ip' = ip + 1 ∨ op.jumps ∧ ip' = arg := by
  cases op with
  | jump => exact .inr ⟨rfl, mem_singleton.mp h⟩
  | jumpIfFalse => simpa [next, jumps] using h
  | ret => cases h
  | _ => exact .inl (mem_singleton.mp h)

end Opcode

/-- A value that is not a function, or is one that the program has as a constant. -/
def Bytecode.Program.Knows (p : Bytecode.Program) (v : Value) : Prop :=
  v.kind = .func → v ∈ p.consts

namespace Machine

variable {i : Instruction} {n : Nat} {s s' : State}

namespace State

/-- The next instruction, with its opcode. -/
def Next (s : State) (i : Instruction) (op : Opcode) : Prop :=
  s.frame.func.code[s.frame.ip]? = some i ∧ i.opcode? = some op

/-- The next instruction is a return, if there is one. -/
def Returns (s : State) : Prop :=
  ∀ i op, s.Next i op → op = .ret

/-- The state at another instruction of the current call. -/
def goTo (s : State) (ip : Nat) : State :=
  { s with frame := { s.frame with ip } }

/-- The state at the next instruction. -/
abbrev advanced (s : State) : State :=
  s.goTo (s.frame.ip + 1)

/-- The state without its topmost values. -/
def drop (s : State) (n : Nat) : State :=
  { s with stack := s.stack.take (s.stack.size - n) }

/-- What the current call returns if it ends here: the operand on top, or else no value. -/
def result (s : State) : Value :=
  if s.operands ≤ 0 then .null else s.stack.back?.getD .null

/-- The fault of the instruction before the next. -/
def fault (s : State) (kind : FaultKind) (cause : Bytes) : Fault :=
  ⟨kind, s.frame.func.name, s.frame.ip - 1, s.frame.func.span (s.frame.ip - 1), cause⟩

/-- What has been printed in one state is the beginning of what has been printed in another. -/
def PrintsOn (s s' : State) : Prop :=
  s.output.toList <+: s'.output.toList

lemma PrintsOn.of_eq (h : s'.output = s.output) : s.PrintsOn s' :=
  show s.output.toList <+: s'.output.toList from h ▸ prefix_rfl

lemma Next.op_eq {j : Instruction} {op' : Opcode} (h : s.Next i op) (h' : s.Next j op') :
    op = op' := by
  cases h.1.symm.trans h'.1
  exact Option.some.inj (h.2.symm.trans h'.2)

lemma Next.returns (h : s.Next i .ret) : s.Returns :=
  fun _ _ h' => h'.op_eq h

lemma size_drop (s : State) (n : Nat) : (s.drop n).stack.size = s.stack.size - n := by
  simp only [drop, Array.size_extract]
  omega

lemma toList_drop (s : State) (n : Nat) :
    (s.drop n).stack.toList = s.stack.toList.take (s.stack.size - n) := by
  simp [drop]

lemma take_drop {k : Nat} (h : k ≤ s.stack.size - n) :
    (s.drop n).stack.toList.take k = s.stack.toList.take k := by
  rw [toList_drop, take_take, Nat.min_eq_left h]

lemma operands_drop (h : (n : Int) ≤ s.operands) : (s.drop n).operands = s.operands - n := by
  have hsize := s.size_drop n
  simp only [operands] at h ⊢
  rw [show (s.drop n).frame = s.frame from rfl]
  omega

lemma drop_zero (s : State) : s.drop 0 = s := by
  simp [drop]

lemma drop_drop (s : State) (m n : Nat) : (s.drop m).drop n = s.drop (m + n) := by
  have hsize := s.size_drop m
  have hmin : min (s.stack.size - m - n) (s.stack.size - m) = s.stack.size - (m + n) := by omega
  rw [drop, hsize]
  simp only [drop, Array.extract_extract, Nat.zero_add, hmin]

end State

/-! ### The functions among the values -/

variable {f : Fault} {v : Value} {p : Bytecode.Program} {α : Type} {Q : α → State → Prop}
  {cap : Int}

/-- All values of a state are known. -/
structure State.Known (p : Bytecode.Program) (s : State) : Prop where
  stack : ∀ v ∈ s.stack, p.Knows v
  heap : s.heap.All p.Knows

lemma knows_of_kind (h : v.kind ≠ .func) : p.Knows v :=
  fun hv => absurd hv h

lemma knows_null : p.Knows .null :=
  knows_of_kind nofun

lemma knows_getD {v? : Option Value} (h : ∀ v, v? = some v → p.Knows v) :
    p.Knows (v?.getD .null) := by
  cases v? with
  | none => exact knows_null
  | some v => exact h v rfl

lemma knows_padded {stack : Array Value} (h : ∀ v ∈ stack, p.Knows v) :
    ∀ v ∈ padded stack n, p.Knows v := by
  intro v hv
  rcases Array.mem_append.mp hv with hv | hv
  · exact h v hv
  · rw [(Array.mem_replicate.mp hv).2]
    exact knows_null

namespace State.Known

variable (h : s.Known p)

include h

lemma replace {vs : List Value} (hstack : s'.stack.toList = s.stack.toList.take n ++ vs)
    (hvs : ∀ v ∈ vs, p.Knows v) (hheap : s'.heap.All p.Knows) : s'.Known p := by
  refine ⟨fun v hv => ?_, hheap⟩
  rw [← Array.mem_toList_iff, hstack] at hv
  rcases mem_append.mp hv with hv | hv
  · exact h.stack v (Array.mem_toList_iff.mp (mem_of_mem_take hv))
  · exact hvs v hv

lemma drop (n : Nat) : (s.drop n).Known p :=
  h.replace (by rw [toList_drop, append_nil]) (forall_mem_nil _) h.heap

lemma push (hv : p.Knows v) : Known p { s with stack := s.stack.push v } :=
  h.replace (by rw [Array.toList_push, take_of_length_le (Nat.le_refl _)])
    (forall_mem_singleton.mpr hv)
    h.heap

lemma back : p.Knows (s.stack.back?.getD .null) :=
  knows_getD fun v hv => h.stack v (Array.mem_of_back? hv)

lemma result : p.Knows s.result := by
  unfold State.result
  split
  · exact knows_null
  · exact h.back

lemma slot (hv : s.local? n = some v) : p.Knows v := by
  unfold local? at hv
  split at hv
  · exact h.stack v (Array.mem_of_getElem? hv)
  · cases hv

end State.Known

lemma known_start (hheap : p.heap.All p.Knows) (h : start p cap = .ok s) : s.Known p := by
  unfold start at h
  split at h
  · cases h
  · split at h
    · cases h
    · cases h
      exact ⟨knows_padded (by simp), hheap⟩

/-! ### How a part of an instruction ends -/

/-- A part of an instruction that begins in a state ends with a result and a state of one kind, or
with a fault and a state of another. -/
def Ends {α : Type} (x : Exec α) (s : State) (Q : α → State → Prop) (E : Fault → State → Prop) :
    Prop :=
  match x.run s with
  | .ok a s' => Q a s'
  | .error f s' => E f s'

namespace Ends

variable {β : Type} {E : Fault → State → Prop} {a : α} {x : Exec α}

lemma of_ok (h : x.run s = .ok a s') (hQ : Q a s') : Ends x s Q E := by
  rw [Ends, h]
  exact hQ

lemma of_error (h : x.run s = .error f s') (hE : E f s') : Ends x s Q E := by
  rw [Ends, h]
  exact hE

lemma ok (h : Ends x s Q E) (hx : x.run s = .ok a s') : Q a s' := by
  rw [Ends, hx] at h
  exact h

lemma error (h : Ends x s Q E) (hx : x.run s = .error f s') : E f s' := by
  rw [Ends, hx] at h
  exact h

lemma bind {f : α → Exec β} {Q : β → State → Prop}
    (h : Ends x s (fun a s' => Ends (f a) s' Q E) E) : Ends (x >>= f) s Q E := by
  rw [Ends, EStateM.run_bind]
  cases hx : x.run s with
  | ok a s' => exact h.ok hx
  | error e s' => exact h.error hx

lemma imp {Q' : α → State → Prop} {E' : Fault → State → Prop} (h : Ends x s Q E)
    (hQ : ∀ a s', Q a s' → Q' a s') (hE : ∀ f s', E f s' → E' f s') : Ends x s Q' E' := by
  cases hx : x.run s with
  | ok a s' => exact of_ok hx (hQ a s' (h.ok hx))
  | error e s' => exact of_error hx (hE e s' (h.error hx))

lemma fail {kind : FaultKind} {cause : Bytes} (h : E (s.fault kind cause) s) :
    Ends (fail kind cause : Exec α) s Q E :=
  of_error rfl h

/-! ### Operands -/

lemma pop {Q : Value → State → Prop} (hnone : s.operands ≤ 0 → E (s.fault .stackUnderflow i.text) s)
    (hsome : 0 < s.operands → Q (s.stack.back?.getD .null) (s.drop 1)) :
    Ends (pop i) s Q E := by
  by_cases h : s.operands ≤ 0
  · refine bind (of_ok rfl ?_)
    rw [if_pos h]
    exact fail (hnone h)
  · refine bind (of_ok rfl ?_)
    rw [if_neg h]
    have hpop : s.stack.take (s.stack.size - 1) = s.stack.pop := Array.extract_eq_pop rfl
    have hdrop := hsome (by omega)
    rw [State.drop, hpop] at hdrop
    exact of_ok rfl hdrop

lemma popMany {Q : List Value → State → Prop}
    (hfew : ∀ cause, s.operands < n → E (s.fault .stackUnderflow cause) s)
    (hmany : ∀ xs, (n : Int) ≤ s.operands → xs.length = n →
      s.stack.toList = (s.drop n).stack.toList ++ xs → Q xs (s.drop n)) :
    Ends (popMany i n) s Q E := by
  by_cases h : s.operands < n
  · refine bind (of_ok rfl ?_)
    rw [if_pos h]
    exact fail (hfew _ h)
  · refine bind (of_ok rfl ?_)
    rw [if_neg h]
    have hn : n ≤ s.stack.size := by
      simp only [State.operands] at h
      omega
    have htop : (s.stack.extract (s.stack.size - n) s.stack.size).toList =
        s.stack.toList.drop (s.stack.size - n) := by
      rw [Array.toList_extract, extract_eq_take_drop, take_of_length_le (by simp)]
    refine of_ok rfl ?_
    simp only [htop, Array.shrink_eq_take]
    refine hmany (s.stack.toList.drop (s.stack.size - n)) (by omega) ?_ ?_
    · rw [length_drop, Array.length_toList]
      omega
    · simp [State.drop]

lemma length_of_popMany {xs : List Value} (h : (Machine.popMany i n).run s = .ok xs s') :
    xs.length = n :=
  (popMany (Q := fun xs _ => xs.length = n) (E := fun _ _ => True) (fun _ _ => trivial)
    fun _ _ hlength _ => hlength).ok h

lemma push {Q : Unit → State → Prop} (h : Q () { s with stack := s.stack.push v }) :
    Ends (push v) s Q E :=
  of_ok rfl h

lemma load {Q : Unit → State → Prop}
    (hnone : ∀ cause, s.local? n = none → E (s.fault .stackUnderflow cause) s)
    (hsome : ∀ v, s.local? n = some v → Q () { s with stack := s.stack.push v }) :
    Ends (load n) s Q E := by
  refine bind (of_ok rfl ?_)
  cases h : s.local? n with
  | none => exact fail (hnone _ h)
  | some v => exact push (hsome v h)

/-! ### Parts that leave the stack alone -/

/-- The code is not to blame for the fault. -/
def Innocent (f : Fault) : Prop :=
  f.kind ≠ .stackUnderflow ∧ f.kind ≠ .invalidOpcode

/-- A fault that depends on the values only. -/
def OfValues (f : Fault) : Prop :=
  Innocent f ∧ f.kind ≠ .stackOverflow

attribute [local simp] OfValues Innocent State.fault

lemma constant {Q : Value → State → Prop}
    (hnone : ∀ cause, p.consts[n]? = none → E (s.fault .invalidOpcode cause) s)
    (hsome : ∀ v, p.consts[n]? = some v → Q v s) : Ends (constant p n) s Q E := by
  rw [Machine.constant]
  cases h : p.consts[n]? with
  | none => exact fail (hnone _ h)
  | some v => exact of_ok rfl (hsome v h)

lemma asName {Q : Bytes → State → Prop} (hsome : ∀ name, v = .string name → Q name s)
    (hE : ∀ f, OfValues f → E f s) : Ends (asName v) s Q E := by
  cases v with
  | string name => exact of_ok rfl (hsome name rfl)
  | _ => exact fail (hE _ (by simp))

lemma ofOperation {Q : Value → State → Prop} {r : Except OperationError Value}
    (hok : ∀ v, r = .ok v → Q v s) (hE : ∀ f, OfValues f → E f s) :
    Ends (ofOperation r) s Q E := by
  cases r with
  | ok v => exact of_ok rfl (hok v rfl)
  | error e => exact fail (hE _ (by cases e <;> simp [OperationError.kind]))

lemma position {Q : Nat × Nat → State → Prop} {array index : Value}
    (hok : ∀ ref n, array = .array ref → n < (s.heap.elems ref).size → Q (ref, n) s)
    (hE : ∀ f, OfValues f → E f s) : Ends (position array index) s Q E := by
  cases array with
  | array ref =>
    cases index with
    | int n =>
      refine bind (of_ok rfl ?_)
      by_cases h : n.toInt < 0 ∨ ((s.heap.elems ref).size : Int) ≤ n.toInt
      · simp only [if_pos h]
        exact fail (hE _ (by simp))
      · simp only [if_neg h]
        exact of_ok rfl (hok ref _ rfl (by omega))
    | _ => exact fail (hE _ (by simp))
  | _ => exact fail (hE _ (by simp))

lemma fieldOf {Q : Nat × Bytes × Value → State → Prop} {record : Value}
    (hok : ∀ ref name v, record = .record ref → (s.heap.record ref).get? name = some v →
      Q (ref, name, v) s)
    (hnone : ∀ cause, p.consts[n]? = none → E (s.fault .invalidOpcode cause) s)
    (hE : ∀ f, OfValues f → E f s) : Ends (fieldOf p record n) s Q E := by
  cases record with
  | record ref =>
    refine bind (constant hnone fun v _ => bind (asName (fun name _ => bind (of_ok rfl ?_)) hE))
    cases h : (s.heap.record ref).get? name with
    | none =>
      simp only [h]
      exact fail (hE _ (by simp))
    | some v =>
      simp only [h]
      exact of_ok rfl (hok ref name v rfl h)
  | _ => exact fail (hE _ (by simp))

lemma withFields {Q : Record → State → Prop} (r : Record) (fields : List Value)
    (hok : ∀ r' : Record, ((∀ f ∈ r.fields, p.Knows f.2) → (∀ v ∈ fields, p.Knows v) →
      ∀ f ∈ r'.fields, p.Knows f.2) → Q r' s)
    (hE : ∀ f, OfValues f → E f s) : Ends (withFields r fields) s Q E := by
  fun_induction Machine.withFields r fields with
  | case1 r name v rest ih =>
    refine bind (asName (fun name _ => ih name fun r' hr' => hok r' fun hr hvs =>
      hr' (fun f hf => ?_) fun w hw => hvs w (by simp [hw])) hE)
    rcases Record.mem_setIn hf with hf | hf
    · exact hr f hf
    · exact hf ▸ hvs v (by simp)
  | case2 fields r => exact of_ok rfl (hok r fun hr _ => hr)

end Ends

/-! ### Steps -/

/-- What a step that succeeds and goes on does. -/
inductive Moves (p : Bytecode.Program) (cap : Int) (s s' : State) : Prop
  /-- Operands are replaced by others. -/
  | operands {i : Instruction} {op : Opcode} {ip : Nat} (vs : List Value) (next : s.Next i op)
      (replaces : op.replaces)
      (takes : (op.takes i.arg.toNat : Int) ≤ max s.operands 0) (gives : vs.length = op.gives)
      (stack : s'.stack.toList = (s.drop (op.takes i.arg.toNat)).stack.toList ++ vs)
      (ip_mem : ip ∈ op.next s.frame.ip i.arg.toNat) (frame : s'.frame = (s.goTo ip).frame)
      (callers : s'.callers = s.callers) (output : s.PrintsOn s') (known : s.Known p → s'.Known p)
  /-- A value is popped into a local variable, which there may have been no room for. -/
  | store {i : Instruction} (next : s.Next i .store) (takes : 0 < s.operands)
      (size : s'.stack.size = max (s.stack.size - 1) (s.frame.base + i.arg.toNat + 1))
      (below : s'.stack.toList.take s.frame.base = s.stack.toList.take s.frame.base)
      (frame : s'.frame = { s.frame with
        ip := s.frame.ip + 1, locals := max s.frame.locals (i.arg.toNat + 1) })
      (callers : s'.callers = s.callers) (output : s.PrintsOn s') (known : s.Known p → s'.Known p)
  /-- A function is called with the arguments on top of the stack. -/
  | call {i : Instruction} {f : Bytecode.Func} (next : s.Next i .call) (func : f ∈ p.funcs)
      (params : f.numParams = i.arg.toNat) (takes : (i.arg.toNat : Int) + 1 ≤ s.operands)
      (depth : (s.callers.size : Int) + 1 < cap)
      (frame : s'.frame = newFrame f (s.stack.size - 1) i.arg.toNat)
      (stack : s'.stack = s'.frame.makeRoom (s.drop 1).stack)
      (callers : s'.callers = s.callers.push s.advanced.frame)
      (output : s.PrintsOn s') (known : s.Known p → s'.Known p)
  /-- The current call returns to the one around it. -/
  | ret (returns : s.Returns)
      (stack : s'.stack.toList = s.stack.toList.take s.frame.base ++ [s.result])
      (callers : s.callers = s'.callers.push s'.frame) (output : s.PrintsOn s')
      (known : s.Known p → s'.Known p)

/-- The kinds of faults of an instruction, with the reasons to blame the bytecode. -/
inductive Blames (p : Bytecode.Program) (s : State) (i : Instruction) : FaultKind → Prop
  | opcode : i.opcode? = none → Blames p s i .invalidOpcode
  | operands {op : Opcode} : i.opcode? = some op → s.operands < op.takes i.arg.toNat →
      Blames p s i .stackUnderflow
  | slot : i.opcode? = some .load → s.local? i.arg.toNat = none → Blames p s i .stackUnderflow
  | constant {op : Opcode} : i.opcode? = some op → op.argIsConst → p.consts[i.arg.toNat]? = none →
      Blames p s i .invalidOpcode
  | target {op : Opcode} : i.opcode? = some op → op.jumps → s.frame.func.code.size < i.arg.toNat →
      Blames p s i .invalidOpcode
  | func {name : Bytes} {index : Int} : i.opcode? = some .call →
      s.stack.back? = some (.func name index) → ¬(0 ≤ index ∧ index < p.funcs.size) →
      Blames p s i .invalidOpcode
  | depth : i.opcode? = some .call → Blames p s i .stackOverflow
  | other {f : Fault} : Ends.OfValues f → Blames p s i f.kind

/-- What a step that fails leaves: the state with some of its operands taken. -/
structure Stops (p : Bytecode.Program) (s : State) (f : Fault) (s' : State) : Prop where
  blames : ∃ i, s.frame.func.code[s.frame.ip]? = some i ∧ Blames p s i f.kind
  state : ∃ n : Nat, (n : Int) ≤ max s.operands 0 ∧ s' = s.advanced.drop n

/-- What a step that succeeds leaves, with the result of the program once it has one. -/
def Succeeds (p : Bytecode.Program) (cap : Int) (s : State) (r : Option Value) (s' : State) :
    Prop :=
  match r with
  | none => Moves p cap s s'
  | some v => s.callers = #[] ∧ v = s.result ∧ s.PrintsOn s'

section

variable {s1 : State} {heap : Heap}

attribute [local simp] Ends.OfValues Ends.Innocent State.fault

lemma Moves.known (h : Moves p cap s s') : s.Known p → s'.Known p := by
  cases h with
  | operands | store | call | ret => assumption

/-- An instruction that takes its operands and goes on at the next. -/
theorem Moves.of_take {output : Array Bytes} (next : s.Next i op) (replaces : op.replaces)
    (takes : (op.takes i.arg.toNat : Int) ≤ s.operands) (gives : op.gives = 0)
    (ip_mem : s.frame.ip + 1 ∈ op.next s.frame.ip i.arg.toNat)
    (prints : s.output.toList <+: output.toList) (known : s.Known p → heap.All p.Knows) :
    Moves p cap s ⟨(s.drop (op.takes i.arg.toNat)).stack, s.advanced.frame, s.callers,
      heap, output⟩ :=
  .operands [] next replaces (by omega) gives.symm (append_nil _).symm ip_mem rfl rfl prints
    fun h => ⟨(h.drop _).stack, known h⟩

/-- An instruction that pushes a value in the place of its operands and goes on at the next. -/
theorem Moves.of_replace (next : s.Next i op) (replaces : op.replaces)
    (takes : (op.takes i.arg.toNat : Int) ≤ s.operands) (gives : op.gives = 1)
    (ip_mem : s.frame.ip + 1 ∈ op.next s.frame.ip i.arg.toNat) (value : s.Known p → p.Knows v)
    (known : s.Known p → heap.All p.Knows) : Moves p cap s
      ⟨(s.drop (op.takes i.arg.toNat)).stack.push v, s.advanced.frame, s.callers, heap, s.output⟩ :=
  .operands [v] next replaces (by omega) gives.symm Array.toList_push ip_mem rfl rfl prefix_rfl
    fun h => ⟨((h.drop _).push (value h)).stack, known h⟩

lemma Stops.of_drop (hi : s.frame.func.code[s.frame.ip]? = some i) (hblames : Blames p s i f.kind)
    (hn : (n : Int) ≤ s.operands) : Stops p s f (s.advanced.drop n) :=
  ⟨⟨i, hi, hblames⟩, n, by omega, rfl⟩

lemma Stops.at_once (hi : s.frame.func.code[s.frame.ip]? = some i)
    (hblames : Blames p s i f.kind) : Stops p s f s.advanced :=
  ⟨⟨i, hi, hblames⟩, 0, by omega, (State.drop_zero _).symm⟩

lemma State.operands_goTo (s : State) (ip : Nat) : (s.goTo ip).operands = s.operands := rfl

lemma Ends.popOne {f : Value → Exec α} (next : s.Next i op) (htakes : 1 ≤ op.takes i.arg.toNat)
    (h : ((1 : Nat) : Int) ≤ s.operands → ∀ v, v = s.stack.back?.getD .null →
      Ends (f v) (s.advanced.drop 1) Q (Stops p s)) :
    Ends (Machine.pop i >>= f) s.advanced Q (Stops p s) := by
  refine bind (pop (fun hle => .at_once next.1 (.operands next.2 ?_)) fun hpos => h hpos _ rfl)
  rw [State.operands_goTo] at hle
  omega

lemma Ends.popAll {f : List Value → Exec α} (next : s.Next i op) (htakes : op.takes i.arg.toNat = n)
    (h : (n : Int) ≤ s.operands → ∀ xs, xs.length = n → (s.Known p → ∀ v ∈ xs, p.Knows v) →
      Ends (f xs) (s.advanced.drop n) Q (Stops p s)) :
    Ends (Machine.popMany i n >>= f) s.advanced Q (Stops p s) := by
  refine bind (popMany (fun _ hfew => .at_once next.1 (.operands next.2 ?_))
    fun xs hn hlen hstack => h hn xs hlen fun hs v hv => hs.stack v ?_)
  · rw [State.operands_goTo] at hfew
    omega
  · have hmem : v ∈ s.stack.toList := hstack ▸ mem_append_right _ hv
    exact Array.mem_toList_iff.mp hmem

lemma jump_spec (next : s.Next i op) (hjumps : op.jumps) (hn : (n : Int) ≤ max s.operands 0)
    (hs1 : s1 = s.advanced.drop n) :
    Ends (jump i.arg.toNat) s1 (fun _ s' => s' = (s.drop n).goTo i.arg.toNat) (Stops p s) := by
  subst hs1
  refine .bind (.of_ok rfl ?_)
  by_cases h : s.frame.func.code.size < i.arg.toNat
  · have h' : (s.advanced.drop n).frame.func.code.size < i.arg.toNat := h
    rw [if_pos h']
    exact .fail ⟨⟨i, next.1, .target next.2 hjumps h⟩, n, hn, rfl⟩
  · have h' : ¬(s.advanced.drop n).frame.func.code.size < i.arg.toNat := h
    rw [if_neg h']
    exact .of_ok rfl rfl

lemma store_spec (next : s.Next i .store) :
    Ends (store i i.arg.toNat) s.advanced (fun _ => Moves p cap s) (Stops p s) := by
  refine .popOne next (Nat.le_refl 1) fun hpos v hv => .of_ok rfl ?_
  have hsize : (s.advanced.drop 1).stack.size = s.stack.size - 1 :=
    s.advanced.size_drop 1
  have hframe : (s.advanced.drop 1).frame.base = s.frame.base := rfl
  have hbase : s.frame.base ≤ s.stack.size - 1 := by
    simp only [State.operands] at hpos
    omega
  refine .store next (by omega) ?_ ?_ rfl rfl prefix_rfl fun hs => ⟨fun w hw => ?_, hs.heap⟩
  · simp only [padded, Array.size_setIfInBounds, Array.size_append, Array.size_replicate]
    omega
  · simp only [padded, Array.toList_setIfInBounds, Array.toList_append]
    rw [take_set_of_le (by omega), take_append_of_le_length (by rw [Array.length_toList]; omega)]
    exact State.take_drop hbase
  · rcases Array.mem_or_eq_of_mem_setIfInBounds hw with hw | rfl
    · exact knows_padded (hs.drop 1).stack w hw
    · exact hv ▸ hs.back

lemma enter_spec {f : Bytecode.Func} (next : s.Next i .call) (func : f ∈ p.funcs)
    (params : f.numParams = i.arg.toNat) (takes : (i.arg.toNat : Int) + 1 ≤ s.operands) :
    Ends (enter cap f i.arg.toNat) (s.advanced.drop 1) (fun _ => Moves p cap s) (Stops p s) := by
  refine .bind (.of_ok rfl ?_)
  by_cases hdeep : cap ≤ (s.callers.size : Int) + 1
  · have hdeep' : cap ≤ (s.advanced.drop 1).callers.size + 1 := hdeep
    rw [if_pos hdeep']
    exact .fail (.of_drop next.1 (.depth next.2) (by omega))
  · have hdeep' : ¬cap ≤ (s.advanced.drop 1).callers.size + 1 := hdeep
    rw [if_neg hdeep']
    refine .of_ok rfl (.call next func params takes (by omega) ?_ rfl rfl prefix_rfl fun hs =>
      ⟨knows_padded (hs.drop 1).stack, hs.heap⟩)
    rw [← s.size_drop 1]
    rfl

lemma call_spec (next : s.Next i .call) :
    Ends (call p cap i) s.advanced (fun _ => Moves p cap s) (Stops p s) := by
  obtain ⟨hi, hop⟩ := id next
  refine .popOne next (by simp [Opcode.takes]) fun hpos v hv => ?_
  cases v with
  | func name index =>
    simp only []
    cases hf : (if index < 0 then none else p.funcs[index.toNat]?) with
    | none =>
      have hback : s.stack.back? = some (.func name index) := by
        cases hback : s.stack.back? with
        | none => simp [hback] at hv
        | some w => rw [hv, hback, Option.getD_some]
      refine .fail (.of_drop hi (.func hop hback ?_) hpos)
      rintro ⟨hzero, hlt⟩
      rw [if_neg (by omega), Array.getElem?_eq_none_iff] at hf
      omega
    | some f =>
      have hmem : f ∈ p.funcs := by
        split at hf
        · cases hf
        · exact Array.mem_of_getElem? hf
      simp only []
      by_cases hparams : (i.arg.toNat : Int) ≠ f.numParams
      · rw [if_pos hparams]
        refine .fail (.of_drop hi (.other ?_) hpos)
        simp
      · rw [if_neg hparams]
        refine .bind (.of_ok rfl ?_)
        have hoperands := State.operands_drop (s := s.advanced) hpos
        rw [State.operands_goTo] at hoperands
        by_cases hfew : (s.advanced.drop 1).operands < i.arg.toNat
        · rw [if_pos hfew]
          refine .fail (.of_drop hi (.operands hop ?_) hpos)
          show s.operands < (i.arg.toNat + 1 : Nat)
          omega
        · rw [if_neg hfew]
          exact enter_spec next hmem (by omega) (by omega)
  | _ =>
    refine .fail (.of_drop hi (.other ?_) hpos)
    simp

lemma leave_spec (hreturns : s.Returns) (hbase : s1.frame.base = s.frame.base)
    (hcallers : s1.callers = s.callers) (houtput : s1.output = s.output) (hheap : s1.heap = s.heap)
    (hstack : s1.stack.toList.take s.frame.base = s.stack.toList.take s.frame.base) :
    Ends (leave s.result) s1 (Succeeds p cap s) (Stops p s) := by
  cases hback : s.callers.back? with
  | none =>
    have hrun : (leave s.result).run s1 = .ok (some s.result)
        ⟨(s1.stack.shrink s1.frame.base).push s.result, s1.frame, s1.callers, s1.heap,
          s1.output⟩ := by
      simp [leave, hcallers, hback]
    exact .of_ok hrun ⟨Array.back?_eq_none_iff.mp hback, rfl, .of_eq houtput⟩
  | some caller =>
    obtain ⟨outer, houter⟩ := Array.back?_eq_some_iff.mp hback
    have hrun : (leave s.result).run s1 = .ok none
        ⟨(s1.stack.shrink s1.frame.base).push s.result, caller, s1.callers.pop, s1.heap,
          s1.output⟩ := by
      simp [leave, hcallers, hback]
    have hstack' : ((s1.stack.shrink s1.frame.base).push s.result).toList =
        s.stack.toList.take s.frame.base ++ [s.result] := by
      rw [Array.toList_push, Array.toList_shrink, hbase, hstack]
    refine .of_ok hrun (.ret hreturns hstack' ?_ (.of_eq houtput) fun hs => ?_)
    · rw [hcallers, houter, Array.pop_push]
    · exact hs.replace hstack' (by simpa using hs.result) (hheap ▸ hs.heap)

lemma execute_spec (next : s.Next i op) :
    Ends (execute p cap i) s.advanced (Succeeds p cap s) (Stops p s) := by
  obtain ⟨hi, hop⟩ := id next
  have innocent : ∀ {n : Nat}, (n : Int) ≤ s.operands → ∀ f, Ends.OfValues f →
      Stops p s f (s.advanced.drop n) := fun hn f hf => .of_drop hi (.other hf) hn
  have pushed : ∀ {v}, op.replaces → op.takes i.arg.toNat = 0 → op.gives = 1 →
      s.frame.ip + 1 ∈ op.next s.frame.ip i.arg.toNat → (s.Known p → p.Knows v) →
      Moves p cap s { s.advanced with stack := s.stack.push v } := by
    intro v hreplaces htakes hgives hip hv
    refine .operands [v] next hreplaces (by omega) hgives.symm ?_ hip rfl rfl prefix_rfl fun hs =>
      ⟨(hs.push (hv hs)).stack, hs.heap⟩
    rw [htakes, State.drop_zero, Array.toList_push]
  rw [execute, hop]
  cases op with
  | const =>
    refine .bind (.constant (fun _ h => .at_once hi (.constant hop rfl h)) fun v hv => ?_)
    exact pushed rfl rfl rfl (Opcode.mem_next rfl) fun _ _ => Array.mem_of_getElem? hv
  | load =>
    refine .bind (.load (fun _ h => .at_once hi (.slot hop h)) fun v hv => .of_ok rfl ?_)
    exact pushed rfl rfl rfl (Opcode.mem_next rfl) fun hs => hs.slot hv
  | store => exact .bind ((store_spec next).imp (fun _ _ h => .of_ok rfl h) fun _ _ h => h)
  | pop =>
    refine .popOne next (Nat.le_refl 1) fun hpos v _ => .of_ok rfl ?_
    exact Moves.of_take next rfl hpos rfl (Opcode.mem_next rfl) prefix_rfl fun hs => hs.heap
  | null =>
    exact pushed rfl rfl rfl (Opcode.mem_next rfl) fun _ => knows_null
  | binary op =>
    refine .popOne next (by simp [Opcode.takes]) fun hpos y _ => .bind (.pop ?_ ?_)
    · intro h
      rw [State.operands_drop (s := s.advanced) hpos, State.operands_goTo] at h
      refine .of_drop hi (.operands hop ?_) hpos
      show s.operands < (2 : Nat)
      omega
    · intro h
      rw [State.operands_drop (s := s.advanced) hpos, State.operands_goTo] at h
      rw [State.drop_drop]
      have htwo : ((2 : Nat) : Int) ≤ s.operands := by omega
      refine .bind (.of_ok rfl (.bind (.ofOperation (fun v hv => ?_) (innocent htwo))))
      exact Moves.of_replace next rfl htwo rfl (Opcode.mem_next rfl)
        (fun _ => knows_of_kind (Value.kind_binary hv)) fun hs => hs.heap
  | primitive op =>
    refine .popOne next (by simp [Opcode.takes]) fun hpos y _ => ?_
    refine .bind (.of_ok rfl (.bind (.ofOperation (fun v hv => ?_) (innocent hpos))))
    exact Moves.of_replace next rfl hpos rfl (Opcode.mem_next rfl)
      (fun _ => knows_of_kind (Value.kind_primitive hv)) fun hs => hs.heap
  | jump =>
    refine .bind ((jump_spec next rfl (by omega) (State.drop_zero _).symm).imp
      (fun _ s' hs' => .of_ok rfl ?_) fun _ _ h => h)
    subst hs'
    exact .operands [] next rfl (by simp only [Opcode.takes]; omega) rfl (append_nil _).symm
      (mem_singleton.mpr rfl) rfl rfl prefix_rfl fun hs => ⟨(hs.drop 0).stack, hs.heap⟩
  | jumpIfFalse =>
    refine .popOne next (Nat.le_refl 1) fun hpos v _ => ?_
    match v with
    | .bool true => exact .of_ok rfl (Moves.of_take next rfl hpos rfl (by simp [Opcode.next])
      prefix_rfl fun hs => hs.heap)
    | .bool false =>
      refine .bind ((jump_spec next rfl (by omega) rfl).imp
        (fun _ s' hs' => .of_ok rfl ?_) fun _ _ h => h)
      subst hs'
      exact .operands [] next rfl (by simp only [Opcode.takes]; omega) rfl
        (append_nil _).symm (by simp [Opcode.next]) rfl rfl prefix_rfl fun hs =>
          ⟨(hs.drop 1).stack, hs.heap⟩
    | .null | .int _ | .float _ | .string _ | .func _ _ | .array _ | .record _ =>
      exact .fail (innocent hpos _ (by simp))
  | call => exact .bind ((call_spec next).imp (fun _ _ h => .of_ok rfl h) fun _ _ h => h)
  | ret =>
    refine .popOne next (Nat.le_refl 1) fun hpos v hv => ?_
    have hresult : v = s.result := by rw [State.result, if_neg (by omega), hv]
    rw [hresult]
    refine leave_spec next.returns rfl rfl rfl rfl (State.take_drop ?_)
    simp only [State.operands] at hpos
    show s.frame.base ≤ s.stack.size - 1
    omega
  | print =>
    refine .popOne next (Nat.le_refl 1) fun hpos v _ => .bind (.of_ok rfl (.of_ok rfl ?_))
    refine Moves.of_take next rfl hpos rfl (Opcode.mem_next rfl) ?_ fun hs => hs.heap
    show s.output.toList <+: (s.output.push _).toList
    rw [Array.toList_push]
    exact prefix_append _ _
  | array =>
    refine .popAll next rfl fun hn xs _ hxs => .bind (.of_ok rfl (.bind (.push (.of_ok rfl ?_))))
    exact Moves.of_replace next rfl hn rfl (Opcode.mem_next rfl)
      (fun _ => knows_of_kind nofun) fun hs => hs.heap.newArray (by simpa using hxs hs)
  | indexGet =>
    refine .popAll next rfl fun hn xs hlen _ => ?_
    obtain ⟨array, index, rfl⟩ := length_eq_two.mp hlen
    refine .bind (.position (fun ref n _ _ => ?_) (innocent hn))
    exact Moves.of_replace next rfl hn rfl (Opcode.mem_next rfl)
      (fun hs => knows_getD fun v hv => hs.heap.elem (Array.mem_of_getElem? hv)) fun hs => hs.heap
  | indexSet =>
    refine .popAll next rfl fun hn xs hlen hxs => ?_
    obtain ⟨array, index, v, rfl⟩ := length_eq_three.mp hlen
    refine .bind (.position (fun ref n _ _ => .bind (.of_ok rfl (.of_ok rfl ?_))) (innocent hn))
    exact Moves.of_take next rfl hn rfl (Opcode.mem_next rfl) prefix_rfl fun hs =>
      hs.heap.setElem _ _ (hxs hs v (by simp))
  | record =>
    refine .popAll next rfl fun hn xs hlen hxs => ?_
    cases xs with
    | nil => exact absurd hlen (by rw [length_nil]; omega)
    | cons type fields =>
      refine .bind (.asName (fun type _ => ?_) (innocent hn))
      refine .bind (.withFields (p := p) _ fields (fun r hr => ?_) (innocent hn))
      exact Moves.of_replace next rfl hn rfl (Opcode.mem_next rfl)
        (fun _ => knows_of_kind nofun) fun hs => hs.heap.newRecord
        (hr nofun fun v hv => hxs hs v (by simp [hv]))
  | fieldGet =>
    refine .popOne next (Nat.le_refl 1) fun hpos record _ => ?_
    refine .bind (.fieldOf (fun ref name v _ hv => .bind (.push (.of_ok rfl ?_)))
      (fun _ h => .of_drop hi (.constant hop rfl h) hpos) (innocent hpos))
    exact Moves.of_replace next rfl hpos rfl (Opcode.mem_next rfl)
      (fun hs => hs.heap.field (Record.mem_of_get? hv)) fun hs => hs.heap
  | fieldSet =>
    refine .popAll next rfl fun hn xs hlen hxs => ?_
    obtain ⟨record, v, rfl⟩ := length_eq_two.mp hlen
    refine .bind (.fieldOf (fun ref name _ _ _ => .bind (.of_ok rfl (.of_ok rfl ?_)))
      (fun _ h => .of_drop hi (.constant hop rfl h) hn) (innocent hn))
    exact Moves.of_take next rfl hn rfl (Opcode.mem_next rfl) prefix_rfl fun hs =>
      hs.heap.setField _ _ (hxs hs v (by simp))

/-- **What one step does.** -/
theorem step_spec (p : Bytecode.Program) (cap : Int) (s : State) :
    Ends (step p cap) s (Succeeds p cap s) (Stops p s) := by
  refine .bind (.of_ok rfl (.bind (.of_ok rfl ?_)))
  cases hi : s.frame.func.code[s.frame.ip]? with
  | some i =>
    refine .bind (.of_ok rfl ?_)
    cases hop : i.opcode? with
    | some op => exact execute_spec ⟨hi, hop⟩
    | none =>
      rw [execute, hop]
      exact .fail (.at_once hi (.opcode hop))
  | none =>
    have hreturns : s.Returns := fun i op h => by rw [h.1] at hi; cases hi
    refine .bind (.of_ok rfl ?_)
    by_cases h : s.operands ≤ 0
    · have hresult : s.result = .null := if_pos h
      rw [if_pos h, ← hresult]
      exact leave_spec hreturns rfl rfl rfl rfl rfl
    · rw [if_neg h]
      refine .bind (.of_ok rfl ?_)
      have hresult : s.result = s.stack.back?.getD .null := if_neg h
      rw [← hresult]
      exact leave_spec hreturns rfl rfl rfl rfl rfl

end

end Machine

end Minilang
