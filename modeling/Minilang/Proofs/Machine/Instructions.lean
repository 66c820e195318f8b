import Minilang.Proofs.Tac.Semantics
import Mathlib.Data.List.Basic
import Mathlib.Data.UInt
import Mathlib.Tactic.Common

/-!
# The instructions on a view of the machine

A view of the machine shows the stack of the current call in its parts: the values of the calls
around it, its local variables, and its operands on top.  For every instruction there is one lemma
that says what a step does to a view that has the operands of the instruction on top.
-/

namespace Minilang

open EStateM List

lemma Opcode.ofByte?_toByte (op : Opcode) : ofByte? op.toByte = some op := by
  cases op with
  | binary op => cases op <;> decide
  | primitive op => cases op <;> decide
  | _ => decide

@[simp]
lemma Instruction.opcode?_of (op : Opcode) (arg : UInt16) : (of op arg).opcode? = some op :=
  op.ofByte?_toByte

@[simp]
lemma Instruction.arg_of (op : Opcode) (arg : UInt16) : (of op arg).arg = arg := rfl

namespace Machine

/-- A call with the values below its operands. -/
structure View where
  /-- The values of the calls around it. -/
  below : List Value
  locals : List Value
  func : Bytecode.Func
  callers : Array Frame

namespace View

variable (w : View) (ops : List Value) (ip : Nat) (h : Heap) (o : Array Bytes)

/-- The frame of the call, with its next instruction. -/
def frame : Frame :=
  ⟨w.func, ip, w.below.length, w.locals.length⟩

/-- The state of the machine with the given operands. -/
def state : State :=
  ⟨(w.below ++ w.locals ++ ops).toArray, w.frame ip, w.callers, h, o⟩

/-- The fault of the instruction at a place. -/
def fault (kind : FaultKind) (cause : Bytes) : Fault :=
  ⟨kind, w.func.name, ip, w.func.span ip, cause⟩

@[simp]
lemma operands_state : (w.state ops ip h o).operands = ops.length := by
  simp only [State.operands, state, frame, size_toArray, length_append]
  omega

@[simp]
lemma heap_state : (w.state ops ip h o).heap = h := rfl

@[simp]
lemma output_state : (w.state ops ip h o).output = o := rfl

@[simp]
lemma callers_state : (w.state ops ip h o).callers = w.callers := rfl

@[simp]
lemma frame_state : (w.state ops ip h o).frame = w.frame ip := rfl

/-! ### The parts of instructions -/

variable {xs : List Value} {v : Value} {n : Nat} (i : Instruction) {α : Type}

@[simp]
lemma run_fail (kind : FaultKind) (cause : Bytes) :
    (fail kind cause : Exec α).run (w.state ops (ip + 1) h o) =
      .error (w.fault ip kind cause) (w.state ops (ip + 1) h o) := rfl

@[simp]
lemma run_push (v : Value) :
    (push v).run (w.state ops ip h o) = .ok () (w.state (ops ++ [v]) ip h o) := by
  simp [push, state]

@[simp]
lemma run_pop (v : Value) :
    (pop i).run (w.state (ops ++ [v]) ip h o) = .ok v (w.state ops ip h o) := by
  have hpos : ¬(w.state (ops ++ [v]) ip h o).operands ≤ 0 := by
    rw [operands_state, length_append, length_singleton]
    omega
  simp only [pop, run_bind, run_get, if_neg hpos]
  simp [state]

lemma run_popMany (hn : xs.length = n) :
    (popMany i n).run (w.state (ops ++ xs) ip h o) = .ok xs (w.state ops ip h o) := by
  subst hn
  have hpos : ¬(w.state (ops ++ xs) ip h o).operands < xs.length := by
    rw [operands_state, length_append]
    omega
  simp only [popMany, run_bind, run_get, if_neg hpos]
  simp [state, ← append_assoc]

lemma run_jump {target : Nat} (ht : target ≤ w.func.code.size) :
    (jump target).run (w.state ops ip h o) = .ok () (w.state ops target h o) := by
  have hin : ¬(w.state ops ip h o).frame.func.code.size < target := Nat.not_lt.mpr ht
  simp only [jump, run_bind, run_get, if_neg hin]
  rfl

lemma run_load (hv : w.locals[n]? = some v) :
    (load n).run (w.state ops ip h o) = .ok () (w.state (ops ++ [v]) ip h o) := by
  have hn : n < w.locals.length := (List.getElem?_eq_some_iff.mp hv).1
  have hlocal : (w.state ops ip h o).local? n = some v := by
    simp only [State.local?, state, frame, if_pos hn, getElem?_toArray, append_assoc]
    rw [getElem?_append_right (by omega), Nat.add_sub_cancel_left, getElem?_append_left hn, hv]
  simp [load, hlocal]

/-- The view with another value of a local variable. -/
def setLocal (n : Nat) (v : Value) : View :=
  { w with locals := w.locals.set n v }

lemma run_store (hn : n < w.locals.length) (v : Value) :
    (store i n).run (w.state (ops ++ [v]) ip h o) =
      .ok () ((w.setLocal n v).state ops ip h o) := by
  have hsize : w.below.length + n + 1 - (w.below ++ w.locals ++ ops).length = 0 := by
    simp only [length_append]
    omega
  have hset : (w.below ++ w.locals ++ ops).set (w.below.length + n) v =
      w.below ++ w.locals.set n v ++ ops := by
    rw [append_assoc, set_append_right _ _ (by omega), Nat.add_sub_cancel_left,
      set_append_left _ _ hn, append_assoc]
  have hmax : max w.locals.length (n + 1) = w.locals.length := by omega
  simp only [store, run_bind, run_pop, run_modify]
  simp only [state, frame, padded, setLocal, size_toArray, hsize, hmax, Array.replicate_zero,
    Array.append_empty, setIfInBounds_toArray, hset, length_set]

/-! ### Calls -/

variable {f : Bytecode.Func} {args : List Value} {cap : Int}

/-- The view of a function that the call is waiting for. -/
def callee (f : Bytecode.Func) (locals : List Value) : View :=
  ⟨w.below ++ w.locals, locals, f, w.callers.push (w.frame ip)⟩

/-- The local variables of a function at its start. -/
def localsOf (f : Bytecode.Func) (args : List Value) : List Value :=
  args ++ List.replicate (f.numLocals.toNat - args.length) .null

lemma run_enter (hdepth : ¬cap ≤ w.callers.size + 1) (hargs : (args.length : Int) ≤ f.numLocals)
    (hroom : f.numLocals < 2 ^ 62) : (enter cap f args.length).run (w.state args ip h o) =
      .ok () ((w.callee ip f (localsOf f args)).state [] 0 h o) := by
  have hmax : (max f.numLocals args.length).toNat = f.numLocals.toNat := by omega
  have hlen : (localsOf f args).length = f.numLocals.toNat := by
    simp only [localsOf, length_append, length_replicate]
    omega
  have hbase : (w.below ++ w.locals ++ args).length - args.length =
      (w.below ++ w.locals).length := by
    rw [length_append, Nat.add_sub_cancel]
  have hpad : (w.below ++ w.locals).length + f.numLocals.toNat -
      (w.below ++ w.locals ++ args).length = f.numLocals.toNat - args.length := by
    have hsum : (w.below ++ w.locals ++ args).length = (w.below ++ w.locals).length + args.length :=
      length_append
    omega
  have hdepth' : ¬cap ≤ (w.state args ip h o).callers.size + 1 := hdepth
  simp only [enter, run_bind, run_get, if_neg hdepth', run_modify]
  simp only [state, frame, callee, newFrame, Frame.makeRoom, Frame.room, padded, size_toArray,
    hmax, hlen, hbase]
  rw [if_pos (.inr (.inl (by omega))), hpad]
  simp [localsOf]

lemma run_leave_callee (ip' : Nat) (f : Bytecode.Func) (locals : List Value) (v : Value) :
    (leave v).run ((w.callee ip' f locals).state ops ip h o) = .ok none (w.state [v] ip' h o) := by
  have htake : (w.below ++ w.locals ++ locals ++ ops).take (w.below ++ w.locals).length =
      w.below ++ w.locals := by
    rw [append_assoc (w.below ++ w.locals), take_left]
  simp only [leave, run_modifyGet, callee, state, frame, Array.back?_push, Array.pop_push,
    Array.shrink_eq_take, take_toArray, htake, push_toArray]

lemma run_leave_outermost (hc : w.callers = #[]) (v : Value) :
    ∃ s, (leave v).run (w.state ops ip h o) = .ok (some v) s ∧ s.heap = h ∧ s.output = o := by
  simp [leave, hc]

/-! ### Reasons

A part of an instruction that may fail is given by its result or the reason why it has none. -/

variable {name : Bytes} {p : Bytecode.Program}

/-- A result, or the fault of an instruction that has none. -/
def result {α : Type} (s : State) : Except Tac.Reason α → EStateM.Result Fault State α
  | .ok a => .ok a s
  | .error e => .error (w.fault ip e.1 e.2) s

/-- A step that goes on with a result, or the fault of an instruction that has none. -/
def outcome {α : Type} (s : State) (next : α → State) :
    Except Tac.Reason α → EStateM.Result Fault State (Option Value)
  | .ok a => .ok none (next a)
  | .error e => .error (w.fault ip e.1 e.2) s

lemma run_ofOperation (r : Except OperationError Value) :
    (ofOperation r).run (w.state ops (ip + 1) h o) =
      w.result ip (w.state ops (ip + 1) h o) (Tac.ofOperation r) := by
  cases r <;> rfl

lemma run_position (array index : Value) : (position array index).run (w.state ops (ip + 1) h o) =
      w.result ip (w.state ops (ip + 1) h o) (Tac.position h array index) := by
  cases array with
  | array ref =>
    cases index with
    | int n =>
      by_cases hout : n.toInt < 0 ∨ ((h.elems ref).size : Int) ≤ n.toInt <;>
      · simp only [position, Tac.position, run_bind, run_get, heap_state, hout]
        rfl
    | _ => rfl
  | _ => rfl

lemma run_fieldOf (hn : p.consts[n]? = some (.string name))
    (record : Value) : (fieldOf p record n).run (w.state ops (ip + 1) h o) =
      w.result ip (w.state ops (ip + 1) h o)
        ((Tac.fieldOf h record name).map fun r => (r.1, name, r.2)) := by
  cases record with
  | record ref =>
    have hconst : (constant p n).run (w.state ops (ip + 1) h o) =
        .ok (.string name) (w.state ops (ip + 1) h o) := by
      simp only [constant, hn]
      rfl
    simp only [fieldOf, Tac.fieldOf, run_bind, hconst, asName, run_pure, run_get, heap_state]
    cases (h.record ref).get? name <;> rfl
  | _ => rfl

/-- The names and the values of fields in turn. -/
def alternate (fields : List (Bytes × Value)) : List Value :=
  fields.flatMap fun f => [.string f.1, f.2]

lemma run_withFields (r : Record) (fields : List (Bytes × Value)) :
    (withFields r (alternate fields)).run (w.state ops ip h o) =
      .ok (Tac.withFields r fields) (w.state ops ip h o) := by
  induction fields generalizing r with
  | nil => rfl
  | cons f fields ih =>
    have hcons : alternate (f :: fields) = .string f.1 :: f.2 :: alternate fields := rfl
    simp only [hcons, withFields, run_bind, asName, run_pure, ih]
    rfl

/-! ### Steps -/

section Steps

/-- The instruction at a place of the function. -/
abbrev At (w : View) (ip : Nat) (op : Opcode) (n : UInt16) : Prop :=
  w.func.code[ip]? = some (.of op n)

lemma run_map {β : Type} (f : α → β) (m : Exec α) (s : State) : (f <$> m).run s = match m.run s with
    | .ok a s => .ok (f a) s
    | .error e s => .error e s := by
  simp only [EStateM.run, Functor.map, EStateM.map]
  cases m s <;> rfl

attribute [local simp] run_map execute result outcome

variable {w ip h o} {n : UInt16}

variable {ops} in
lemma step_eq {i : Instruction} (hi : w.func.code[ip]? = some i) :
    (step p cap).run (w.state ops ip h o) =
      (execute p cap i).run (w.state ops (ip + 1) h o) := by
  have hcode : (w.state ops ip h o).frame.func.code[(w.state ops ip h o).frame.ip]? = some i := hi
  simp only [step, run_bind, run_get, hcode]
  rfl

lemma step_const (hi : w.At ip .const n) (hv : p.consts[n.toNat]? = some v) :
    (step p cap).run (w.state ops ip h o) = .ok none (w.state (ops ++ [v]) (ip + 1) h o) := by
  simp [step_eq hi, constant, hv]

lemma step_load (hi : w.At ip .load n) (hv : w.locals[n.toNat]? = some v) :
    (step p cap).run (w.state ops ip h o) = .ok none (w.state (ops ++ [v]) (ip + 1) h o) := by
  simp [step_eq hi, run_load _ _ _ _ _ hv]

lemma step_store (hi : w.At ip .store n) (hn : n.toNat < w.locals.length) (v : Value) :
    (step p cap).run (w.state (ops ++ [v]) ip h o) =
      .ok none ((w.setLocal n.toNat v).state ops (ip + 1) h o) := by
  simp [step_eq hi, run_store _ _ _ _ _ _ hn]

lemma step_null (hi : w.At ip .null n) : (step p cap).run (w.state ops ip h o) =
      .ok none (w.state (ops ++ [.null]) (ip + 1) h o) := by
  simp [step_eq hi]

lemma step_binary {op : BinaryOp} (hi : w.At ip (.binary op) n) (x y : Value) :
    (step p cap).run (w.state (ops ++ [x, y]) ip h o) =
      w.outcome ip (w.state ops (ip + 1) h o) (fun v => w.state (ops ++ [v]) (ip + 1) h o)
        (Tac.ofOperation (Value.binary h op x y)) := by
  have hpop := fun i => run_pop w (ops ++ [x]) (ip + 1) h o i y
  simp only [append_assoc, singleton_append] at hpop
  cases hr : Tac.ofOperation (Value.binary h op x y) <;>
    simp [step_eq hi, hpop, run_ofOperation, hr]

lemma step_primitive {op : Primitive} (hi : w.At ip (.primitive op) n) (x : Value) :
    (step p cap).run (w.state (ops ++ [x]) ip h o) =
      w.outcome ip (w.state ops (ip + 1) h o) (fun v => w.state (ops ++ [v]) (ip + 1) h o)
        (Tac.ofOperation (Value.primitive h op x)) := by
  cases hr : Tac.ofOperation (Value.primitive h op x) <;> simp [step_eq hi, run_ofOperation, hr]

lemma step_jump (hi : w.At ip .jump n) (hn : n.toNat ≤ w.func.code.size) :
    (step p cap).run (w.state ops ip h o) = .ok none (w.state ops n.toNat h o) := by
  simp [step_eq hi, run_jump _ _ _ _ _ hn]

lemma step_jumpIfFalse (hi : w.At ip .jumpIfFalse n) (hn : n.toNat ≤ w.func.code.size)
    (v : Value) : (step p cap).run (w.state (ops ++ [v]) ip h o) =
      w.outcome ip (w.state ops (ip + 1) h o)
        (fun c => w.state ops (if c then ip + 1 else n.toNat) h o) (Tac.condition v) := by
  cases v with
  | bool c => cases c <;> simp [step_eq hi, run_jump _ _ _ _ _ hn, Tac.condition]
  | _ => simp [step_eq hi, Tac.condition]

lemma step_print (hi : w.At ip .print n) (v : Value) :
    (step p cap).run (w.state (ops ++ [v]) ip h o) =
      .ok none (w.state ops (ip + 1) h (o.push (Bytes.concat [h.text v, "\n"]))) := by
  simp only [step_eq hi, execute, Instruction.opcode?_of, run_bind, run_pop]
  rfl

lemma step_array (hi : w.At ip .array n) (hn : xs.length = n.toNat) :
    (step p cap).run (w.state (ops ++ xs) ip h o) =
      .ok none (w.state (ops ++ [(h.newArray xs.toArray).1]) (ip + 1)
        (h.newArray xs.toArray).2 o) := by
  have hnew : (newArray xs).run (w.state ops (ip + 1) h o) =
      .ok (h.newArray xs.toArray).1 (w.state ops (ip + 1) (h.newArray xs.toArray).2 o) := rfl
  simp [step_eq hi, run_popMany _ _ _ _ _ _ hn, hnew]

lemma step_indexGet (hi : w.At ip .indexGet n) (array index : Value) :
    (step p cap).run (w.state (ops ++ [array, index]) ip h o) =
      w.outcome ip (w.state ops (ip + 1) h o)
        (fun r => w.state (ops ++ [(h.elems r.1)[r.2]?.getD .null]) (ip + 1) h o)
        (Tac.position h array index) := by
  have hlen : [array, index].length = 2 := rfl
  cases hr : Tac.position h array index <;>
    simp [step_eq hi, run_popMany _ _ _ _ _ _ hlen, run_position, hr]

lemma step_indexSet (hi : w.At ip .indexSet n) (array index v : Value) :
    (step p cap).run (w.state (ops ++ [array, index, v]) ip h o) =
      w.outcome ip (w.state ops (ip + 1) h o)
        (fun r => w.state ops (ip + 1) (h.setElem r.1 r.2 v) o) (Tac.position h array index) := by
  have hlen : [array, index, v].length = 3 := rfl
  simp only [step_eq hi, execute, Instruction.opcode?_of, run_bind,
    run_popMany _ _ _ _ _ _ hlen, run_position]
  cases Tac.position h array index <;> rfl

lemma step_record (hi : w.At ip .record n) (type : Bytes) {fields : List (Bytes × Value)}
    (hn : fields.length = n.toNat) :
    (step p cap).run (w.state (ops ++ .string type :: alternate fields) ip h o) =
      .ok none (w.state (ops ++ [(h.newRecord (Tac.withFields (.empty type) fields)).1]) (ip + 1)
        (h.newRecord (Tac.withFields (.empty type) fields)).2 o) := by
  have hlen : (Value.string type :: alternate fields).length = 1 + 2 * n.toNat := by
    rw [alternate]
    simp
    omega
  have hnew : ∀ r, (newRecord r).run (w.state ops (ip + 1) h o) =
      .ok (h.newRecord r).1 (w.state ops (ip + 1) (h.newRecord r).2 o) := fun _ => rfl
  simp [step_eq hi, run_popMany _ _ _ _ _ _ hlen, asName, run_withFields, hnew]

lemma step_fieldGet (hi : w.At ip .fieldGet n) (hn : p.consts[n.toNat]? = some (.string name))
    (record : Value) : (step p cap).run (w.state (ops ++ [record]) ip h o) =
      w.outcome ip (w.state ops (ip + 1) h o) (fun r => w.state (ops ++ [r.2]) (ip + 1) h o)
        (Tac.fieldOf h record name) := by
  cases hr : Tac.fieldOf h record name <;>
    simp [step_eq hi, run_fieldOf _ _ _ _ _ hn, hr, Except.map]

lemma step_fieldSet (hi : w.At ip .fieldSet n) (hn : p.consts[n.toNat]? = some (.string name))
    (record v : Value) : (step p cap).run (w.state (ops ++ [record, v]) ip h o) =
      w.outcome ip (w.state ops (ip + 1) h o)
        (fun r => w.state ops (ip + 1) (h.setField r.1 name v) o) (Tac.fieldOf h record name) := by
  have hlen : [record, v].length = 2 := rfl
  simp only [step_eq hi, execute, Instruction.opcode?_of, Instruction.arg_of, run_bind,
    run_popMany _ _ _ _ _ _ hlen, run_fieldOf _ _ _ _ _ hn]
  cases Tac.fieldOf h record name <;> rfl

/-! ### Calls and returns -/

/-- The compiled function that a value stands for. -/
def target (p : Bytecode.Program) (v : Value) : Except Tac.Reason Bytecode.Func :=
  match v with
  | .func name index =>
    match (if index < 0 then none else p.funcs[index.toNat]?) with
    | some f => .ok f
    | none => .error (.invalidOpcode,
        Bytes.concat ["function ", name, " (", Decimal.ofInt index, ") out of range"])
  | v => .error (.typeMismatch, Bytes.concat ["cannot call a ", v.kind.text])

/-- Why a call of a function is refused, if it is. -/
def refusal? (cap : Int) (w : View) (f : Bytecode.Func) (args : Nat) : Option Tac.Reason :=
  if (args : Int) ≠ f.numParams then
    some (.typeMismatch, Bytes.concat [f.name, " called with ", Decimal.ofNat args,
      " arguments, want ", Decimal.ofInt f.numParams])
  else if cap ≤ w.callers.size + 1 then some (.stackOverflow, tooDeep cap f.name)
  else none

lemma step_call_of_error (hi : w.At ip .call n) {e : Tac.Reason}
    (hv : target p v = .error e) : (step p cap).run (w.state (ops ++ [v]) ip h o) =
      .error (w.fault ip e.1 e.2) (w.state ops (ip + 1) h o) := by
  simp only [step_eq hi, execute, Instruction.opcode?_of, run_bind, call]
  cases v with
  | func name index =>
    cases hf : (if index < 0 then none else p.funcs[index.toNat]?) with
    | some f => simp [target, hf] at hv
    | none =>
      simp only [target, hf, Except.error.injEq] at hv
      subst hv
      simp [hf]
  | _ =>
    simp only [target, Except.error.injEq] at hv
    subst hv
    simp

lemma step_call_of_ok (hi : w.At ip .call n) (hn : args.length = n.toNat)
    (hv : target p v = .ok f) (hroom : (args.length : Int) = f.numParams → f.numLocals < 2 ^ 62)
    (hparams : f.numParams ≤ f.numLocals) : (step p cap).run (w.state (args ++ [v]) ip h o) =
      match refusal? cap w f args.length with
      | none => .ok none ((w.callee (ip + 1) f (localsOf f args)).state [] 0 h o)
      | some e => .error (w.fault ip e.1 e.2) (w.state args (ip + 1) h o) := by
  cases v with
  | func name index =>
    cases hf : (if index < 0 then none else p.funcs[index.toNat]?) with
    | none => simp [target, hf] at hv
    | some g =>
      simp only [target, hf, Except.ok.injEq] at hv
      subst hv
      simp only [step_eq hi, execute, Instruction.opcode?_of, Instruction.arg_of, run_bind, call,
        run_pop, hf, ← hn, refusal?]
      by_cases hcount : (args.length : Int) = g.numParams
      · have henough : ¬(w.state args (ip + 1) h o).operands < args.length := by
          rw [operands_state]
          omega
        simp only [ne_eq, hcount, not_true, if_false, run_bind, run_get]
        rw [← hcount, if_neg henough]
        by_cases hdepth : cap ≤ w.callers.size + 1
        · simp [enter, hdepth]
        · rw [if_neg hdepth, run_enter _ _ _ _ hdepth (by omega) (hroom hcount)]
          rfl
      · simp [hcount]
  | _ => simp [target] at hv

lemma step_ret (hi : w.At ip .ret n) (v : Value) : (step p cap).run (w.state (ops ++ [v]) ip h o) =
      (leave v).run (w.state ops (ip + 1) h o) := by
  simp [step_eq hi]

lemma step_end (hi : w.func.code[ip]? = none) :
    (step p cap).run (w.state [] ip h o) = (leave .null).run (w.state [] ip h o) := by
  have hcode : (w.state [] ip h o).frame.func.code[(w.state [] ip h o).frame.ip]? = none := hi
  have hempty : (w.state [] ip h o).operands ≤ 0 := by
    rw [operands_state]
    exact Int.le_refl 0
  simp only [step, run_bind, run_get, hcode, if_pos hempty]

end Steps

end View

end Machine

end Minilang
