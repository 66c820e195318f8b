import Minilang.Proofs.Machine.Layout

/-!
# Every place that the machine uses exists

The guarded machine is the machine with one more way to stop: it stops if it is about to use a place
that does not exist, of the stack, of the code, of the constants, of the functions, of the operands
that an instruction has popped or of an array.  The guarded machine and the machine do the same in
every state that a program comes to, so the machine never uses such a place.
-/

namespace Minilang.Machine

open EStateM List

/-- Why the guarded machine stops without a result. -/
inductive Stop where
  | fault (f : Fault)
  | outOfRange

/-- A part of an instruction of the guarded machine. -/
abbrev GuardedExec := EStateM Stop State

namespace Guarded

variable {α β : Type} (p : Bytecode.Program) (cap : Int) (i : Instruction)

/-- How a part of an instruction ends that uses no place by its number. -/
def ofResult : EStateM.Result Fault State α → EStateM.Result Stop State α
  | .ok a s => .ok a s
  | .error f s => .error (.fault f) s

/-- A part of an instruction that uses no place by its number. -/
def lift (x : Exec α) : GuardedExec α :=
  fun s => ofResult (x.run s)

/-! ### Parts of instructions -/

/-- The element at an index that must be in range. -/
def read (xs : Array α) (n : Int) : GuardedExec α :=
  if n < 0 then throw .outOfRange
  else
    match xs[n.toNat]? with
    | some a => return a
    | none => throw .outOfRange

/-- Keep the lowest values of the stack. -/
def cut (n : Int) : GuardedExec Unit := do
  if n < 0 ∨ ((← get).stack.size : Int) < n then throw .outOfRange
  else modify fun s => { s with stack := s.stack.shrink n.toNat }

/-- The topmost operand, taken away. -/
def pop : GuardedExec Value := do
  if (← get).operands ≤ 0 then lift (fail .stackUnderflow i.text)
  else
    let top : Int := (← get).stack.size - 1
    let v ← read (← get).stack top
    cut top
    return v

/-- The topmost operands, taken away. -/
def popMany (n : Nat) : GuardedExec (List Value) := do
  if (← get).operands < n then
    lift (fail .stackUnderflow (Bytes.concat [i.text, " needs ", Decimal.ofNat n, " values"]))
  else
    let rest : Int := (← get).stack.size - n
    let stack := (← get).stack
    cut rest
    return (stack.extract rest.toNat stack.size).toList

/-- Push a local variable. -/
def load (n : Nat) : GuardedExec Unit := do
  let s ← get
  if s.frame.locals ≤ n ∨ s.stack.size ≤ s.frame.base + n then
    lift (fail .stackUnderflow (Bytes.concat ["local slot ", Decimal.ofNat n, " not initialized"]))
  else lift (push (← read s.stack (s.frame.base + n : Nat)))

/-- Pop a value into a local variable. -/
def store (n : Nat) : GuardedExec Unit := do
  let v ← pop i
  let slot := (← get).frame.base + n
  modify fun s => { s with
    stack := padded s.stack (slot + 1),
    frame := { s.frame with locals := max s.frame.locals (n + 1) } }
  let _ ← read (← get).stack slot
  modify fun s => { s with stack := s.stack.setIfInBounds slot v }

/-- Begin a call. -/
def enter (f : Bytecode.Func) (args : Nat) : GuardedExec Unit := do
  if (← get).callers.size + 1 < cap ∧ (← get).stack.size < args then throw .outOfRange
  else lift (Machine.enter cap f args)

/-- End a call. -/
def leave (v : Value) : GuardedExec (Option Value) := do
  cut (← get).frame.base
  lift (Machine.leave v)

/-- The constant with a number. -/
def constant (p : Bytecode.Program) (n : Nat) : GuardedExec Value :=
  if p.consts.size ≤ n then
    lift (fail .invalidOpcode (Bytes.concat ["constant ", Decimal.ofNat n, " out of range"]))
  else read p.consts n

/-- The instruction `call`. -/
def call (p : Bytecode.Program) (cap : Int) (i : Instruction) : GuardedExec Unit := do
  let args := i.arg.toNat
  match ← pop i with
  | .func name index =>
    if index < 0 ∨ (p.funcs.size : Int) ≤ index then
      lift (fail .invalidOpcode
        (Bytes.concat ["function ", name, " (", Decimal.ofInt index, ") out of range"]))
    else
      let f ← read p.funcs index
      if (args : Int) ≠ f.numParams then
        lift (fail .typeMismatch (Bytes.concat [f.name, " called with ", Decimal.ofNat args,
          " arguments, want ", Decimal.ofInt f.numParams]))
      else if (← get).operands < args then
        lift (fail .stackUnderflow
          (Bytes.concat [f.name, " needs ", Decimal.ofNat args, " arguments"]))
      else enter cap f args
  | v => lift (fail .typeMismatch (Bytes.concat ["cannot call a ", v.kind.text]))

/-- The field that a constant names, with its place. -/
def fieldOf (record : Value) (n : Nat) : GuardedExec (Nat × Bytes × Value) := do
  match record with
  | .record ref =>
    let name ← lift (asName (← constant p n))
    let r := (← get).heap.record ref
    match r.get? name with
    | some v => return (ref, name, v)
    | none => lift (fail .unknownField (Bytes.concat [r.type, " has no field ", name]))
  | v => lift (fail .typeMismatch (Bytes.concat ["cannot access a field of a ", v.kind.text]))

/-- The record with fields from the stack. -/
def withFields (r : Record) : List Value → GuardedExec Record
  | name :: v :: rest => do
    let name ← lift (asName name)
    withFields (r.set name v) rest
  | [_] => throw .outOfRange
  | [] => return r

/-! ### Instructions -/

/-- The effect of an instruction. -/
def execute : GuardedExec (Option Value) := do
  let arg := i.arg.toNat
  match i.opcode? with
  | none => lift (fail .invalidOpcode (Opcode.nameOf i.op))
  | some .const =>
    lift (push (← constant p arg))
    return none
  | some .load =>
    load arg
    return none
  | some .store =>
    store i arg
    return none
  | some .pop =>
    let _ ← pop i
    return none
  | some .null =>
    lift (push .null)
    return none
  | some (.binary op) =>
    let y ← pop i
    let x ← pop i
    lift (push (← lift (ofOperation (Value.binary (← get).heap op x y))))
    return none
  | some (.primitive op) =>
    let x ← pop i
    lift (push (← lift (ofOperation (Value.primitive (← get).heap op x))))
    return none
  | some .jump =>
    lift (jump arg)
    return none
  | some .jumpIfFalse =>
    match ← pop i with
    | .bool true => return none
    | .bool false =>
      lift (jump arg)
      return none
    | v => lift (fail .typeMismatch (Bytes.concat ["condition is a ", v.kind.text, ", not a bool"]))
  | some .call =>
    call p cap i
    return none
  | some .ret => leave (← pop i)
  | some .print =>
    lift (print (← pop i))
    return none
  | some .array =>
    lift (push (← lift (newArray (← popMany i arg))))
    return none
  | some .indexGet =>
    match ← popMany i 2 with
    | [array, index] =>
      let (ref, n) ← lift (position array index)
      lift (push (← read ((← get).heap.elems ref) n))
      return none
    | _ => throw .outOfRange
  | some .indexSet =>
    match ← popMany i 3 with
    | [array, index, v] =>
      let (ref, n) ← lift (position array index)
      let _ ← read ((← get).heap.elems ref) n
      lift (modifyHeap fun h => h.setElem ref n v)
      return none
    | _ => throw .outOfRange
  | some .record =>
    match ← popMany i (1 + 2 * arg) with
    | type :: fields =>
      let type ← lift (asName type)
      lift (push (← lift (newRecord (← withFields (.empty type) fields))))
      return none
    | [] => throw .outOfRange
  | some .fieldGet =>
    let (_, _, v) ← fieldOf p (← pop i) arg
    lift (push v)
    return none
  | some .fieldSet =>
    match ← popMany i 2 with
    | [record, v] =>
      let (ref, name, _) ← fieldOf p record arg
      lift (modifyHeap fun h => h.setField ref name v)
      return none
    | _ => throw .outOfRange

/-- One step of the guarded machine. -/
def step : GuardedExec (Option Value) := do
  let fr := (← get).frame
  if fr.func.code.size ≤ fr.ip then
    if (← get).operands ≤ 0 then leave .null
    else leave (← read (← get).stack ((← get).stack.size - 1))
  else
    let i ← read fr.func.code fr.ip
    lift (advance fr.ip)
    execute p cap i

/-- Runs a program on from a state.  There is no outcome if a place is used that does not exist. -/
def runFrom (p : Bytecode.Program) (cap : Int) : (steps : Nat) → State → Option Outcome
  | 0, _ => some .unfinished
  | steps + 1, s =>
    match (step p cap).run s with
    | .ok none s => runFrom p cap steps s
    | .ok (some v) _ => some (.halted v)
    | .error (.fault f) _ => some (.failed f)
    | .error .outOfRange _ => none

/-- A run of the guarded machine. -/
def run (steps : Nat) : Option Outcome :=
  match start p cap with
  | .error f => some (.failed f)
  | .ok s => runFrom p cap steps s

/-! ### The guarded machine does what the machine does -/

variable {n : Nat} {s : State} {xs : Array α} {a : α}

/-- A part of the guarded machine does in a state what a part of the machine does. -/
def Agrees (y : GuardedExec α) (x : Exec α) (s : State) : Prop :=
  y.run s = ofResult (x.run s)

lemma run_lift (x : Exec α) (s : State) : (lift x).run s = ofResult (x.run s) := rfl

lemma run_read (h : xs[n]? = some a) (s : State) : (read xs n).run s = .ok a s := by
  rw [read, Int.toNat_natCast, h]
  rfl

lemma run_cut (h : n ≤ s.stack.size) :
    (cut n).run s = .ok () { s with stack := s.stack.shrink n } := by
  rw [cut, run_bind, run_get]
  simp only []
  rw [if_neg (by omega)]
  rfl

namespace Agrees

variable {s : State} {k : Int} {y : GuardedExec α} {x : Exec β} {g : State → GuardedExec β}
  {f : State → Exec β}

lemma lift (x : Exec α) : Agrees (lift x) x s := rfl

lemma pure (a : α) : Agrees (pure a) (pure a) s := rfl

lemma bind {x : Exec α} {g : α → GuardedExec β} {f : α → Exec β} (h : Agrees y x s)
    (h' : ∀ a s', x.run s = .ok a s' → Agrees (g a) (f a) s') : Agrees (y >>= g) (x >>= f) s := by
  rw [Agrees, run_bind, run_bind, h]
  cases hx : x.run s with
  | ok a s' => exact h' a s' hx
  | error f s' => rfl

lemma andThen {x : Exec α} (h : Agrees y x s) (b : β) :
    Agrees (do let _ ← y; Pure.pure b) (do let _ ← x; Pure.pure b) s :=
  bind h fun _ _ _ => pure b

lemma get (h : Agrees (g s) (f s) s) : Agrees (get >>= g) (get >>= f) s :=
  h

lemma look (h : Agrees (g s) x s) : Agrees (MonadState.get >>= g) x s :=
  h

lemma looked {y : GuardedExec β} (h : Agrees y (f s) s) : Agrees y (MonadState.get >>= f) s :=
  h

/-- The guarded machine reads a place that exists, where the machine just knows the value. -/
theorem read {g : α → GuardedExec β} (hk : k = n) (hn : xs[n]? = some a)
    (h : Agrees (g a) x s) : Agrees (read xs k >>= g) x s := by
  subst hk
  rw [Agrees, run_bind, run_read hn]
  exact h

lemma cut {g : Unit → GuardedExec β} (hk : k = n) (hn : n ≤ s.stack.size)
    (h : (g ()).run { s with stack := s.stack.shrink n } = ofResult (x.run s)) :
    Agrees (cut k >>= g) x s := by
  subst hk
  rw [Agrees, run_bind, run_cut hn]
  exact h

lemma pop (i : Instruction) : Agrees (pop i) (Machine.pop i) s := by
  refine get ?_
  by_cases h : s.operands ≤ 0
  · rw [if_pos h, if_pos h]
    exact lift _
  · rw [if_neg h, if_neg h]
    have hsize : s.stack.size - 1 < s.stack.size := by
      simp only [State.operands] at h
      omega
    have htop : s.stack[s.stack.size - 1]? = some s.stack[s.stack.size - 1] :=
      Array.getElem?_eq_getElem hsize
    refine look (look (read (by omega) htop (cut (by omega) (le_of_lt hsize) ?_)))
    simp [ofResult, Array.back?, htop]

lemma popMany (i : Instruction) (n : Nat) : Agrees (popMany i n) (Machine.popMany i n) s := by
  refine get ?_
  by_cases h : s.operands < n
  · rw [if_pos h, if_pos h]
    exact lift _
  · rw [if_neg h, if_neg h]
    have hsize : n ≤ s.stack.size := by
      simp only [State.operands] at h
      omega
    have hrest : (s.stack.size : Int) - n = (s.stack.size - n : Nat) := by omega
    refine look (look (cut hrest (Nat.sub_le _ _) ?_))
    simp [ofResult]

lemma load (n : Nat) : Agrees (load n) (Machine.load n) s := by
  refine get ?_
  by_cases h : s.frame.locals ≤ n ∨ s.stack.size ≤ s.frame.base + n
  · have hnone : s.local? n = none := by
      rw [State.local?, ite_eq_right_iff]
      intro hlt
      exact Array.getElem?_eq_none (by omega)
    rw [if_pos h]
    simp only [hnone]
    exact lift _
  · have hlt : s.frame.base + n < s.stack.size := by omega
    have hsome : s.local? n = some s.stack[s.frame.base + n] := by
      rw [State.local?, if_pos (by omega), Array.getElem?_eq_getElem hlt]
    rw [if_neg h]
    simp only [hsome]
    exact read rfl (Array.getElem?_eq_getElem hlt) (lift _)

lemma store (i : Instruction) (n : Nat) : Agrees (store i n) (Machine.store i n) s := by
  refine bind (pop i) fun v s' _ => look ?_
  have hsize : s'.frame.base + n < (padded s'.stack (s'.frame.base + n + 1)).size := by
    rw [size_padded]
    omega
  simp only [Agrees, run_bind, run_modify, run_get, run_read (Array.getElem?_eq_getElem hsize)]
  rfl

lemma enter (cap : Int) (f : Bytecode.Func) {args : Nat} (h : args ≤ s.stack.size) :
    Agrees (enter cap f args) (Machine.enter cap f args) s := by
  refine look (look ?_)
  rw [if_neg (by omega)]
  exact lift _

lemma leave (v : Value) (h : s.frame.base ≤ s.stack.size) :
    Agrees (leave v) (Machine.leave v) s := by
  have htwice : (s.stack.shrink s.frame.base).shrink s.frame.base =
      s.stack.shrink s.frame.base := by
    simp
  refine look (cut rfl h ?_)
  rw [run_lift]
  simp only [Machine.leave, run_modifyGet, htwice]

lemma constant (p : Bytecode.Program) (n : Nat) :
    Agrees (constant p n) (Machine.constant p n) s := by
  rw [Guarded.constant, Machine.constant]
  by_cases h : p.consts.size ≤ n
  · rw [if_pos h, Array.getElem?_eq_none h]
    exact lift _
  · rw [if_neg h, Array.getElem?_eq_getElem (by omega)]
    exact run_read (Array.getElem?_eq_getElem (by omega)) s

lemma call (p : Bytecode.Program) (cap : Int) (i : Instruction) :
    Agrees (call p cap i) (Machine.call p cap i) s := by
  refine bind (pop i) fun v s' _ => ?_
  cases v with
  | func name index =>
    simp only []
    by_cases h : index < 0 ∨ (p.funcs.size : Int) ≤ index
    · have hnone : (if index < 0 then none else p.funcs[index.toNat]?) = none := by
        rw [ite_eq_left_iff]
        intro hpos
        exact Array.getElem?_eq_none (by omega)
      rw [if_pos h]
      simp only [hnone]
      exact lift _
    · have hlt : index.toNat < p.funcs.size := by omega
      have hsome : (if index < 0 then none else p.funcs[index.toNat]?) =
          some p.funcs[index.toNat] := by
        rw [if_neg (by omega), Array.getElem?_eq_getElem hlt]
      rw [if_neg h]
      simp only [hsome]
      refine read (by omega) (Array.getElem?_eq_getElem hlt) ?_
      split
      · exact lift _
      · refine get ?_
        split
        · exact lift _
        · rename_i hmany
          simp only [State.operands] at hmany
          exact enter cap _ (by omega)
  | _ => exact lift _

lemma fieldOf (p : Bytecode.Program) (record : Value) (n : Nat) :
    Agrees (fieldOf p record n) (Machine.fieldOf p record n) s := by
  cases record with
  | record ref =>
    refine bind (constant p n) fun v s' _ => bind (lift _) fun name s'' _ => get ?_
    cases h : (s''.heap.record ref).get? name with
    | none =>
      simp only [h]
      exact lift _
    | some v =>
      simp only [h]
      exact pure _
  | _ => exact lift _

lemma withFields (r : Record) (fields : List Value) (h : fields.length % 2 = 0) :
    Agrees (withFields r fields) (Machine.withFields r fields) s := by
  fun_induction Guarded.withFields r fields generalizing s with
  | case1 r name v rest ih =>
    rw [length_cons, length_cons] at h
    exact bind (lift _) fun name s' _ => ih name (by omega)
  | case2 => simp at h
  | case3 r => exact pure r

end Agrees

lemma position_ok {array index : Value} {s' : State} {r : Nat × Nat}
    (h : (position array index).run s = .ok r s') : ∃ v, (s'.heap.elems r.1)[r.2]? = some v :=
  (Ends.position (Q := fun r s' => ∃ v, (s'.heap.elems r.1)[r.2]? = some v) (E := fun _ _ => True)
    (fun _ _ _ hlt => ⟨_, Array.getElem?_eq_getElem hlt⟩) fun _ _ => trivial).ok h

lemma execute_agrees (s : State) : Agrees (execute p cap i) (Machine.execute p cap i) s := by
  rw [execute, Machine.execute]
  cases i.opcode? with
  | none => exact .lift _
  | some op =>
    cases op with
    | const => exact .bind (.constant p _) fun v _ _ => .andThen (.lift _) _
    | load => exact .andThen (.load _) _
    | store => exact .andThen (.store i _) _
    | pop => exact .andThen (.pop i) _
    | null => exact .andThen (.lift _) _
    | binary op =>
      refine .bind (.pop i) fun y _ _ => .bind (.pop i) fun x _ _ => .get ?_
      exact .bind (.lift _) fun v _ _ => .andThen (.lift _) _
    | primitive op =>
      refine .bind (.pop i) fun x _ _ => .get ?_
      exact .bind (.lift _) fun v _ _ => .andThen (.lift _) _
    | jump => exact .andThen (.lift _) _
    | jumpIfFalse =>
      refine .bind (.pop i) fun v _ _ => ?_
      cases v with
      | bool b =>
        cases b with
        | true => exact .pure _
        | false => exact .andThen (.lift _) _
      | _ => exact .lift _
    | call => exact .andThen (.call p cap i) _
    | ret =>
      -- The part of the call begins below the operand that is popped.
      refine .bind (.pop i) fun v s' hv => .leave v ?_
      obtain ⟨hpos, rfl⟩ := (Ends.pop (Q := fun _ s' => 0 < s.operands ∧ s' = s.drop 1)
        (E := fun _ _ => True) (fun _ => trivial) fun hpos => ⟨hpos, rfl⟩).ok hv
      rw [s.size_drop]
      simp only [State.operands] at hpos
      show s.frame.base ≤ s.stack.size - 1
      omega
    | print => exact .bind (.pop i) fun v _ _ => .andThen (.lift _) _
    | array =>
      refine .bind (.popMany i _) fun xs _ _ => ?_
      exact .bind (.lift _) fun v _ _ => .andThen (.lift _) _
    | indexGet =>
      refine .bind (.popMany i 2) fun xs s' hxs => ?_
      obtain ⟨array, index, rfl⟩ := length_eq_two.mp (Ends.length_of_popMany hxs)
      refine .bind (.lift _) fun r s'' hr => .get ?_
      obtain ⟨v, hv⟩ := position_ok hr
      refine .read rfl hv ?_
      rw [hv]
      exact .andThen (.lift _) _
    | indexSet =>
      refine .bind (.popMany i 3) fun xs s' hxs => ?_
      obtain ⟨array, index, w, rfl⟩ := length_eq_three.mp (Ends.length_of_popMany hxs)
      refine .bind (.lift _) fun r s'' hr => .look ?_
      obtain ⟨v, hv⟩ := position_ok hr
      exact .read rfl hv (.andThen (.lift _) _)
    | record =>
      refine .bind (.popMany i _) fun xs s' hxs => ?_
      have hlength := Ends.length_of_popMany hxs
      cases xs with
      | nil =>
        rw [length_nil] at hlength
        omega
      | cons type fields =>
        rw [length_cons] at hlength
        refine .bind (.lift _) fun type _ _ => .bind (.withFields _ fields (by omega))
          fun r _ _ => ?_
        exact .bind (.lift _) fun v _ _ => .andThen (.lift _) _
    | fieldGet =>
      refine .bind (.pop i) fun record _ _ => ?_
      exact .bind (.fieldOf p record _) fun r _ _ => .andThen (.lift _) _
    | fieldSet =>
      refine .bind (.popMany i 2) fun xs s' hxs => ?_
      obtain ⟨record, v, rfl⟩ := length_eq_two.mp (Ends.length_of_popMany hxs)
      exact .bind (.fieldOf p record _) fun r _ _ => .andThen (.lift _) _

/-- The places that a step uses exist, if the part of the current call begins on the stack. -/
theorem step_agrees (h : s.frame.base ≤ s.stack.size) :
    Agrees (step p cap) (Machine.step p cap) s := by
  refine .get (.looked ?_)
  by_cases hend : s.frame.func.code.size ≤ s.frame.ip
  · rw [if_pos hend, Array.getElem?_eq_none hend]
    refine .get ?_
    by_cases hempty : s.operands ≤ 0
    · rw [if_pos hempty, if_pos hempty]
      exact .leave _ h
    · rw [if_neg hempty, if_neg hempty]
      have hlt : s.stack.size - 1 < s.stack.size := by
        simp only [State.operands] at hempty
        omega
      have htop := Array.getElem?_eq_getElem hlt
      refine .get (.look (.read (by omega) htop ?_))
      rw [Array.back?, htop]
      exact .leave _ h
  · have hi := Array.getElem?_eq_getElem (Nat.lt_of_not_le hend)
    rw [if_neg hend, hi]
    exact .read rfl hi (.bind (.lift _) fun _ s' _ => execute_agrees p cap _ s')

lemma runFrom_eq {p : Bytecode.Program} {cap : Int} (hs : Reaches p cap s)
    (tracing : Bool) (steps : Nat) (trace : Array Bytes) : runFrom p cap steps s =
      some (Machine.runFrom p cap tracing steps trace s).outcome := by
  induction steps generalizing s trace with
  | zero => rfl
  | succ steps ih =>
    have hstep := step_agrees p cap hs.layout.base_le
    rw [runFrom, Machine.runFrom, hstep]
    cases hrun : (Machine.step p cap).run s with
    | ok r s' =>
      cases r with
      | none => exact ih (.step hs hrun) _
      | some v => rfl
    | error f s' => rfl

lemma run_eq (tracing : Bool) (steps : Nat) :
    run p cap steps = some (Machine.run p cap tracing steps).outcome := by
  unfold run Machine.run
  cases h : start p cap with
  | error f => rfl
  | ok s => exact runFrom_eq (.start h) tracing steps #[]

end Guarded

variable {p : Bytecode.Program} {cap : Int} {s : State}

lemma State.Layout.bottom (h : s.Layout cap) : s.calls.head?.map Frame.base = some 0 := by
  have := h.stacked.bottom_eq
  rw [calls]
  cases hcallers : s.callers.toList with
  | nil => simpa [hcallers] using this
  | cons c cs => simpa [hcallers] using this

lemma State.Layout.apart (h : s.Layout cap) {k : Nat} {c d : Frame}
    (hc : s.calls[k]? = some c) (hd : s.calls[k + 1]? = some d) : c.top ≤ d.base := by
  have hcalls : Stacked 0 s.calls s.frame.top := stacked_concat.mpr ⟨h.stacked, le_refl _⟩
  obtain ⟨hk, rfl⟩ := List.getElem?_eq_some_iff.mp hd
  obtain ⟨hk', rfl⟩ := List.getElem?_eq_some_iff.mp hc
  exact isChain_iff_getElem.mp hcalls.apart.chain k hk

/-- **The layout of the stack, and every place that the machine uses exists.** -/
theorem layout_in_range (p : Bytecode.Program) (cap : Int) : (∀ s, Reaches p cap s → s.frame.Fits →
      s.calls.head?.map Frame.base = some 0 ∧
      (∀ (k : Nat) (c d : Frame), s.calls[k]? = some c → s.calls[k + 1]? = some d →
        c.base + c.locals ≤ d.base) ∧
      s.frame.base + s.frame.locals ≤ s.stack.size ∧
      1 ≤ s.calls.length ∧ (s.calls.length : Int) ≤ cap ∧
      (Guarded.step p cap).run s = Guarded.ofResult ((step p cap).run s)) ∧
    ∀ tracing steps,
      Guarded.run p cap steps = some (run p cap tracing steps).outcome := by
  refine ⟨fun s hs hfits => ?_, Guarded.run_eq p cap⟩
  have h := hs.layout
  have hdepth := h.depth
  have hlength : s.calls.length = s.callers.size + 1 := by simp [State.calls]
  exact ⟨h.bottom, fun _ _ _ => h.apart, h.top_le hfits, by omega, by omega,
    Guarded.step_agrees p cap h.base_le⟩

theorem layout_in_range_relay :
    Reaches relay 2 (relayAfter 6) ∧ (relayAfter 6).frame.Fits ∧
    (relayAfter 6).calls.length = 2 ∧
    (relayAfter 6).frame.base + (relayAfter 6).frame.locals ≤ (relayAfter 6).stack.size ∧
    (Guarded.step relay 2).run (relayAfter 6) =
      Guarded.ofResult ((step relay 2).run (relayAfter 6)) ∧
    Guarded.run relay 2 8 = some (run relay 2 true 8).outcome := by
  have hfits : (relayAfter 6).frame.Fits := by
    unfold Frame.Fits
    decide
  obtain ⟨-, -, htop, -, -, hstep⟩ :=
    (layout_in_range relay 2).1 (relayAfter 6) reaches_relayAfter hfits
  exact ⟨reaches_relayAfter, hfits, rfl, htop, hstep, (layout_in_range relay 2).2 true 8⟩

end Minilang.Machine
