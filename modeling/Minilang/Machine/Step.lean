import Minilang.Machine.State

/-!
# The instructions of the stack machine
-/

namespace Minilang.Machine

def constant (p : Bytecode.Program) (n : Nat) : Exec Value :=
  match p.consts[n]? with
  | some v => return v
  | none => fail .invalidOpcode (Bytes.concat ["constant ", Decimal.ofNat n, " out of range"])

def asName : Value → Exec Bytes
  | .string s => return s
  | v => fail .typeMismatch (Bytes.concat ["expected a string name, got a ", v.kind.text])

def ofOperation : Except OperationError Value → Exec Value
  | .ok v => return v
  | .error e => fail e.kind e.cause

/-- Call the function on the stack. -/
def call (p : Bytecode.Program) (cap : Int) (i : Instruction) : Exec Unit := do
  let args := i.arg.toNat
  match ← pop i with
  | .func name index =>
    match (if index < 0 then none else p.funcs[index.toNat]?) with
    | none =>
      fail .invalidOpcode
        (Bytes.concat ["function ", name, " (", Decimal.ofInt index, ") out of range"])
    | some f =>
      if (args : Int) ≠ f.numParams then
        fail .typeMismatch (Bytes.concat [f.name, " called with ", Decimal.ofNat args,
          " arguments, want ", Decimal.ofInt f.numParams])
      else if (← get).operands < args then
        fail .stackUnderflow
          (Bytes.concat [f.name, " needs ", Decimal.ofNat args, " arguments"])
      else enter cap f args
  | v => fail .typeMismatch (Bytes.concat ["cannot call a ", v.kind.text])

def position (array index : Value) : Exec (Nat × Nat) := do
  match array with
  | .array ref =>
    match index with
    | .int n =>
      let size := ((← get).heap.elems ref).size
      let n := n.toInt
      if n < 0 ∨ (size : Int) ≤ n then
        fail .indexOutOfBounds
          (Bytes.concat ["index ", Decimal.ofInt n, " with length ", Decimal.ofNat size])
      else return (ref, n.toNat)
    | v => fail .typeMismatch (Bytes.concat ["index is a ", v.kind.text, ", not an int"])
  | v => fail .typeMismatch (Bytes.concat ["cannot index a ", v.kind.text])

variable (p : Bytecode.Program)

/-- The record that a value stands for, the name of a field that a constant gives, and the value of
the field. -/
def fieldOf (record : Value) (n : Nat) : Exec (Nat × Bytes × Value) := do
  match record with
  | .record ref =>
    let name ← asName (← constant p n)
    let r := (← get).heap.record ref
    match r.get? name with
    | some v => return (ref, name, v)
    | none => fail .unknownField (Bytes.concat [r.type, " has no field ", name])
  | v => fail .typeMismatch (Bytes.concat ["cannot access a field of a ", v.kind.text])

def withFields (r : Record) : List Value → Exec Record
  | name :: v :: rest => do
    let name ← asName name
    withFields (r.set name v) rest
  | _ => return r

/-- Executes an instruction.  The result is that of the program, once it has one. -/
def execute (cap : Int) (i : Instruction) : Exec (Option Value) := do
  let arg := i.arg.toNat
  match i.opcode? with
  | none => fail .invalidOpcode (Opcode.nameOf i.op)
  | some .const =>
    push (← constant p arg)
    return none
  | some .load =>
    load arg
    return none
  | some .store =>
    store i arg
    return none
  | some .pop =>
    let _ ← pop i
    return none
  | some .null =>
    push .null
    return none
  | some (.binary op) =>
    let y ← pop i
    let x ← pop i
    push (← ofOperation (Value.binary (← get).heap op x y))
    return none
  | some (.primitive op) =>
    let x ← pop i
    push (← ofOperation (Value.primitive (← get).heap op x))
    return none
  | some .jump =>
    jump arg
    return none
  | some .jumpIfFalse =>
    match ← pop i with
    | .bool true => return none
    | .bool false =>
      jump arg
      return none
    | v => fail .typeMismatch (Bytes.concat ["condition is a ", v.kind.text, ", not a bool"])
  | some .call =>
    call p cap i
    return none
  | some .ret => leave (← pop i)
  | some .print =>
    print (← pop i)
    return none
  | some .array =>
    push (← newArray (← popMany i arg))
    return none
  | some .indexGet =>
    match ← popMany i 2 with
    | [array, index] =>
      let (ref, n) ← position array index
      push (((← get).heap.elems ref)[n]?.getD .null)
      return none
    | _ => return none
  | some .indexSet =>
    match ← popMany i 3 with
    | [array, index, v] =>
      let (ref, n) ← position array index
      modifyHeap fun h => h.setElem ref n v
      return none
    | _ => return none
  | some .record =>
    match ← popMany i (1 + 2 * arg) with
    | type :: fields =>
      let type ← asName type
      push (← newRecord (← withFields (.empty type) fields))
      return none
    | [] => return none
  | some .fieldGet =>
    let (_, _, v) ← fieldOf p (← pop i) arg
    push v
    return none
  | some .fieldSet =>
    match ← popMany i 2 with
    | [record, v] =>
      let (ref, name, _) ← fieldOf p record arg
      modifyHeap fun h => h.setField ref name v
      return none
    | _ => return none

def advance (ip : Nat) : Exec Unit :=
  modify fun ⟨stack, frame, callers, heap, output⟩ =>
    ⟨stack, { frame with ip := ip + 1 }, callers, heap, output⟩

/-- One step: executes the next instruction.  After its last instruction a function returns the
operand on top, or else no value. -/
def step (cap : Int) : Exec (Option Value) := do
  let ip := (← get).frame.ip
  match (← get).frame.func.code[ip]? with
  | some i =>
    advance ip
    execute p cap i
  | none =>
    if (← get).operands ≤ 0 then leave .null
    else leave ((← get).stack.back?.getD .null)

end Minilang.Machine
