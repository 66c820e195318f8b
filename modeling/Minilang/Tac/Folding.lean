import Minilang.Tac.Basic

/-!
# Constant folding

An operation on literals is replaced by its result.  An operation that would fail stays, so that it
still fails when the program runs.  Instructions are neither added nor removed nor moved.
-/

namespace Minilang.Tac

namespace Lit

def value? : Lit → Option Value
  | .int n => some (.int n)
  | .float x => some (.float x)
  | .bool b => some (.bool b)
  | .string s => some (.string s)
  | .func _ | .invalid _ => none

def ofValue? : Value → Option Lit
  | .int n => some (.int n)
  | .float x => some (.float x)
  | .bool b => some (.bool b)
  | .string s => some (.string s)
  | _ => none

end Lit

def Operand.value? : Operand → Option Value
  | .lit l => l.value?
  | _ => none

def Instr.result? : Instr → Option (Nat × Value)
  | .binary d (.known op) x y => do
    let a ← x.value?
    let b ← y.value?
    let v ← (Value.binary .empty op a b).toOption
    return (d, v)
  | .unary d (.known op) x => do
    let a ← x.value?
    let v ← (Value.primitive .empty op a).toOption
    return (d, v)
  | _ => none

def Instr.fold? (i : Instr) : Option Instr := do
  let (d, v) ← i.result?
  let l ← Lit.ofValue? v
  return .assign d (.lit l)

def foldBody (body : Code) : Code × Nat :=
  (body.map fun i => { i with val := i.val.fold?.getD i.val },
    body.countP fun i => i.val.fold?.isSome)

def Func.fold (f : Func) : Func × Nat :=
  let (body, n) := foldBody f.body
  ({ f with body := body }, n)

/-- The program with constants folded, and how often. -/
def Program.fold (p : Program) : Program × Nat :=
  let folded := p.funcs.map Func.fold
  (⟨folded.map (·.1)⟩, (folded.map (·.2)).foldl (· + ·) 0)

/-- The program after the given number of passes of folding, and how many instructions have been
replaced. -/
def Program.foldTimes : (passes : Nat) → Program → Program × Nat
  | 0, p => (p, 0)
  | n + 1, p =>
    let (q, k) := p.fold
    let (r, m) := Program.foldTimes n q
    (r, k + m)

end Minilang.Tac
