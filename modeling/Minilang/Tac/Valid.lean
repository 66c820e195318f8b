import Std.Data.HashSet
import Minilang.Tac.Listing

/-!
# Valid three-address code

In a valid function every register is written before it is read, in the order of the instructions,
all registers exist, no label is defined twice, and every jump goes to a label of the function.
-/

namespace Minilang.Tac

/-- What is wrong with a function. -/
inductive Defect where
  | noRegister (param : Bytes)
  | duplicateLabel (label : Bytes)
  | unwritten (instr : Instr) (r : Nat)
  | outOfRange (instr : Instr) (r : Nat)
  | undefinedLabel (instr : Instr) (label : Bytes)

namespace Defect

def message : Defect → Bytes
  | .noRegister param => Bytes.concat ["parameter ", param, " has no register"]
  | .duplicateLabel label => Bytes.concat ["label ", label, " defined more than once"]
  | .unwritten i r => Bytes.concat [i.text, ": ", regText r, " used before being defined"]
  | .outOfRange i r => Bytes.concat [i.text, ": register ", regText r, " out of range"]
  | .undefinedLabel i label => Bytes.concat [i.text, ": undefined label ", label]

end Defect

/-- The function with a defect. -/
structure InvalidFunc where
  func : Bytes
  defect : Defect

def InvalidFunc.diagnostic (e : Located InvalidFunc) : Diagnostic :=
  ⟨.lowering, e.span,
    Bytes.concat ["function ", e.val.func, ": ", e.val.defect.message]⟩

def checkLabels (seen : Std.HashSet Bytes) :
    Code → Except (Located Defect) (Std.HashSet Bytes)
  | [] => .ok seen
  | i :: is =>
    match i.val.label? with
    | none => checkLabels seen is
    | some l =>
      if seen.contains l then .error ⟨i.span, .duplicateLabel l⟩
      else checkLabels (seen.insert l) is

def firstUnwritten? (numVars : Nat) (written : Std.HashSet Nat) : List Operand → Option Nat
  | [] => none
  | .reg r :: xs =>
    if numVars ≤ r ∨ !written.contains r then some r else firstUnwritten? numVars written xs
  | _ :: xs => firstUnwritten? numVars written xs

def checkInstr (numVars : Nat) (labels : Std.HashSet Bytes) (written : Std.HashSet Nat)
    (i : Located Instr) : Except (Located Defect) (Std.HashSet Nat) := do
  match firstUnwritten? numVars written i.val.uses with
  | some r => throw ⟨i.span, .unwritten i.val r⟩
  | none =>
    let written ← match i.val.dst? with
      | none => pure written
      | some d =>
        if numVars ≤ d then throw ⟨i.span, .outOfRange i.val d⟩
        else pure (written.insert d)
    match i.val.target? with
    | none => return written
    | some l =>
      if labels.contains l then return written
      else throw ⟨i.span, .undefinedLabel i.val l⟩

def checkInstrs (numVars : Nat) (labels : Std.HashSet Bytes) (written : Std.HashSet Nat) :
    Code → Except (Located Defect) Unit
  | [] => .ok ()
  | i :: is =>
    match checkInstr numVars labels written i with
    | .error e => .error e
    | .ok written => checkInstrs numVars labels written is

def Func.check (f : Func) : Except (Located Defect) Unit := do
  match f.params[f.numVars]? with
  | some param => throw ⟨.none, .noRegister param⟩
  | none =>
    let labels ← checkLabels ∅ f.body
    checkInstrs f.numVars labels (Std.HashSet.ofList (List.range f.params.length)) f.body

def checkFuncs : List Func → Except (Located InvalidFunc) Unit
  | [] => .ok ()
  | f :: fs =>
    match f.check with
    | .error e => .error ⟨e.span, f.name, e.val⟩
    | .ok () => checkFuncs fs

/-- Checks every function. -/
def Program.check (p : Program) : Except (Located InvalidFunc) Unit :=
  checkFuncs p.funcs

end Minilang.Tac
