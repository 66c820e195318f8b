import Minilang.Proofs.Typing.Uses
import Minilang.Typing.Package

/-!
# Payload selectors

Where a checked tree selects a component of a payload by its position.  The variant of a value is
not part of its type, so these are the only places where a field may be missing at run time.

A selector is given by the place of the instruction that it becomes, which for an assignment to a
component is that of the whole assignment, and by the text of the position.
-/

namespace Minilang

namespace Typing

variable (defs : List TypeDef)

/-- The selection of a field of a value if the value is of an enum and the field a position. -/
def payloadSelector (span : Span) (x : Expr Note) (name : Name) : List (Span × Bytes) :=
  match x.note.type? with
  | some (.named n) =>
    match (TypeDef.find? defs n).map TypeDef.body with
    | some (.enum _) => if (Decimal.readInt? name.text).isSome then [(span, name.text)] else []
    | _ => []
  | _ => []

mutual

/-- The payload selectors of an expression. -/
def selectors : Expr Note → List (Span × Bytes)
  | .lit _ _ _ | .var _ _ _ => []
  | .binary _ _ _ x y => selectors x ++ selectors y
  | .unary _ _ _ x => selectors x
  | .call _ _ callee args => selectors callee ++ selectorsAll args
  | .cond _ _ test t e => selectors test ++ selectorsBlock t ++
      (match e with
        | none => []
        | some e => selectors e)
  | .block b => selectorsBlock b
  | .assign s _ target value => selectorsTarget s target ++ selectors value
  | .field s _ x name => payloadSelector defs s x name ++ selectors x
  | .array _ _ elems => selectorsAll elems
  | .index _ _ x i => selectors x ++ selectors i
  | .lambda _ _ _ _ body => selectorsBlock body
  | .struct _ _ _ fields => selectorsFields fields

/-- The payload selectors of what an assignment at the given place assigns to. -/
def selectorsTarget (span : Span) : Expr Note → List (Span × Bytes)
  | .field _ _ x name => payloadSelector defs span x name ++ selectors x
  | .index _ _ x i => selectors x ++ selectors i
  | _ => []

/-- The payload selectors of expressions. -/
def selectorsAll : List (Expr Note) → List (Span × Bytes)
  | [] => []
  | x :: xs => selectors x ++ selectorsAll xs

/-- The payload selectors of fields. -/
def selectorsFields : List (FieldValue Note) → List (Span × Bytes)
  | [] => []
  | .mk _ _ x :: fs => selectors x ++ selectorsFields fs

/-- The payload selectors of a block. -/
def selectorsBlock : Block Note → List (Span × Bytes)
  | .mk _ _ stmts value => selectorsStmts stmts ++
      (match value with
        | none => []
        | some x => selectors x)

/-- The payload selectors of a statement. -/
def selectorsStmt : Stmt Note → List (Span × Bytes)
  | .letVar _ _ _ x => selectors x
  | .ret _ value =>
    match value with
    | none => []
    | some x => selectors x
  | .loop _ test b => selectors test ++ selectorsBlock b
  | .forRange _ _ start stop b => selectors start ++ selectors stop ++ selectorsBlock b
  | .forEach _ _ x b => selectors x ++ selectorsBlock b
  | .expr x => selectors x

/-- The payload selectors of statements. -/
def selectorsStmts : List (Stmt Note) → List (Span × Bytes)
  | [] => []
  | x :: xs => selectorsStmt x ++ selectorsStmts xs

end

/-! ### Changes of notes -/

lemma selectorsBlock_modifyNote (f : Note → Note) (b : Block Note) :
    selectorsBlock defs (b.modifyNote f) = selectorsBlock defs b := by
  cases b with
  | mk s n stmts value => cases value <;> rfl

lemma selectors_modifyNote (f : Note → Note) (x : Expr Note) :
    selectors defs (x.modifyNote f) = selectors defs x := by
  cases x with
  | block b => exact selectorsBlock_modifyNote defs f b
  | cond s n test t e => cases e <;> rfl
  | _ => rfl

lemma payloadSelector_useReturns (r : Ty) (span : Span) (x : Expr Note) (name : Name) :
    payloadSelector defs span (useReturns r x) name = payloadSelector defs span x name := by
  rw [payloadSelector, note_useReturns, payloadSelector]

mutual

theorem selectors_useReturns (r : Ty) (x : Expr Note) :
    selectors defs (useReturns r x) = selectors defs x := by
  cases x with
  | cond _ _ _ _ e =>
    cases e <;> simp [useReturns, selectors, selectors_useReturns, selectorsBlock_useReturns]
  | _ => simp [useReturns, selectors, selectors_useReturns, selectorsTarget_useReturns,
    selectorsAll_useReturns, selectorsFields_useReturns, selectorsBlock_useReturns,
    payloadSelector_useReturns]

theorem selectorsTarget_useReturns (r : Ty) (span : Span) (x : Expr Note) :
    selectorsTarget defs span (useReturns r x) = selectorsTarget defs span x := by
  cases x with
  | cond _ _ _ _ e => cases e <;> rfl
  | field | index =>
    simp [useReturns, selectorsTarget, selectors_useReturns, payloadSelector_useReturns]
  | _ => rfl

theorem selectorsAll_useReturns (r : Ty) (xs : List (Expr Note)) :
    selectorsAll defs (useReturnsAll r xs) = selectorsAll defs xs := by
  cases xs <;>
    simp [useReturnsAll, selectorsAll, selectors_useReturns, selectorsAll_useReturns]

theorem selectorsFields_useReturns (r : Ty) : ∀ fs : List (FieldValue Note),
    selectorsFields defs (useReturnsFields r fs) = selectorsFields defs fs
  | [] => rfl
  | .mk _ _ x :: fs => by
    simp [useReturnsFields, selectorsFields, selectors_useReturns r x,
      selectorsFields_useReturns r fs]

theorem selectorsBlock_useReturns (r : Ty) : ∀ b : Block Note,
    selectorsBlock defs (useReturnsBlock r b) = selectorsBlock defs b
  | .mk _ _ stmts v => by
    cases v <;> simp [useReturnsBlock, selectorsBlock, selectorsStmts_useReturns r stmts,
      selectors_useReturns]

theorem selectorsStmt_useReturns (r : Ty) (x : Stmt Note) :
    selectorsStmt defs (useReturnsStmt r x) = selectorsStmt defs x := by
  cases x with
  | ret _ v =>
    cases v <;> simp [useReturnsStmt, selectorsStmt, useAs, selectors_modifyNote,
      selectors_useReturns]
  | _ => simp [useReturnsStmt, selectorsStmt, selectors_useReturns, selectorsBlock_useReturns]

theorem selectorsStmts_useReturns (r : Ty) (xs : List (Stmt Note)) :
    selectorsStmts defs (useReturnsStmts r xs) = selectorsStmts defs xs := by
  cases xs <;>
    simp [useReturnsStmts, selectorsStmts, selectorsStmt_useReturns, selectorsStmts_useReturns]

end

end Typing

/-- The payload selectors of a program. -/
def Package.selectors (p : Package) : List (Span × Bytes) :=
  p.program.funcs.flatMap fun f => Typing.selectorsBlock p.defs f.body

end Minilang
