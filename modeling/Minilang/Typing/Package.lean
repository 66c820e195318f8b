import Minilang.Typing.Body

/-!
# Checked programs

The check of a whole program: the types it defines, the signatures of its functions, and the bodies
of the functions in order.  A function whose result type is needed before its turn is checked then.
-/

namespace Minilang

/-- A checked program. -/
structure Package where
  /-- The program with the types of its expressions. -/
  program : Program Note
  /-- The types it defines, in order. -/
  defs : List TypeDef
  /-- The types of its functions, in order. -/
  signatures : List (Bytes × Ty)

namespace Typing

def declareFuncs (names : TypeNames) (done : List FuncInfo) :
    List (FuncDecl Unit) → Check (List FuncInfo)
  | [] => .ok done
  | f :: fs => do
    let name := f.name
    if (Builtin.ofName? name.text).isSome then
      throw ⟨name.span, .redefinedBuiltin name.text⟩
    if done.any fun g => g.decl.name.text = name.text then
      throw ⟨name.span, .redeclaredFunc name.text⟩
    if (names.lookup name.text).isSome then
      throw ⟨name.span, .nameOfType name.text⟩
    let (params, result?) ← signature names f.params f.result
    declareFuncs names (done ++ [⟨f, params, result?⟩]) fs

def requireMain (span : Span) (c : Context) : Check Unit :=
  match c.func? "main" with
  | none => .error ⟨span, .undeclaredMain⟩
  | some f =>
    if f.params.isEmpty then .ok () else .error ⟨f.decl.name.span, .mainWithParams⟩

/-- The result type of a function whose check has not been begun, and what is known after its check.
At most `depth` functions are not being checked. -/
def checkFunc (c : Context) : (depth : Nat) → FuncInfo → Progress → Check (Ty × Progress)
  | 0, f, _ => .error ⟨f.decl.name.span, .recursiveFunc f.decl.name.text⟩
  | depth + 1, f, progress => do
    let name := f.decl.name.text
    let check : M (Ty × Block Note) := do
      let (t, body) ← checkBlock c (checkFunc c depth) ⟨f.result?, []⟩
        (paramEnv f.decl.params f.params) f.decl.body
      conclude f.result? t body
    let ((r, body), w) ← check.run ⟨(name, .checking) :: progress, []⟩
    return (r, (name, .checked ⟨r, body⟩) :: w.progress)

def checkFuncs (c : Context) (progress : Progress) : List FuncInfo → Check Progress
  | [] => .ok progress
  | f :: fs => do
    match progress.lookup f.decl.name.text with
    | some _ => checkFuncs c progress fs
    | none =>
      let (_, progress) ← checkFunc c c.funcs.length f progress
      checkFuncs c progress fs

def annotate (progress : Progress) : Decl Unit → Option (Decl Note)
  | .func f =>
    match progress.lookup f.name.text with
    | some (.checked b) => some (.func ⟨f.span, f.name, f.params, f.result, b.body⟩)
    | _ => none
  | .struct s name fields => some (.struct s name fields)
  | .enum s name variants => some (.enum s name variants)
  | .alias s name type => some (.alias s name type)

def checkedType (progress : Progress) (f : FuncInfo) : Option (Bytes × Ty) :=
  match progress.lookup f.decl.name.text with
  | some (.checked b) => some (f.decl.name.text, .func f.params b.result)
  | _ => none

/-- Checks a program. -/
def checkProgram (p : Program Unit) : Check Package := do
  let names ← declareTypes [] p.decls
  let defs ← resolveDecls names [] p.decls
  let funcs ← declareFuncs names [] p.funcs
  let c : Context := ⟨names, defs, funcs⟩
  requireMain p.span c
  let progress ← checkFuncs c [] funcs
  return {
    program := ⟨p.span, p.decls.filterMap (annotate progress)⟩
    defs := defs
    signatures := funcs.filterMap (checkedType progress) }

end Typing

end Minilang
