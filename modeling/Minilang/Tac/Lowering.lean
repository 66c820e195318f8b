import Minilang.Collection.FreshName
import Minilang.Tac.Valid
import Minilang.Typing.Package

/-!
# From syntax trees to three-address code

An expression becomes a stretch of code and an operand that holds its value after the code has run.
Literals stay literals, a variable is its register, and everything computed goes to a new register.
Operands are computed from left to right.  Only functions, calls and loops have more to them:

* a function literal becomes a function of its own, named after the function around it, and its
  value is a reference to that function;
* `a && b` is `r = a; ifnot r goto end; r = b; end:`, and `a || b` the same with the condition
  negated;
* `if c { t } else { e }` is `ifnot c goto else; r = t; goto end; else: r = e; end:`, where a branch
  without a value assigns nothing;
* a loop over a range counts in a register that the program has no name for.
-/

namespace Minilang.Tac

/-- What cannot be lowered. -/
inductive LowerCause where
  | noValue (text : Bytes)
  | unbound (name : Bytes)
  | unboundTarget (name : Bytes)
  | notATarget (text : Bytes)
  | untypedStruct
  | notAStruct (type : Ty)

namespace LowerCause

def message : LowerCause → Bytes
  | .noValue text => Bytes.concat [text, " has no value"]
  | .unbound name => Bytes.concat ["reference to unbound variable ", name]
  | .unboundTarget name => Bytes.concat ["assignment to unbound variable ", name]
  | .notATarget text => Bytes.concat ["cannot assign to ", text]
  | .untypedStruct => "no type for structure literal"
  | .notAStruct type => Bytes.concat [type.text, " is not a structure"]

end LowerCause

/-- The cause, and in which function. -/
structure LowerError where
  func : Bytes
  cause : LowerCause

def LowerError.diagnostic (e : Located LowerError) : Diagnostic :=
  ⟨.lowering, e.span, Bytes.concat ["function ", e.val.func, ": ", e.val.cause.message]⟩

/-- What an expression becomes: code and, unless the expression has no value, the operand that holds
its value after the code. -/
structure Lowered where
  code : Code
  value? : Option Operand

namespace Lowering

/-- What has been used up in a function, and the functions made from its function literals, the
latest first. -/
structure State where
  numVars : Nat
  labels : FreshName
  lambdas : FreshName
  nested : List Func

def State.start (params : Nat) : State :=
  ⟨params, .start, .start, []⟩

/-- Lowering takes registers and labels, unless it fails. -/
abbrev M := StateT State (Except (Located LowerError))

/-- The registers of the variables in sight. -/
abbrev Env := List (Bytes × Nat)

/-- What is known about the program. -/
structure Context (α : Type) where
  note : α → Note
  defs : List TypeDef
  funcs : List Bytes

def newReg : M Nat := do
  let s ← get
  set { s with numVars := s.numVars + 1 }
  return s.numVars

def newLabel (stem : Bytes) : M Bytes := do
  let s ← get
  let (name, labels) := s.labels.next stem
  set { s with labels := labels }
  return name

def newLambda (func : Bytes) : M Bytes := do
  let s ← get
  let (name, lambdas) := s.lambdas.next (Bytes.concat [func, "$lambda"])
  set { s with lambdas := lambdas }
  return name

def addNested (fs : List Func) : M Unit :=
  modify fun s => { s with nested := fs.reverse ++ s.nested }

variable {α : Type} (c : Context α) (span : Span)

def needValue (func : Bytes) (x : Expr α) (l : Lowered) : M (Code × Operand) :=
  match l.value? with
  | some v => return (l.code, v)
  | none => throw ⟨x.span, func, .noValue x.text⟩

def widen (note : α) (l : Lowered) : M Lowered :=
  match l.value?, (c.note note).widen with
  | some v, true => do
    let d ← newReg
    return ⟨l.code ++ [⟨span, .unary d (.known .toFloat) v⟩], some (.reg d)⟩
  | _, _ => return l

def literal : Literal → Lit
  | .int n => .int n
  | .float x => .float x
  | .string s => .string s
  | .bool b => .bool b

def name (func : Bytes) (env : Env) (span : Span) (x : Bytes) : M Operand :=
  match env.lookup x with
  | some r => return .reg r
  | none =>
    if x ∈ c.funcs then return .lit (.func x)
    else throw ⟨span, func, .unbound x⟩

/-- The fields of the structure that a literal builds, in the order of their declaration, and the
name of the structure. -/
def structOf (func : Bytes) (span : Span) (note : α) : M (Bytes × List Bytes) :=
  match (c.note note).type? with
  | none => throw ⟨span, func, .untypedStruct⟩
  | some t =>
    match TypeDef.find? c.defs t.text with
    | some ⟨name, .struct fields⟩ => return (name, fields.map (·.1))
    | _ => throw ⟨span, func, .notAStruct t⟩

/-- The record of a variant; the components of its payload are named by their positions. -/
def variantRecord (v : Variant) (code : Code) (payload : List Operand) : M Lowered := do
  let d ← newReg
  let fields := (List.range payload.length).map Decimal.ofNat
  return ⟨code ++ [⟨span, .record d v.recordName fields payload⟩], some (.reg d)⟩

def branch (d : Nat) (l : Lowered) : Code :=
  match l.value? with
  | none => l.code
  | some v => l.code ++ [⟨span, .assign d v⟩]

/-- The code of a loop that counts a register up to a limit.  `elem` sets the loop variable, and
`body` is the code that follows it. -/
def countingLoop (loop stop : Bytes) (counter limit test : Nat) (elem : Located Instr)
    (body : Code) : Code :=
  [⟨span, .label loop⟩, ⟨span, .binary test (.known .lt) (.reg counter) (.reg limit)⟩,
    ⟨span, .jumpUnless (.reg test) stop⟩,
    elem] ++ body ++
  [⟨span, .binary counter (.known .add) (.reg counter) (.lit (.int 1))⟩, ⟨span, .jump loop⟩,
    ⟨span, .label stop⟩]

def paramEnv (params : List Param) : Env :=
  (params.zipIdx.map fun (p, i) => (p.name.text, i)).reverse

/-- A function from its lowered body, and the functions made from its function literals. -/
def assemble (name : Bytes) (params : List Param) (span : Span) (body : Lowered) (s : State) :
    List Func :=
  ⟨name, params.map fun p => p.name.text, s.numVars, body.code ++ [⟨span, .ret body.value?⟩]⟩ ::
    s.nested.reverse

mutual

/-- The code of an expression. -/
def lowerExpr (func : Bytes) (env : Env) : Expr α → M Lowered
  | .lit s n v => widen c s n ⟨[], some (.lit (literal v))⟩
  | .var s n x => do widen c s n ⟨[], some (← name c func env s x)⟩
  | .binary s n op x y => do
    let (xc, xv) ← needValue func x (← lowerExpr func env x)
    if op.isLogical then
      let d ← newReg
      let stop ← newLabel "sc"
      let (test, cond) ← match op with
        | .or => do
          let r ← newReg
          pure ([⟨s, .unary r (.known .not) (.reg d)⟩], Operand.reg r)
        | _ => pure ([], Operand.reg d)
      let (yc, yv) ← needValue func y (← lowerExpr func env y)
      widen c s n ⟨xc ++ [⟨x.span, .assign d xv⟩] ++ test ++ [⟨s, .jumpUnless cond stop⟩] ++ yc ++
        [⟨y.span, .assign d yv⟩, ⟨s, .label stop⟩], some (.reg d)⟩
    else
      let (yc, yv) ← needValue func y (← lowerExpr func env y)
      let d ← newReg
      widen c s n ⟨xc ++ yc ++ [⟨s, .binary d (.known op) xv yv⟩], some (.reg d)⟩
  | .unary s n op x => do
    let (xc, xv) ← needValue func x (← lowerExpr func env x)
    let d ← newReg
    let op := match op with
      | .neg => Primitive.neg
      | .not => Primitive.not
    widen c s n ⟨xc ++ [⟨s, .unary d (.known op) xv⟩], some (.reg d)⟩
  | .call s n callee args => do
    match (c.note n).role with
    | .builtin b =>
      let (code, vs) ← lowerValues func env [] [] args
      let arg := vs.headD .missing
      match b with
      | .print => return ⟨code ++ [⟨s, .print arg⟩], none⟩
      | .len =>
        let d ← newReg
        widen c s n ⟨code ++ [⟨s, .unary d (.known .len) arg⟩], some (.reg d)⟩
    | .variant v =>
      let (code, vs) ← lowerValues func env [] [] args
      widen c s n (← variantRecord s v code vs)
    | .plain =>
      let (fc, fv) ← needValue func callee (← lowerExpr func env callee)
      let (code, vs) ← lowerValues func env [] [] args
      let d ← newReg
      widen c s n ⟨fc ++ code ++ [⟨s, .call d fv vs⟩], some (.reg d)⟩
  | .cond s n test t e => do
    let (tc, tv) ← needValue func test (← lowerExpr func env test)
    match e with
    | none =>
      let stop ← newLabel "end"
      let body ← lowerBlock func env t
      return ⟨tc ++ [⟨test.span, .jumpUnless tv stop⟩] ++ body.code ++ [⟨s, .label stop⟩], none⟩
    | some e => do
      let other ← newLabel "else"
      let stop ← newLabel "end"
      let t' ← lowerBlock func env t
      let e' ← lowerExpr func env e
      let joined (d : Nat) : Code :=
        tc ++ [⟨test.span, .jumpUnless tv other⟩] ++ branch t.span d t' ++
          [⟨t.span, .jump stop⟩, ⟨s, .label other⟩] ++ branch e.span d e' ++ [⟨s, .label stop⟩]
      match t'.value?, e'.value? with
      | none, none => return ⟨joined 0, none⟩
      | _, _ =>
        let d ← newReg
        widen c s n ⟨joined d, some (.reg d)⟩
  | .block b => lowerBlock func env b
  | .assign s _ target value => do
    match target with
    | .var ts _ x =>
      match env.lookup x with
      | none => throw ⟨ts, func, .unboundTarget x⟩
      | some r =>
        let (vc, v) ← needValue func value (← lowerExpr func env value)
        return ⟨vc ++ [⟨s, .assign r v⟩], none⟩
    | .field _ _ x field =>
      let (xc, xv) ← needValue func x (← lowerExpr func env x)
      let (vc, v) ← needValue func value (← lowerExpr func env value)
      return ⟨xc ++ vc ++ [⟨s, .setField xv field.text v⟩], none⟩
    | .index _ _ x i =>
      let (xc, xv) ← needValue func x (← lowerExpr func env x)
      let (ic, iv) ← needValue func i (← lowerExpr func env i)
      let (vc, v) ← needValue func value (← lowerExpr func env value)
      return ⟨xc ++ ic ++ vc ++ [⟨s, .setIndex xv iv v⟩], none⟩
    | target => throw ⟨target.span, func, .notATarget target.text⟩
  | .field s n x field => do
    match (c.note n).role with
    | .variant v => widen c s n (← variantRecord s v [] [])
    | _ =>
      let (xc, xv) ← needValue func x (← lowerExpr func env x)
      let d ← newReg
      widen c s n ⟨xc ++ [⟨s, .field d xv field.text⟩], some (.reg d)⟩
  | .array s n elems => do
    let (code, vs) ← lowerValues func env [] [] elems
    let d ← newReg
    widen c s n ⟨code ++ [⟨s, .array d vs⟩], some (.reg d)⟩
  | .index s n x i => do
    let (xc, xv) ← needValue func x (← lowerExpr func env x)
    let (ic, iv) ← needValue func i (← lowerExpr func env i)
    let d ← newReg
    widen c s n ⟨xc ++ ic ++ [⟨s, .index d xv iv⟩], some (.reg d)⟩
  | .lambda s n params _ body => do
    let name ← newLambda func
    let (l, st) ← (lowerBlock name (paramEnv params) body).run (.start params.length)
    addNested (assemble name params body.span l st)
    widen c s n ⟨[], some (.lit (.func name))⟩
  | .struct s n _ fields => do
    let (type, names) ← structOf c func s n
    let (code, set) ← lowerFields func env [] [] fields
    let d ← newReg
    let values := names.map fun f => (set.lookup f).getD .missing
    widen c s n ⟨code ++ [⟨s, .record d type names values⟩], some (.reg d)⟩

/-- Lowers expressions whose values are needed, after those with the code and the values in `code`
and `vs`, the latest first. -/
def lowerValues (func : Bytes) (env : Env) (code : List Code) (vs : List Operand) :
    List (Expr α) → M (Code × List Operand)
  | [] => return (code.reverse.flatten, vs.reverse)
  | x :: xs => do
    let (xc, v) ← needValue func x (← lowerExpr func env x)
    lowerValues func env (xc :: code) (v :: vs) xs

/-- Lowers the field values of a structure literal, after those with the code and the values in
`code` and `set`, the latest first. -/
def lowerFields (func : Bytes) (env : Env) (code : List Code) (set : List (Bytes × Operand)) :
    List (FieldValue α) → M (Code × List (Bytes × Operand))
  | [] => return (code.reverse.flatten, set)
  | .mk _ name x :: fs => do
    let (xc, v) ← needValue func x (← lowerExpr func env x)
    lowerFields func env (xc :: code) ((name.text, v) :: set) fs

/-- The code of a block. -/
def lowerBlock (func : Bytes) (env : Env) : Block α → M Lowered
  | .mk s n stmts value => do
    let (code, env) ← lowerStmts func env [] stmts
    match value with
    | none => return ⟨code, none⟩
    | some x => do
      let l ← lowerExpr func env x
      widen c s n ⟨code ++ l.code, l.value?⟩

/-- The code of a statement. -/
def lowerStmt (func : Bytes) (env : Env) : Stmt α → M (Code × Env)
  | .letVar s x _ value => do
    let (vc, v) ← needValue func value (← lowerExpr func env value)
    let d ← newReg
    return (vc ++ [⟨s, .assign d v⟩], (x.text, d) :: env)
  | .ret s value => do
    match value with
    | none => return ([⟨s, .ret none⟩], env)
    | some x => do
      let (xc, v) ← needValue func x (← lowerExpr func env x)
      return (xc ++ [⟨s, .ret (some v)⟩], env)
  | .loop s test body => do
    let loop ← newLabel "loop"
    let stop ← newLabel "end"
    let (tc, tv) ← needValue func test (← lowerExpr func env test)
    let body ← lowerBlock func env body
    return ([⟨s, .label loop⟩] ++ tc ++ [⟨test.span, .jumpUnless tv stop⟩] ++ body.code ++
      [⟨s, .jump loop⟩, ⟨s, .label stop⟩], env)
  | .forRange s x start limit body => do
    let (ac, a) ← needValue func start (← lowerExpr func env start)
    let (zc, z) ← needValue func limit (← lowerExpr func env limit)
    let counter ← newReg
    let bound ← newReg
    let loop ← newLabel "loop"
    let stop ← newLabel "end"
    let test ← newReg
    let v ← newReg
    let body ← lowerBlock func ((x.text, v) :: env) body
    return (ac ++ zc ++ [⟨start.span, .assign counter a⟩, ⟨limit.span, .assign bound z⟩] ++
      countingLoop s loop stop counter bound test ⟨x.span, .assign v (.reg counter)⟩ body.code, env)
  | .forEach s x array body => do
    let (ac, a) ← needValue func array (← lowerExpr func env array)
    let ref ← newReg
    let bound ← newReg
    let counter ← newReg
    let loop ← newLabel "loop"
    let stop ← newLabel "end"
    let test ← newReg
    let v ← newReg
    let body ← lowerBlock func ((x.text, v) :: env) body
    return (ac ++ [⟨array.span, .assign ref a⟩, ⟨array.span, .unary bound (.known .len) (.reg ref)⟩,
        ⟨array.span, .assign counter (.lit (.int 0))⟩] ++
      countingLoop s loop stop counter bound test
        ⟨x.span, .index v (.reg ref) (.reg counter)⟩ body.code, env)
  | .expr x => do
    let l ← lowerExpr func env x
    return (l.code, env)

/-- The code of statements. -/
def lowerStmts (func : Bytes) (env : Env) (code : List Code) : List (Stmt α) → M (Code × Env)
  | [] => return (code.reverse.flatten, env)
  | s :: ss => do
    let (sc, env) ← lowerStmt func env s
    lowerStmts func env (sc :: code) ss

end

def lowerFunc (name : Bytes) (params : List Param) (body : Block α) :
    Except (Located LowerError) (List Func) := do
  let (l, st) ← (lowerBlock c name (paramEnv params) body).run (.start params.length)
  return assemble name params body.span l st

def lowerFuncs (done : List (List Func)) :
    List (FuncDecl α) → Except (Located LowerError) (List Func)
  | [] => .ok done.reverse.flatten
  | f :: fs => do
    let funcs ← lowerFunc c f.name.text f.params f.body
    lowerFuncs (funcs :: done) fs

end Lowering

/-- Why a program is not lowered. -/
inductive LowerFailure where
  | rejected (e : Located LowerError)
  /-- The code is not valid; no checked program leads here. -/
  | invalid (e : Located InvalidFunc)

def lowerWith {α : Type} (c : Lowering.Context α) (funcs : List (FuncDecl α)) :
    Except LowerFailure Program :=
  match Lowering.lowerFuncs c [] funcs with
  | .error e => .error (.rejected e)
  | .ok fs =>
    match Program.check ⟨fs⟩ with
    | .error e => .error (.invalid e)
    | .ok () => .ok ⟨fs⟩

/-- The three-address code of a checked program. -/
def lower (p : Package) : Except LowerFailure Program :=
  let funcs := p.program.funcs
  lowerWith ⟨id, p.defs, funcs.map fun f => f.name.text⟩ funcs

/-- The functions of which each is the last one with its name, in the places of the first ones. -/
def latestFuncs {α : Type} (done : List (FuncDecl α)) : List (FuncDecl α) → List (FuncDecl α)
  | [] => done
  | f :: fs =>
    if done.any fun g => g.name.text = f.name.text then
      latestFuncs (done.map fun g => if g.name.text = f.name.text then f else g) fs
    else latestFuncs (done ++ [f]) fs

/-- The code of a program that has not been checked: nothing is known of its expressions. -/
def lowerUnchecked {α : Type} (p : Minilang.Program α) : Except LowerFailure Program :=
  let funcs := latestFuncs [] p.funcs
  lowerWith ⟨fun _ => .blank, [], funcs.map fun f => f.name.text⟩ funcs

end Minilang.Tac
