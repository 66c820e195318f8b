import Minilang.Tree.Printer
import Minilang.Typing.Resolve

/-!
# Checking function bodies

The types of the expressions in a function's body.  A checked expression is the same expression with
its type in its note.

The result type of a function may be left out.  It is then the least type that the value of the body
and all returned values are assignable to, and a function that is called in the body has to be
checked first if its own result type is left out.  What is known of the functions so far is part of
the state of the check, and the check of a body is written for a given way to find out the result
type of another function.
-/

namespace Minilang.Typing

/-- A declared function with the types of its signature. -/
structure FuncInfo where
  decl : FuncDecl Unit
  params : List Ty
  result? : Option Ty

/-- The declarations. -/
structure Context where
  names : TypeNames
  defs : List TypeDef
  funcs : List FuncInfo

/-- The variables in sight. -/
abbrev Env := List (Bytes × Ty)

/-- A body that has been checked. -/
structure CheckedBody where
  result : Ty
  body : Block Note

/-- How far the check of a function has come. -/
inductive Status where
  | checking
  | checked (b : CheckedBody)

/-- How far the functions are checked. -/
abbrev Progress := List (Bytes × Status)

/-- The state of a check: the functions, and the return statements of the current body with the
types of their values, the latest first. -/
structure Walk where
  progress : Progress
  returns : List (Span × Ty)

/-- The check of a body. -/
abbrev M := StateT Walk Check

/-- Finds the result of a function. -/
abbrev Infer := FuncInfo → Progress → Check (Ty × Progress)

/-- The function that is checked. -/
structure Site where
  result? : Option Ty
  /-- The local variables around a function literal. -/
  outer : Env

def error {β : Type} (span : Span) (e : TypeError) : M β :=
  throw ⟨span, e⟩

/-! ### Names -/

/-- What a name stands for. -/
inductive Binding where
  | var (type : Ty)
  | func (f : FuncInfo)

variable (c : Context) (env : Env) (name : Bytes)

def Context.func? : Option FuncInfo :=
  c.funcs.find? fun f => f.decl.name.text = name

def Context.binding? : Option Binding :=
  match env.lookup name with
  | some t => some (.var t)
  | none => (c.func? name).map .func

def Context.def? : Option TypeDef :=
  TypeDef.find? c.defs name

def undefinedName (site : Site) (name : Bytes) : TypeError :=
  if (site.outer.lookup name).isSome then .captured name
  else if (Builtin.ofName? name).isSome then .uncalledBuiltin name
  else if (c.def? name).isSome then .typeAsValue name
  else .undefined name

/-- The type of a function.  A result type that is left out and not yet known is found out. -/
def funcType (infer : Infer) (ref : Span) (f : FuncInfo) : M Ty := do
  match f.result? with
  | some r => return .func f.params r
  | none =>
    let w ← get
    match w.progress.lookup f.decl.name.text with
    | some (.checked b) => return .func f.params b.result
    | some .checking => error ref (.recursiveFunc f.decl.name.text)
    | none =>
      let (r, progress) ← infer f w.progress
      set { w with progress := progress }
      return .func f.params r

def nameType (infer : Infer) (site : Site) (env : Env) (span : Span) (name : Bytes) : M Ty :=
  match c.binding? env name with
  | some (.var t) => return t
  | some (.func f) => funcType infer span f
  | none => error span (undefinedName c site name)

/-! ### Use of values -/

def useNote (target : Ty) (n : Note) : Note :=
  match n.type? with
  | some t => if Ty.assignable t target = .widened then n.widened else n
  | none => n

def useAs (target : Ty) (x : Expr Note) : Expr Note :=
  x.modifyNote (useNote target)

def coerce (context : Bytes) (target : Ty) (t : Ty) (x : Expr Note) : M (Expr Note) :=
  if Ty.assignable t target = .no then error x.span (.cannotUse x.text t target context)
  else return useAs target x

mutual

/-- The expression with its returned values as values of the given type.  Function literals have
returned values of their own. -/
def useReturns (target : Ty) : Expr Note → Expr Note
  | .lit s n v => .lit s n v
  | .var s n x => .var s n x
  | .binary s n op x y => .binary s n op (useReturns target x) (useReturns target y)
  | .unary s n op x => .unary s n op (useReturns target x)
  | .call s n c args => .call s n (useReturns target c) (useReturnsAll target args)
  | .cond s n c t e => .cond s n (useReturns target c) (useReturnsBlock target t)
      (match e with
        | none => none
        | some e => some (useReturns target e))
  | .block b => .block (useReturnsBlock target b)
  | .assign s n t v => .assign s n (useReturns target t) (useReturns target v)
  | .field s n x name => .field s n (useReturns target x) name
  | .array s n es => .array s n (useReturnsAll target es)
  | .index s n x i => .index s n (useReturns target x) (useReturns target i)
  | .lambda s n ps r b => .lambda s n ps r b
  | .struct s n t fs => .struct s n t (useReturnsFields target fs)

def useReturnsAll (target : Ty) : List (Expr Note) → List (Expr Note)
  | [] => []
  | x :: xs => useReturns target x :: useReturnsAll target xs

def useReturnsFields (target : Ty) : List (FieldValue Note) → List (FieldValue Note)
  | [] => []
  | .mk s n v :: fs => .mk s n (useReturns target v) :: useReturnsFields target fs

def useReturnsBlock (target : Ty) : Block Note → Block Note
  | .mk s n stmts value => .mk s n (useReturnsStmts target stmts)
      (match value with
        | none => none
        | some v => some (useReturns target v))

def useReturnsStmt (target : Ty) : Stmt Note → Stmt Note
  | .letVar s n t v => .letVar s n t (useReturns target v)
  | .ret s v => .ret s
      (match v with
        | none => none
        | some v => some (useAs target (useReturns target v)))
  | .loop s t b => .loop s (useReturns target t) (useReturnsBlock target b)
  | .forRange s n a z b =>
    .forRange s n (useReturns target a) (useReturns target z) (useReturnsBlock target b)
  | .forEach s n a b => .forEach s n (useReturns target a) (useReturnsBlock target b)
  | .expr x => .expr (useReturns target x)

def useReturnsStmts (target : Ty) : List (Stmt Note) → List (Stmt Note)
  | [] => []
  | s :: ss => useReturnsStmt target s :: useReturnsStmts target ss

end

/-! ### Rules -/

def literalType : Literal → Ty
  | .int _ => .int
  | .float _ => .float
  | .string _ => .string
  | .bool _ => .bool

def binaryType? (op : BinaryOp) (x y : Ty) : Option Ty :=
  match op with
  | .and | .or => if x = .bool ∧ y = .bool then some .bool else none
  | .eq | .ne => if x.comparable y then some .bool else none
  | .lt | .le | .gt | .ge => if x.isNumeric && y.isNumeric then some .bool else none
  | .add | .sub | .mul | .div | .mod =>
    if op = .add ∧ x = .string ∧ y = .string then some .string
    else if x.isNumeric && y.isNumeric then
      some (if x = .int ∧ y = .int then .int else .float)
    else none

def unaryType? : UnaryOp → Ty → Option Ty
  | .neg, t => if t.isNumeric then some t else none
  | .not, t => if t = .bool then some t else none

/-- The builtin function that a call calls, and the callee with its note.  Other functions and
variables hide the builtin ones. -/
def builtinCall? : Expr Unit → Option (Builtin × Expr Note)
  | .var s _ name =>
    match c.binding? env name with
    | some _ => none
    | none => (Builtin.ofName? name).map fun b => (b, .var s .blank name)
  | _ => none

def builtinType (b : Builtin) (arg : Expr Note) (t : Ty) : M Ty :=
  match b with
  | .print =>
    if t = .unit ∨ t = .never then error arg.span (.unprintable t) else return .unit
  | .len =>
    match t with
    | .array _ | .string => return .int
    | _ => error arg.span (.noLength arg.text t)

def variant? : Expr Unit → M (Option (Variant × Expr Note))
  | .field s _ (.var vs _ name) field =>
    match c.binding? env name with
    | some _ => return none
    | none =>
      match c.def? name with
      | none => return none
      | some d =>
        match d.body with
        | .enum variants =>
          match variants.find? fun v => v.name = field.text with
          | some v => return some (v, .field s .blank (.var vs .blank name) field)
          | none => error field.span (.unknownVariant d.name field.text)
        | _ => error s (.notAnEnum d.name)
  | _ => return none

/-- The type of the payload's component at a position, which has to be the same in every variant
that has it; `found` is that of the variants before. -/
def payloadType (enum : Bytes) (field : Name) (position : Int) (found : Option Ty) :
    List Variant → M Ty
  | [] =>
    match found with
    | some t => return t
    | none => error field.span (.noSuchPayload enum position)
  | v :: vs =>
    match v.payload[position.toNat]?, found with
    | none, _ => payloadType enum field position found vs
    | some t, none => payloadType enum field position (some t) vs
    | some t, some t' =>
      if t' = t then payloadType enum field position found vs
      else error field.span (.ambiguousPayload position enum t' t)

def fieldType (span : Span) (x : Expr Note) (t : Ty) (field : Name) : M Ty :=
  match t with
  | .named name =>
    match (c.def? name).map TypeDef.body with
    | some (.enum variants) =>
      match Decimal.readInt? field.text with
      | none => error field.span (.namedPayload name field.text)
      | some position => payloadType name field position none variants
    | some (.struct fields) =>
      match fields.lookup field.text with
      | some ft => return ft
      | none => error field.span (.noField x.text t field.text)
    | _ => error span (.noField x.text t field.text)
  | _ => error span (.noField x.text t field.text)

/-- The structure that a structure literal builds, given by its name or by an alias: its own name
and its fields. -/
def structOf (name : Name) : M (Bytes × List (Bytes × Ty)) :=
  match c.def? name.text with
  | none => error name.span (.undefinedType name.text)
  | some d =>
    let target := match d.body with
      | .alias (.named n) => c.def? n
      | _ => some d
    match target with
    | some ⟨n, .struct fields⟩ => return (n, fields)
    | _ => error name.span (.notAStruct name.text)

def signature (names : TypeNames) (params : List Param) (result : Option TypeExpr) :
    Check (List Ty × Option Ty) := do
  let ps ← go [] [] params
  match result with
  | none => return (ps, none)
  | some r => return (ps, some (← resolve names r))
where
  /-- The types of the parameters after those that have been seen. -/
  go (seen : List Bytes) (done : List Ty) : List Param → Check (List Ty)
    | [] => .ok done.reverse
    | p :: ps => do
      if p.name.text ∈ seen then throw ⟨p.name.span, .duplicateParam p.name.text⟩
      let t ← resolve names p.type
      go (p.name.text :: seen) (t :: done) ps

def paramEnv (params : List Param) (types : List Ty) : Env :=
  (params.zip types).foldl (fun env (p, t) => (p.name.text, t) :: env) []

/-- The least type that the type of a body and those of the returned values are assignable to. -/
def joinReturns (t : Ty) : List (Span × Ty) → M Ty
  | [] => return t
  | (span, r) :: rest =>
    match Ty.join? t r with
    | some j => joinReturns j rest
    | none => error span (.cannotReturn r t)

/-- The result type of a function whose body has been checked, and the body as a value of it.  An
inferred result type is wide enough for every returned value. -/
def conclude (result? : Option Ty) (t : Ty) (body : Block Note) : M (Ty × Block Note) := do
  let usedAs (r : Ty) : M (Block Note) :=
    if Ty.assignable t r = .no then
      error body.span (.cannotUse body.text t r "function result")
    else return body.modifyNote (useNote r)
  match result? with
  | some .unit => return (.unit, body)
  | some r => return (r, ← usedAs r)
  | none =>
    let joined ← joinReturns t (← get).returns.reverse
    let r := if joined = .never then .unit else joined
    return (r, useReturnsBlock r (← usedAs r))

/-- A check of the body of a function literal, which has return statements of its own. -/
def withOwnReturns {β : Type} (m : M β) : M β := do
  let before := (← get).returns
  modify fun w => { w with returns := [] }
  let r ← m
  modify fun w => { w with returns := before }
  return r

/-- A field of a value, or a variant without a payload; `x` is the value and `checked` its check. -/
def selectField (s : Span) (x : Expr Unit) (name : Name)
    (checked : M (Ty × Expr Note)) : M (Ty × Expr Note) := do
  match ← variant? c env (.field s () x name) with
  | some (v, named) =>
    if v.payload.isEmpty then
      let t := Ty.named v.enum
      return (t, named.modifyNote fun _ => ⟨some t, false, .variant v⟩)
    else error s (.missingPayload v.recordName v.payload.length)
  | none =>
    let (xt, x) ← checked
    let t ← fieldType c s x xt name
    return (t, .field s (.ofType t) x name)

def indexArray (s : Span) (array index : M (Ty × Expr Note)) : M (Ty × Expr Note) := do
  let (xt, x) ← array
  match xt with
  | .array elem =>
    let (it, i) ← index
    if it = .int then return (elem, .index s (.ofType elem) x i)
    else error i.span (.badIndex i.text it)
  | _ => error s (.notIndexable x.text xt)

def argumentOf : Bytes :=
  Bytes.concat ["argument to ", name]

def requireCount (s : Span) (name : Bytes) (args params : Nat) : M Unit :=
  if args = params then return () else error s (.argumentCount name args params)

/-! ### Expressions and statements -/

variable (c : Context) (infer : Infer)

mutual

/-- The type of an expression, and the expression with notes. -/
def checkExpr (site : Site) (env : Env) : Expr Unit → M (Ty × Expr Note)
  | .lit s _ v => return (literalType v, .lit s (.ofType (literalType v)) v)
  | .var s _ name => do
    let t ← nameType c infer site env s name
    return (t, .var s (.ofType t) name)
  | .binary s _ op x y => do
    let (xt, x) ← checkExpr site env x
    let (yt, y) ← checkExpr site env y
    match binaryType? op xt yt with
    | some t => return (t, .binary s (.ofType t) op x y)
    | none => error s (.binaryMismatch op xt yt)
  | .unary s _ op x => do
    let (xt, x) ← checkExpr site env x
    match unaryType? op xt with
    | some t => return (t, .unary s (.ofType t) op x)
    | none => error s (.unaryMismatch op xt)
  | .call s _ callee args => do
    match builtinCall? c env callee with
    | some (b, callee) =>
      match args with
      | [arg] => do
        let (at', arg) ← checkExpr site env arg
        let t ← builtinType b arg at'
        return (t, .call s ⟨some t, false, .builtin b⟩ callee [arg])
      | _ => error s (.argumentCount b.text args.length 1)
    | none =>
      match ← variant? c env callee with
      | some (v, callee) =>
        if v.payload.isEmpty then error s (.noPayload v.recordName)
        else
          requireCount s v.recordName args.length v.payload.length
          let args ← checkEach site env (argumentOf v.recordName) [] v.payload args
          let t := Ty.named v.enum
          return (t, .call s ⟨some t, false, .variant v⟩ callee args)
      | none =>
        let (ct, callee) ← checkExpr site env callee
        match ct with
        | .func params result =>
          requireCount s callee.text args.length params.length
          let args ← checkEach site env (argumentOf callee.text) [] params args
          return (result, .call s (.ofType result) callee args)
        | _ => error callee.span (.notCallable callee.text ct)
  | .cond s _ test t e => do
    let (ct, test) ← checkExpr site env test
    if ct ≠ .bool then error test.span (.nonBoolean test.text ct "if expression")
    else
      let (tt, t) ← checkBlock site env t
      match e with
      | none => return (.unit, .cond s (.ofType .unit) test t none)
      | some e => do
        let (et, e) ← checkExpr site env e
        match Ty.join? tt et with
        | none => error s (.branchMismatch tt et)
        | some j =>
          return (j, .cond s (.ofType j) test (t.modifyNote (useNote j)) (some (useAs j e)))
  | .block b => do
    let (t, b) ← checkBlock site env b
    return (t, .block b)
  | .assign s _ target value => do
    let (t, target) ← checkTarget site env target
    let (vt, value) ← checkExpr site env value
    let value ← coerce (Bytes.concat ["assignment to ", target.text]) t vt value
    return (.unit, .assign s (.ofType .unit) target value)
  | .field s _ x name => selectField c env s x name (checkExpr site env x)
  | .array s _ elems => do
    let (t, elems) ← checkElems site env .never [] elems
    return (.array t, .array s (.ofType (.array t)) (elems.map (useAs t)))
  | .index s _ x i => indexArray s (checkExpr site env x) (checkExpr site env i)
  | .lambda s _ params result body => do
    let (ps, result?) ← signature c.names params result
    let (r, body) ← withOwnReturns do
      let (t, body) ← checkBlock ⟨result?, env⟩ (paramEnv params ps) body
      conclude result? t body
    let t := Ty.func ps r
    return (t, .lambda s (.ofType t) params result body)
  | .struct s _ type fields => do
    let (name, declared) ← structOf c type
    let fields ← checkFields site env name declared [] [] fields
    let set := fields.map fun | .mk _ n _ => n.text
    match declared.find? fun f => f.1 ∉ set with
    | some (f, _) => error s (.missingFieldValue f name)
    | none => return (.named name, .struct s (.ofType (.named name)) type fields)

def checkTarget (site : Site) (env : Env) : Expr Unit → M (Ty × Expr Note)
  | .var s _ name =>
    match c.binding? env name with
    | some (.var t) => return (t, .var s (.ofType t) name)
    | some (.func _) => error s (.assignToFunc name)
    | none => error s (undefinedName c site name)
  | .field s _ x name => do
    let (t, target) ← selectField c env s x name (checkExpr site env x)
    match target.note.role with
    | .variant _ => error s (.notAssignable target.text)
    | _ => return (t, target)
  | .index s _ x i => indexArray s (checkExpr site env x) (checkExpr site env i)
  | x => error x.span (.notAssignable x.text)

def checkEach (site : Site) (env : Env) (context : Bytes) (done : List (Expr Note)) :
    List Ty → List (Expr Unit) → M (List (Expr Note))
  | p :: ps, x :: xs => do
    let (t, x) ← checkExpr site env x
    let x ← coerce context p t x
    checkEach site env context (x :: done) ps xs
  | _, _ => return done.reverse

/-- The elements of an array literal, after those in `done` with their common type `elem`. -/
def checkElems (site : Site) (env : Env) (elem : Ty) (done : List (Expr Note)) :
    List (Expr Unit) → M (Ty × List (Expr Note))
  | [] => return (elem, done.reverse)
  | x :: xs => do
    let (t, x) ← checkExpr site env x
    match Ty.join? elem t with
    | none => error x.span (.cannotUse x.text t elem "array literal")
    | some j => checkElems site env j (x :: done) xs

/-- The field values of a structure literal, after those in `done` with the names in `set`. -/
def checkFields (site : Site) (env : Env) (struct : Bytes) (declared : List (Bytes × Ty))
    (set : List Bytes) (done : List (FieldValue Note)) :
    List (FieldValue Unit) → M (List (FieldValue Note))
  | [] => return done.reverse
  | .mk s name value :: fs => do
    match declared.lookup name.text with
    | none => error name.span (.unknownFieldValue name.text struct)
    | some ft =>
      if name.text ∈ set then error name.span (.duplicateFieldValue name.text struct)
      else
        let (t, value) ← checkExpr site env value
        let value ← coerce (Bytes.concat ["field ", name.text]) ft t value
        checkFields site env struct declared (name.text :: set) (.mk s name value :: done) fs

/-- The type of a block, and the block with notes. -/
def checkBlock (site : Site) (env : Env) : Block Unit → M (Ty × Block Note)
  | .mk s _ stmts value => do
    let (env, diverges, stmts) ← checkStmts site env false [] stmts
    match value with
    | some v => do
      let (t, v) ← checkExpr site env v
      return (t, .mk s (.ofType t) stmts (some v))
    | none =>
      let t := if diverges then Ty.never else .unit
      return (t, .mk s (.ofType t) stmts none)

/-- The variables in sight after a statement, whether the statement ends the block early, and the
statement with its notes. -/
def checkStmt (site : Site) (env : Env) : Stmt Unit → M (Env × Bool × Stmt Note)
  | .letVar s name type value => do
    let (vt, value) ← checkExpr site env value
    let (t, value) ← match type with
      | none => pure (vt, value)
      | some type => do
        let t ← resolve c.names type
        let value ← coerce (Bytes.concat ["assignment to ", name.text]) t vt value
        pure (t, value)
    if t = .unit ∨ t = .never then error value.span (.usedAsValue value.text t)
    else if t.isEmptyArray then error s (.cannotInfer name.text)
    else return ((name.text, t) :: env, false, .letVar s name type value)
  | .ret s value => do
    match value with
    | none =>
      match site.result? with
      | none =>
        modify fun w => { w with returns := (s, .unit) :: w.returns }
        return (env, true, .ret s none)
      | some r =>
        if r = .unit then return (env, true, .ret s none) else error s (.notEnoughResults r)
    | some v => do
      let (t, v) ← checkExpr site env v
      match site.result? with
      | none =>
        modify fun w => { w with returns := (s, t) :: w.returns }
        return (env, true, .ret s (some v))
      | some r => return (env, true, .ret s (some (← coerce "return statement" r t v)))
  | .loop s test body => do
    let (t, test) ← checkExpr site env test
    if t ≠ .bool then error test.span (.nonBoolean test.text t "while statement")
    else
      let (_, body) ← checkBlock site env body
      return (env, false, .loop s test body)
  | .forRange s name start stop body => do
    let (st, start) ← checkExpr site env start
    let (et, stop) ← checkExpr site env stop
    if st = .int ∧ et = .int then
      let (_, body) ← checkBlock site ((name.text, .int) :: env) body
      return (env, false, .forRange s name start stop body)
    else error s (.rangeBounds st et)
  | .forEach s name array body => do
    let (t, array) ← checkExpr site env array
    match t with
    | .array elem =>
      let (_, body) ← checkBlock site ((name.text, elem) :: env) body
      return (env, false, .forEach s name array body)
    | _ => error array.span (.notIterable array.text t)
  | .expr x => do
    let (t, x) ← checkExpr site env x
    return (env, t = .never, .expr x)

/-- Statements after those in `done`, the last of which ends the block early if `diverges`. -/
def checkStmts (site : Site) (env : Env) (diverges : Bool) (done : List (Stmt Note)) :
    List (Stmt Unit) → M (Env × Bool × List (Stmt Note))
  | [] => return (env, diverges, done.reverse)
  | s :: ss => do
    let (env, diverges, s) ← checkStmt site env s
    checkStmts site env diverges (s :: done) ss

end

end Minilang.Typing
