import Minilang.Proofs.Typing.Checks

/-!
# Checks in lockstep

Two checks of one body take the same steps if the declarations of their programs have the same names
and if they find out the same about the functions that the body uses.  What "the same" means is left
open: any relation between checks that holds of their single steps, and goes from the parts of a
check to the whole, holds of the checks of a body (`Lockstep.body`).
-/

namespace Minilang.Typing

open List

/-! ### Declarations that cannot be told apart -/

variable {names names' : TypeNames} {c c' : Context} {Γ : Env} {x : Expr Unit}

lemma signatureGo_congr (h : ∀ t, resolve names t = resolve names' t) (seen : List Bytes)
    (done : List Ty) (params : List Param) :
    signature.go names seen done params = signature.go names' seen done params := by
  induction params generalizing seen done with
  | nil => rfl
  | cons p params ih => simp [signature.go, h, ih]

lemma signature_congr (h : ∀ t, resolve names t = resolve names' t) (params : List Param)
    (result : Option TypeExpr) :
    signature names params result = signature names' params result := by
  unfold signature
  rw [signatureGo_congr h]
  cases result with
  | none => rfl
  | some r => simp [h]

/-- The names of two programs stand for the same types and functions. -/
structure Context.Alike (c c' : Context) : Prop where
  types : ∀ t, resolve c.names t = resolve c'.names t
  defs : ∀ name, c.def? name = c'.def? name
  funcs : ∀ name, c.func? name = c'.func? name

namespace Context.Alike

variable (h : c.Alike c')
include h

lemma binding? (name : Bytes) : c.binding? Γ name = c'.binding? Γ name := by
  unfold Context.binding?
  rw [h.funcs]

lemma undefinedName (site : Site) (name : Bytes) :
    undefinedName c site name = undefinedName c' site name := by
  unfold Typing.undefinedName
  rw [h.defs]

lemma builtinCall? : builtinCall? c Γ x = builtinCall? c' Γ x := by
  unfold Typing.builtinCall?
  simp [h.binding?]

lemma variant? : variant? c Γ x = variant? c' Γ x := by
  unfold Typing.variant?
  simp [h.binding?, h.defs]

lemma fieldType (s : Span) (y : Expr Note) (t : Ty) (name : Name) :
    fieldType c s y t name = fieldType c' s y t name := by
  unfold Typing.fieldType
  simp [h.defs]

lemma structOf (name : Name) : structOf c name = structOf c' name := by
  unfold Typing.structOf
  simp [h.defs]

end Context.Alike

/-! ### Relations between checks -/

/-- The check of the body of a function. -/
def checkBody (c : Context) (infer : Infer) (f : FuncInfo) : M (Ty × Block Note) := do
  let (t, body) ← checkBlock c infer ⟨f.result?, []⟩ (paramEnv f.decl.params f.params) f.decl.body
  conclude f.result? t body

lemma checkFunc_succ (c : Context) (depth : Nat) (f : FuncInfo) (p : Progress) :
    checkFunc c (depth + 1) f p = (do
      let ((r, body), w) ← (checkBody c (checkFunc c depth) f).run ⟨(f.name, .checking) :: p, []⟩
      return (r, (f.name, .checked ⟨r, body⟩) :: w.progress)) :=
  rfl

/-- A relation between checks that holds of their steps: those that do not look at the state, those
that look at the returned values, and the ones that find out the type of a function. -/
structure Lockstep (c c' : Context) (infer infer' : Infer)
    (rel : ∀ β : Type, M β → M β → Prop) : Prop where
  alike : c.Alike c'
  pure : ∀ {β : Type} (a : β), rel β (pure a) (pure a)
  error : ∀ {β : Type} (s : Span) (e : TypeError), rel β (error s e) (error s e)
  bind : ∀ {β γ : Type} {m m' : M β} {f f' : β → M γ}, rel β m m' → (∀ a, rel γ (f a) (f' a)) →
    rel γ (m >>= f) (m' >>= f')
  getReturns : ∀ {β : Type} {f f' : List (Span × Ty) → M β}, (∀ rs, rel β (f rs) (f' rs)) →
    rel β (get >>= fun w => f w.returns) (get >>= fun w => f' w.returns)
  modifyReturns : ∀ g : List (Span × Ty) → List (Span × Ty),
    rel PUnit (modify fun w => { w with returns := g w.returns })
      (modify fun w => { w with returns := g w.returns })
  func : ∀ {ref : Span} {f : FuncInfo}, c.func? f.name = some f →
    rel Ty (funcType infer ref f) (funcType infer' ref f)

namespace Lockstep

variable {infer infer' : Infer} {rel : ∀ β : Type, M β → M β → Prop}
  (L : Lockstep c c' infer infer' rel) {β : Type} {site : Site}

/-- A check goes the same way for both programs. -/
abbrev Same (_ : Lockstep c c' infer infer' rel) (m : M β) : Prop :=
  rel β m m

/-- The relation between the two checks of an expression. -/
abbrev SameExpr (_ : Lockstep c c' infer infer' rel) (site : Site) (Γ : Env) (x : Expr Unit) :
    Prop :=
  rel _ (checkExpr c infer site Γ x) (checkExpr c' infer' site Γ x)

/-- The relation between the two checks of a block. -/
abbrev SameBlock (_ : Lockstep c c' infer infer' rel) (site : Site) (Γ : Env) (b : Block Unit) :
    Prop :=
  rel _ (checkBlock c infer site Γ b) (checkBlock c' infer' site Γ b)

/-- The relation between the two checks of a statement. -/
abbrev SameStmt (_ : Lockstep c c' infer infer' rel) (site : Site) (Γ : Env) (z : Stmt Unit) :
    Prop :=
  rel _ (checkStmt c infer site Γ z) (checkStmt c' infer' site Γ z)

include L

/-! ### Steps that do not look at the state -/

lemma lift (m : Check β) : L.Same (liftM m) := by
  cases m with
  | ok a => exact L.pure a
  | error e => exact L.error e.span e.val

lemma coerce (context : Bytes) (target t : Ty) (x : Expr Note) :
    L.Same (coerce context target t x) := by
  unfold Typing.coerce
  split <;> simp [L.pure, L.error]

lemma builtinType (b : Builtin) (arg : Expr Note) (t : Ty) : L.Same (builtinType b arg t) := by
  unfold Typing.builtinType
  repeat' split
  all_goals simp [L.pure, L.error]

lemma requireCount (s : Span) (name : Bytes) (args params : Nat) :
    L.Same (requireCount s name args params) := by
  unfold Typing.requireCount
  split <;> simp [L.pure, L.error]

lemma variant? (x : Expr Unit) : rel _ (variant? c Γ x) (variant? c' Γ x) := by
  rw [L.alike.variant?]
  unfold Typing.variant?
  repeat' split
  all_goals simp [L.pure, L.error]

lemma payloadType (enum : Bytes) (field : Name) (position : Int) (found : Option Ty)
    (vs : List Variant) : L.Same (payloadType enum field position found vs) := by
  induction vs generalizing found with
  | nil =>
    cases found with
    | none => exact L.error _ _
    | some t => exact L.pure t
  | cons v vs ih =>
    unfold Typing.payloadType
    repeat' split
    all_goals first | exact ih _ | exact L.error _ _

lemma fieldType (s : Span) (x : Expr Note) (t : Ty) (name : Name) :
    rel _ (fieldType c s x t name) (fieldType c' s x t name) := by
  rw [L.alike.fieldType]
  unfold Typing.fieldType
  repeat' split
  all_goals first | exact L.pure _ | exact L.error _ _ | exact L.payloadType _ _ _ _ _

lemma structOf (name : Name) : rel _ (structOf c name) (structOf c' name) := by
  rw [L.alike.structOf]
  unfold Typing.structOf
  dsimp only
  repeat' split
  all_goals simp [L.pure, L.error]

lemma joinReturns (t : Ty) (rs : List (Span × Ty)) : L.Same (joinReturns t rs) := by
  induction rs generalizing t with
  | nil => exact L.pure t
  | cons r rs ih =>
    rw [Typing.joinReturns]
    split
    · exact ih _
    · exact L.error _ _

/-! ### Names and results -/

lemma nameType (s : Span) (name : Bytes) :
    rel _ (nameType c infer site Γ s name) (nameType c' infer' site Γ s name) := by
  unfold Typing.nameType
  rw [← L.alike.binding?, ← L.alike.undefinedName]
  split
  · exact L.pure _
  · rename_i f hf
    refine L.func ?_
    unfold Context.binding? at hf
    split at hf
    · cases hf
    · obtain ⟨g, hg, hfg⟩ := Option.map_eq_some_iff.mp hf
      cases hfg
      rwa [Context.func?_name hg]
  · exact L.error _ _

lemma conclude (result? : Option Ty) (t : Ty) (body : Block Note) :
    L.Same (conclude result? t body) := by
  let used (r : Ty) : M (Block Note) :=
    if Ty.assignable t r = .no then
      Typing.error body.span (.cannotUse body.text t r "function result")
    else return body.modifyNote (useNote r)
  have hused : ∀ r, L.Same (used r) := by
    intro r
    dsimp only [used]
    split <;> simp [L.pure, L.error]
  have hjoined : ∀ rs : List (Span × Ty), L.Same
      (Typing.joinReturns t rs.reverse >>= fun joined => do
        let r := if joined = .never then .unit else joined
        return (r, useReturnsBlock r (← used r))) := by
    intro rs
    exact L.bind (L.joinReturns t _) fun _ => L.bind (hused _) fun _ => L.pure _
  unfold Typing.conclude
  split
  · exact L.pure _
  · exact L.bind (hused _) fun _ => L.pure _
  · exact L.getReturns hjoined

lemma withOwnReturns {m m' : M β} (h : rel β m m') :
    rel β (withOwnReturns m) (withOwnReturns m') := by
  have hown : ∀ rs, rel β
      (do modify (fun w : Walk => { w with returns := [] })
          let r ← m
          modify (fun w : Walk => { w with returns := rs })
          return r)
      (do modify (fun w : Walk => { w with returns := [] })
          let r ← m'
          modify (fun w : Walk => { w with returns := rs })
          return r) := by
    intro rs
    exact L.bind (L.modifyReturns fun _ => []) fun _ => L.bind h fun _ =>
      L.bind (L.modifyReturns fun _ => rs) fun _ => L.pure _
  exact L.getReturns hown

/-! ### Expressions and statements -/

variable {s : Span} {name : Name}

lemma selectField {m m' : M (Ty × Expr Note)} (h : rel _ m m') :
    rel _ (selectField c Γ s x name m) (selectField c' Γ s x name m') := by
  refine L.bind (L.variant? _) fun v? => ?_
  split
  · split
    · exact L.pure _
    · exact L.error _ _
  · exact L.bind h fun _ => L.bind (L.fieldType _ _ _ _) fun _ => L.pure _

lemma indexArray {array array' index index' : M (Ty × Expr Note)} (harray : rel _ array array')
    (hindex : rel _ index index') :
    rel _ (indexArray s array index) (indexArray s array' index') := by
  refine L.bind harray ?_
  rintro ⟨_, _⟩
  dsimp only
  split
  · refine L.bind hindex ?_
    rintro ⟨_, _⟩
    split
    · exact L.pure _
    · exact L.error _ _
  · exact L.error _ _

/-! ### Expressions -/

section Rules

variable {y : Expr Unit} {xs : List (Expr Unit)} {b : Block Unit} {n : Unit}
  {fs : List (FieldValue Unit)}

section

variable (hx : L.SameExpr site Γ x)

include hx

lemma binary {op : BinaryOp} (hy : L.SameExpr site Γ y) :
    L.SameExpr site Γ (.binary s n op x y) := by
  refine L.bind hx ?_
  rintro ⟨_, _⟩
  refine L.bind hy ?_
  rintro ⟨_, _⟩
  dsimp only
  split <;> simp [L.pure, L.error]

lemma unary {op : UnaryOp} : L.SameExpr site Γ (.unary s n op x) := by
  refine L.bind hx ?_
  rintro ⟨_, _⟩
  dsimp only
  split <;> simp [L.pure, L.error]

section

variable (hxs : ∀ x ∈ xs, L.SameExpr site Γ x)

include hxs

omit hx in
lemma each (context : Bytes) (done : List (Expr Note)) (ps : List Ty) :
    rel _ (checkEach c infer site Γ context done ps xs)
      (checkEach c' infer' site Γ context done ps xs) := by
  induction xs generalizing done ps with
  | nil => cases ps <;> exact L.pure _
  | cons x xs ih =>
    cases ps with
    | nil => exact L.pure _
    | cons p ps =>
      exact L.bind (hxs x mem_cons_self) fun _ => L.bind (L.coerce _ _ _ _) fun _ =>
        ih (fun z hz => hxs z (mem_cons_of_mem x hz)) _ _

omit hx in
lemma elems (elem : Ty) (done : List (Expr Note)) :
    rel _ (checkElems c infer site Γ elem done xs) (checkElems c' infer' site Γ elem done xs) := by
  induction xs generalizing elem done with
  | nil => exact L.pure _
  | cons x xs ih =>
    refine L.bind (hxs x mem_cons_self) ?_
    rintro ⟨_, _⟩
    dsimp only
    split
    · exact L.error _ _
    · exact ih (fun z hz => hxs z (mem_cons_of_mem x hz)) _ _

omit hxs in
omit hx in
lemma fields (hfs : ∀ s name x, .mk s name x ∈ fs → L.SameExpr site Γ x) (struct : Bytes)
    (declared : List (Bytes × Ty)) (set : List Bytes) (done : List (FieldValue Note)) :
    rel _ (checkFields c infer site Γ struct declared set done fs)
      (checkFields c' infer' site Γ struct declared set done fs) := by
  induction fs generalizing set done with
  | nil => exact L.pure _
  | cons f fs ih =>
    obtain ⟨s, name, x⟩ := f
    rw [checkFields, checkFields]
    split
    · exact L.error _ _
    · split
      · exact L.error _ _
      · exact L.bind (hfs s name x mem_cons_self) fun _ => L.bind (L.coerce _ _ _ _) fun _ =>
          ih (fun s name z hz => hfs s name z (mem_cons_of_mem _ hz)) _ _

lemma call : L.SameExpr site Γ (.call s n x xs) := by
  rw [SameExpr, checkExpr, checkExpr, L.alike.builtinCall?]
  split
  · split
    · exact L.bind (hxs _ mem_cons_self) fun _ => L.bind (L.builtinType _ _ _) fun _ => L.pure _
    · exact L.error _ _
  · refine L.bind (L.variant? _) fun v? => ?_
    split
    · split
      · exact L.error _ _
      · exact L.bind (L.requireCount _ _ _ _) fun _ => L.bind (L.each hxs _ _ _) fun _ => L.pure _
    · refine L.bind hx ?_
      rintro ⟨_, _⟩
      dsimp only
      split
      · exact L.bind (L.requireCount _ _ _ _) fun _ => L.bind (L.each hxs _ _ _) fun _ => L.pure _
      · exact L.error _ _

end

lemma cond {e : Option (Expr Unit)} (hb : L.SameBlock site Γ b)
    (he : ∀ y, e = some y → L.SameExpr site Γ y) : L.SameExpr site Γ (.cond s n x b e) := by
  rw [SameExpr, checkExpr, checkExpr]
  refine L.bind hx ?_
  rintro ⟨_, _⟩
  dsimp only
  split
  · exact L.error _ _
  · refine L.bind hb ?_
    rintro ⟨_, _⟩
    cases e with
    | none => exact L.pure _
    | some y =>
      refine L.bind (he y rfl) ?_
      rintro ⟨_, _⟩
      split
      · exact L.error _ _
      · exact L.pure _

omit hx in
lemma lambda {params : List Param} {result : Option TypeExpr}
    (hb : ∀ site Γ, L.SameBlock site Γ b) : L.SameExpr site Γ (.lambda s n params result b) := by
  rw [SameExpr, checkExpr, signature_congr L.alike.types]
  exact L.bind (L.lift _) fun _ => L.bind
    (L.withOwnReturns (L.bind (hb _ _) fun _ => L.conclude _ _ _)) fun _ => L.pure _

omit hx in
lemma struct {type : Name} (hfs : ∀ s name x, .mk s name x ∈ fs → L.SameExpr site Γ x) :
    L.SameExpr site Γ (.struct s n type fs) := by
  refine L.bind (L.structOf _) fun _ => L.bind (L.fields hfs _ _ _ _) fun _ => ?_
  dsimp only
  split <;> simp [L.pure, L.error]

/-! ### Targets -/

omit hx in
lemma targetVar {name : Bytes} : rel _ (checkTarget c infer site Γ (.var s n name))
      (checkTarget c' infer' site Γ (.var s n name)) := by
  rw [checkTarget, checkTarget, L.alike.binding?, L.alike.undefinedName]
  split <;> simp [L.pure, L.error]

lemma targetField :
    rel _ (checkTarget c infer site Γ (.field s n x name))
      (checkTarget c' infer' site Γ (.field s n x name)) := by
  refine L.bind (L.selectField hx) ?_
  rintro ⟨_, _⟩
  dsimp only
  split <;> simp [L.pure, L.error]

/-! ### Statements -/

omit hx in
lemma declare (s : Span) (name : Name) (type : Option TypeExpr) (t : Ty) (value : Expr Note) :
    L.Same (β := Env × Bool × Stmt Note)
      (if t = .unit ∨ t = .never then Typing.error value.span (.usedAsValue value.text t)
      else if t.isEmptyArray then Typing.error s (.cannotInfer name.text)
      else return ((name.text, t) :: Γ, false, .letVar s name type value)) := by
  repeat' split
  all_goals simp [L.pure, L.error]

lemma letVar {type : Option TypeExpr} : L.SameStmt site Γ (.letVar s name type x) := by
  refine L.bind hx ?_
  rintro ⟨t, v⟩
  cases type with
  | none => exact L.declare s name none t v
  | some type =>
    simp only [L.alike.types]
    exact L.bind (L.lift _) fun _ => L.bind (L.coerce _ _ _ _) fun _ => L.declare s name _ _ _

omit hx in
lemma retNone : L.SameStmt site Γ (.ret s none) := by
  rw [SameStmt, checkStmt, checkStmt]
  split
  · exact L.bind (L.modifyReturns fun rs => (s, .unit) :: rs) fun _ => L.pure _
  · split
    · exact L.pure _
    · exact L.error _ _

lemma ret : L.SameStmt site Γ (.ret s (some x)) := by
  refine L.bind hx ?_
  rintro ⟨t, v⟩
  dsimp only
  split
  · exact L.bind (L.modifyReturns fun rs => (s, t) :: rs) fun _ => L.pure _
  · exact L.bind (L.coerce _ _ _ _) fun _ => L.pure _

lemma loop (hb : L.SameBlock site Γ b) : L.SameStmt site Γ (.loop s x b) := by
  refine L.bind hx ?_
  rintro ⟨_, _⟩
  dsimp only
  split
  · exact L.error _ _
  · exact L.bind hb fun _ => L.pure _

lemma forRange (hy : L.SameExpr site Γ y) (hb : ∀ Γ, L.SameBlock site Γ b) :
    L.SameStmt site Γ (.forRange s name x y b) := by
  refine L.bind hx ?_
  rintro ⟨_, _⟩
  refine L.bind hy ?_
  rintro ⟨_, _⟩
  dsimp only
  split
  · exact L.bind (hb _) fun _ => L.pure _
  · exact L.error _ _

lemma forEach (hb : ∀ Γ, L.SameBlock site Γ b) : L.SameStmt site Γ (.forEach s name x b) := by
  refine L.bind hx ?_
  rintro ⟨_, _⟩
  dsimp only
  split
  · exact L.bind (hb _) fun _ => L.pure _
  · exact L.error _ _

end

lemma stmts {ss : List (Stmt Unit)} (hss : ∀ z ∈ ss, ∀ Γ, L.SameStmt site Γ z)
    (Γ : Env) (diverges : Bool) (done : List (Stmt Note)) :
    rel _ (checkStmts c infer site Γ diverges done ss)
      (checkStmts c' infer' site Γ diverges done ss) := by
  induction ss generalizing Γ diverges done with
  | nil => exact L.pure _
  | cons z ss ih =>
    exact L.bind (hss z mem_cons_self Γ) fun _ =>
      ih (fun z' hz' => hss z' (mem_cons_of_mem z hz')) _ _ _

end Rules

-- One case for each kind of node: the rule of the same name applies to what holds of the parts.
mutual

theorem expr (site : Site) (Γ : Env) :
    ∀ x : Expr Unit, L.SameExpr site Γ x
  | .lit _ _ _ => L.pure _
  | .var _ _ _ => L.bind (L.nameType _ _) fun _ => L.pure _
  | .binary _ _ _ x y => L.binary (expr site Γ x) (expr site Γ y)
  | .unary _ _ _ x => L.unary (expr site Γ x)
  | .call _ _ x xs => L.call (expr site Γ x) (exprs site Γ xs)
  | .cond _ _ x b none => L.cond (expr site Γ x) (block site Γ b) nofun
  | .cond _ _ x b (some y) => L.cond (expr site Γ x) (block site Γ b) fun _ hy =>
      Option.some.inj hy ▸ expr site Γ y
  | .block b => L.bind (block site Γ b) fun _ => L.pure _
  | .assign _ _ x y => L.bind (target site Γ x) fun _ => L.bind (expr site Γ y) fun _ =>
      L.bind (L.coerce _ _ _ _) fun _ => L.pure _
  | .field _ _ x _ => L.selectField (expr site Γ x)
  | .array _ _ xs => L.bind (L.elems (exprs site Γ xs) _ _) fun _ => L.pure _
  | .index _ _ x i => L.indexArray (expr site Γ x) (expr site Γ i)
  | .lambda _ _ _ _ b => L.lambda fun site Γ => block site Γ b
  | .struct _ _ _ fs => L.struct (fieldValues site Γ fs)

theorem target (site : Site) (Γ : Env) : ∀ x : Expr Unit,
    rel _ (checkTarget c infer site Γ x) (checkTarget c' infer' site Γ x)
  | .var _ _ _ => L.targetVar
  | .field _ _ x _ => L.targetField (expr site Γ x)
  | .index _ _ x i => L.indexArray (expr site Γ x) (expr site Γ i)
  | .lit _ _ _ | .binary _ _ _ _ _ | .unary _ _ _ _ | .call _ _ _ _ | .cond _ _ _ _ _ | .block _
  | .assign _ _ _ _ | .array _ _ _ | .lambda _ _ _ _ _ | .struct _ _ _ _ => L.error _ _

theorem exprs (site : Site) (Γ : Env) :
    ∀ xs : List (Expr Unit), ∀ x ∈ xs,
      L.SameExpr site Γ x
  | [], _, hx => nomatch hx
  | x :: _, _, .head _ => expr site Γ x
  | _ :: xs, x, .tail _ hx => exprs site Γ xs x hx

theorem fieldValues (site : Site) (Γ : Env) :
    ∀ fs : List (FieldValue Unit), ∀ s name x, .mk s name x ∈ fs →
      L.SameExpr site Γ x
  | [], _, _, _, hf => nomatch hf
  | .mk _ _ x :: _, _, _, _, .head _ => expr site Γ x
  | _ :: fs, s, name, x, .tail _ hf => fieldValues site Γ fs s name x hf

theorem block (site : Site) (Γ : Env) : ∀ b : Block Unit,
    L.SameBlock site Γ b
  | .mk _ _ ss none => L.bind (L.stmts (eachStmt site ss) _ _ _) fun _ => L.pure _
  | .mk _ _ ss (some x) => L.bind (L.stmts (eachStmt site ss) _ _ _) fun _ =>
      L.bind (expr site _ x) fun _ => L.pure _

theorem stmt (site : Site) (Γ : Env) : ∀ z : Stmt Unit,
    L.SameStmt site Γ z
  | .letVar _ _ _ x => L.letVar (expr site Γ x)
  | .ret _ none => L.retNone
  | .ret _ (some x) => L.ret (expr site Γ x)
  | .loop _ x b => L.loop (expr site Γ x) (block site Γ b)
  | .forRange _ _ x y b => L.forRange (expr site Γ x) (expr site Γ y) fun Γ => block site Γ b
  | .forEach _ _ x b => L.forEach (expr site Γ x) fun Γ => block site Γ b
  | .expr x => L.bind (expr site Γ x) fun _ => L.pure _

theorem eachStmt (site : Site) :
    ∀ ss : List (Stmt Unit), ∀ z ∈ ss, ∀ Γ,
      L.SameStmt site Γ z
  | [], _, hz, _ => nomatch hz
  | z :: _, _, .head _, Γ => stmt site Γ z
  | _ :: ss, z, .tail _ hz, Γ => eachStmt site ss z hz Γ

end

/-- **The checks of a body are in lockstep.** -/
theorem body (f : FuncInfo) : rel _ (checkBody c infer f) (checkBody c' infer' f) :=
  L.bind (L.block _ _ _) fun _ => L.conclude _ _ _

end Lockstep

end Minilang.Typing
