import Minilang.Proofs.Tac.Types

/-!
# Typing rules

When a checked tree has a type, given the local variables with their types, the functions of the
program with their signatures, and the result type of the function around it.  The notes of the
tree take part: an expression whose note asks for a conversion is an integer that is used as a
float, and the type of an expression is that of its value after the conversion.

The rules say what has to hold, not how it is found out.  While a body is being checked its result
type may not be known yet.  So the rules are given for any condition on the returned values: that
they have the result type, or that their types have been listed.
-/

namespace Minilang

/-- The type of an expression after the conversion that its note asks for. -/
inductive Note.Gives (n : Note) : Ty → Ty → Prop
  | same {t : Ty} : n.widen = false → Gives n t t
  | widened : n.widen = true → Gives n .int .float

/-- The name of a field. -/
def FieldValue.key {α : Type} : FieldValue α → Bytes
  | .mk _ name _ => name.text

/-- The variant is one of a defined type. -/
def Static.HasVariant (c : Static) (v : Variant) : Prop :=
  ∃ variants, TypeDef.find? c.defs v.enum = some ⟨v.enum, .enum variants⟩ ∧ v ∈ variants

namespace Typing

open Tac (Signature)

/-- Which values a function may return, given by the note and the type of the returned
expression. -/
abbrev Returns := Note → Ty → Prop

/-- A function with a result returns values of its type. -/
def Returns.of (r : Ty) : Returns := fun _ a => a.Sub r

/-- The returned values have types that are on a list, and none has been converted. -/
def Returns.among (types : List (Span × Ty)) : Returns := fun n a =>
  n.type? = some a ∧ n.widen = false ∧ a ∈ types.map Prod.snd

variable (c : Static) (sig : Bytes → Signature → Prop)

mutual

/-- An expression has a type, in a function that may return what `R` tells and among the
variables `Γ`. -/
inductive ExprTyped : (R : Returns) → (Γ : Env) → Expr Note → Ty → Prop
  | lit {R Γ s n v t} : n.Gives (literalType v) t → ExprTyped R Γ (.lit s n v) t
  | var {R Γ s n x u t} : List.lookup x Γ = some u → n.Gives u t →
      ExprTyped R Γ (.var s n x) t
  | func {R Γ s n x g t} : List.lookup x Γ = none → sig x g → n.Gives (.func g.params g.result) t →
      ExprTyped R Γ (.var s n x) t
  | binary {R Γ s n op x y a b u t} : ExprTyped R Γ x a → ExprTyped R Γ y b →
      binaryType? op a b = some u → n.Gives u t → ExprTyped R Γ (.binary s n op x y) t
  | unary {R Γ s n op x a u t} : ExprTyped R Γ x a → unaryType? op a = some u →
      n.Gives u t → ExprTyped R Γ (.unary s n op x) t
  | print {R Γ s n callee arg a} : n.role = .builtin .print → ExprTyped R Γ arg a →
      ExprTyped R Γ (.call s n callee [arg]) .unit
  | len {R Γ s n callee arg a t} : n.role = .builtin .len → ExprTyped R Γ arg a →
      Primitive.len.type? a = some .int → n.Gives .int t →
      ExprTyped R Γ (.call s n callee [arg]) t
  | build {R Γ s n callee args v t} : n.role = .variant v → c.HasVariant v →
      EachTyped R Γ args v.payload → n.Gives (.named v.enum) t →
      ExprTyped R Γ (.call s n callee args) t
  | call {R Γ s n callee args params r t} : n.role = .plain →
      ExprTyped R Γ callee (.func params r) → EachTyped R Γ args params →
      n.Gives r t → ExprTyped R Γ (.call s n callee args) t
  | ifThen {R Γ s n test b a} : ExprTyped R Γ test .bool → BlockTyped R Γ b a →
      ExprTyped R Γ (.cond s n test b none) .unit
  | ifElse {R Γ s n test b e a a' u t} : ExprTyped R Γ test .bool →
      BlockTyped R Γ b a → ExprTyped R Γ e a' → a.Sub u → a'.Sub u →
      (a = .never → a' = .never → u = .never) → n.Gives u t →
      ExprTyped R Γ (.cond s n test b (some e)) t
  | block {R Γ b t} : BlockTyped R Γ b t → ExprTyped R Γ (.block b) t
  | assignVar {R Γ s n s' n' x v u a} : List.lookup x Γ = some u → ExprTyped R Γ v a →
      a.Sub u → ExprTyped R Γ (.assign s n (.var s' n' x) v) .unit
  | assignField {R Γ s n s' n' x f v d u a} : ExprTyped R Γ x d →
      c.Selects s d f.text u → ExprTyped R Γ v a → a.Sub u →
      ExprTyped R Γ (.assign s n (.field s' n' x f) v) .unit
  | assignIndex {R Γ s n s' n' x i v u a} : ExprTyped R Γ x (.array u) →
      ExprTyped R Γ i .int → ExprTyped R Γ v a → a.Sub u →
      ExprTyped R Γ (.assign s n (.index s' n' x i) v) .unit
  | variant {R Γ s n x f v t} : n.role = .variant v → c.HasVariant v → v.payload = [] →
      n.Gives (.named v.enum) t → ExprTyped R Γ (.field s n x f) t
  | field {R Γ s n x f d u t} : n.role = .plain → ExprTyped R Γ x d →
      c.Selects s d f.text u → n.Gives u t → ExprTyped R Γ (.field s n x f) t
  | array {R Γ s n es k u t} : EachTyped R Γ es (List.replicate k u) →
      n.Gives (.array u) t → ExprTyped R Γ (.array s n es) t
  | index {R Γ s n x i u t} : ExprTyped R Γ x (.array u) → ExprTyped R Γ i .int →
      n.Gives u t → ExprTyped R Γ (.index s n x i) t
  | lambda {R Γ s n params types result body r a t} : types.length = params.length →
      .never ∉ types →
      BlockTyped (.of r) (paramEnv params types) body a → a.Sub r → n.Gives (.func types r) t →
      ExprTyped R Γ (.lambda s n params result body) t
  | struct {R Γ s n name type declared fields t} : n.type? = some (.named name) →
      TypeDef.find? c.defs name = some ⟨name, .struct declared⟩ →
      (declared.map Prod.fst).Nodup → FieldsTyped R Γ declared fields →
      (∀ d ∈ declared, d.1 ∈ fields.map FieldValue.key) → n.Gives (.named name) t →
      ExprTyped R Γ (.struct s n type fields) t

/-- Expressions can be used as values of the given types. -/
inductive EachTyped : (R : Returns) → (Γ : Env) → List (Expr Note) → List Ty → Prop
  | nil {R Γ} : EachTyped R Γ [] []
  | cons {R Γ x xs a t ts} : ExprTyped R Γ x a → a.Sub t → EachTyped R Γ xs ts →
      EachTyped R Γ (x :: xs) (t :: ts)

/-- Field values can be used for the fields of a structure. -/
inductive FieldsTyped : (R : Returns) → (Γ : Env) → (declared : List (Bytes × Ty)) →
    List (FieldValue Note) → Prop
  | nil {R Γ declared} : FieldsTyped R Γ declared []
  | cons {R Γ declared s name x fs a t} : List.lookup name.text declared = some t →
      ExprTyped R Γ x a → a.Sub t → FieldsTyped R Γ declared fs →
      FieldsTyped R Γ declared (.mk s name x :: fs)

/-- A block has a type.  Without a value it has none, unless its last statement ends it early. -/
inductive BlockTyped : (R : Returns) → (Γ : Env) → Block Note → Ty → Prop
  | value {R Γ Γ' s n stmts x d u t} : StmtsTyped R Γ false stmts Γ' d →
      ExprTyped R Γ' x u → n.Gives u t → BlockTyped R Γ (.mk s n stmts (some x)) t
  | unit {R Γ Γ' s n stmts d} : StmtsTyped R Γ false stmts Γ' d →
      BlockTyped R Γ (.mk s n stmts none) (if d then .never else .unit)

/-- A statement is typed: the variables in sight after it, and whether it ends its block early. -/
inductive StmtTyped : (R : Returns) → (Γ : Env) → Stmt Note → (Γ' : Env) → (ends : Bool) → Prop
  | letVar {R Γ s x type v a u} : ExprTyped R Γ v a → a.Sub u →
      StmtTyped R Γ (.letVar s x type v) ((x.text, u) :: Γ) false
  | retNone {R Γ s} : R (.ofType .unit) .unit → StmtTyped R Γ (.ret s none) Γ true
  | ret {R Γ s v a} : ExprTyped R Γ v a → R v.note a → StmtTyped R Γ (.ret s (some v)) Γ true
  | loop {R Γ s test b a} : ExprTyped R Γ test .bool → BlockTyped R Γ b a →
      StmtTyped R Γ (.loop s test b) Γ false
  | forRange {R Γ s x start stop b a} : ExprTyped R Γ start .int →
      ExprTyped R Γ stop .int → BlockTyped R ((x.text, .int) :: Γ) b a →
      StmtTyped R Γ (.forRange s x start stop b) Γ false
  | forEach {R Γ s x v b u a} : ExprTyped R Γ v (.array u) → BlockTyped R ((x.text, u) :: Γ) b a →
      StmtTyped R Γ (.forEach s x v b) Γ false
  | expr {R Γ x t} : ExprTyped R Γ x t → StmtTyped R Γ (.expr x) Γ (t = .never)

/-- Statements are typed; `ends` tells whether the statement before ends its block early. -/
inductive StmtsTyped : (R : Returns) → (Γ : Env) → (ends : Bool) → List (Stmt Note) → (Γ' : Env) →
    (ends' : Bool) → Prop
  | nil {R Γ d} : StmtsTyped R Γ d [] Γ d
  | cons {R Γ Γ' Γ'' d d' d'' x xs} : StmtTyped R Γ x Γ' d' →
      StmtsTyped R Γ' d' xs Γ'' d'' → StmtsTyped R Γ d (x :: xs) Γ'' d''

end

/-- The body of a function is typed: it can be used as a value of the result type. -/
def BodyTyped (params : List Param) (g : Signature) (body : Block Note) : Prop :=
  g.params.length = params.length ∧ .never ∉ g.params ∧
    ∃ a, BlockTyped c sig (.of g.result) (paramEnv params g.params) body a ∧ a.Sub g.result

/-- A declared function is typed with a signature under its name. -/
def DeclTyped (f : FuncDecl Note) (b : Bytes × Signature) : Prop :=
  b.1 = f.name.text ∧ BodyTyped c sig f.params b.2 f.body

end Typing

end Minilang
