import Minilang.Proofs.Tac.OperandOrder

/-!
# How the code of a tree is arranged

The code of an expression or a statement is the code of its parts, in their order, with a few
instructions between them (`Arranged`).  The labels of these instructions are new ones, made when no
part is being lowered.  Most forms have no labels there at all: their parts are in line (`Lined`).
The others are those with control flow, and for them the arrangement says which instructions stand
around the parts (`Shape`).

A function literal has no parts, since its body is the code of a function of its own.
-/

namespace Minilang.Tac.Lowering

variable {α : Type}

/-! ### Expressions, statements and their code -/

/-- An expression or a statement. -/
inductive Node (α : Type) where
  | expr (x : Expr α)
  | stmt (s : Stmt α)

/-- The parts of the left side of an assignment. -/
def targetNodes : Expr α → List (Node α)
  | .field _ _ x _ => [.expr x]
  | .index _ _ x i => [.expr x, .expr i]
  | _ => []

/-- The parts whose code is in the code of an expression or a statement, in order. -/
def Node.parts (c : Context α) : Node α → List (Node α)
  | .expr (.lit ..) | .expr (.var ..) | .expr (.lambda ..) => []
  | .expr (.binary _ _ _ x y) => [.expr x, .expr y]
  | .expr (.unary _ _ _ x) => [.expr x]
  | .expr (.call _ n callee args) =>
    match (c.note n).role with
    | .plain => .expr callee :: args.map .expr
    | _ => args.map .expr
  | .expr (.cond _ _ test t e) => .expr test :: .expr (.block t) :: e.toList.map .expr
  | .expr (.block (.mk _ _ ss v)) => ss.map .stmt ++ v.toList.map .expr
  | .expr (.assign _ _ target v) => targetNodes target ++ [.expr v]
  | .expr (.field _ n x _) =>
    match (c.note n).role with
    | .variant _ => []
    | _ => [.expr x]
  | .expr (.array _ _ es) => es.map .expr
  | .expr (.index _ _ x i) => [.expr x, .expr i]
  | .expr (.struct _ _ _ fs) => (fs.map FieldValue.value).map .expr
  | .stmt (.letVar _ _ _ v) => [.expr v]
  | .stmt (.ret _ v) => v.toList.map .expr
  | .stmt (.loop _ test b) => [.expr test, .expr (.block b)]
  | .stmt (.forRange _ _ a z b) => [.expr a, .expr z, .expr (.block b)]
  | .stmt (.forEach _ _ a b) => [.expr a, .expr (.block b)]
  | .stmt (.expr x) => [.expr x]

/-- An expression or a statement, where it is lowered, and what it becomes there. -/
structure Chunk (α : Type) where
  node : Node α
  env : Env
  before : State
  code : Code
  /-- The operand that holds the value of an expression. -/
  value? : Option Operand
  after : State

/-- The chunk is what the lowering makes of its node. -/
def Chunk.Made (c : Context α) (func : Bytes) (x : Chunk α) : Prop :=
  match x.node with
  | .expr e => (lowerExpr c func x.env e).run x.before = .ok (⟨x.code, x.value?⟩, x.after)
  | .stmt s => x.value? = none ∧
    ∃ env, (lowerStmt c func x.env s).run x.before = .ok ((x.code, env), x.after)

/-- The environments of the parts: the variables in sight may be more in a block and in a loop. -/
def Chunk.envs (x : Chunk α) : Set Env :=
  match x.node with
  | .expr (.block _) | .stmt _ => Set.univ
  | _ => {x.env}

/-- The code of an expression. -/
abbrev Chunk.ofExpr (x : Expr α) (env : Env) (st : State) (l : Lowered) (st' : State) : Chunk α :=
  ⟨.expr x, env, st, l.code, l.value?, st'⟩

/-- The code of a statement. -/
abbrev Chunk.ofStmt (s : Stmt α) (env : Env) (st : State) (code : Code) (st' : State) : Chunk α :=
  ⟨.stmt s, env, st, code, none, st'⟩

/-- Parts of a chunk, each with the code before it. -/
abbrev Parts (α : Type) := List (Code × Chunk α)

/-- The code of parts, each with the instructions before it. -/
def flat (parts : Parts α) : Code :=
  parts.flatMap fun q => q.1 ++ q.2.code

@[simp] lemma flat_nil : flat ([] : Parts α) = [] := rfl

@[simp] lemma flat_cons (q : Code × Chunk α) (parts : Parts α) :
    flat (q :: parts) = q.1 ++ q.2.code ++ flat parts := rfl

@[simp] lemma flat_append (parts parts' : Parts α) :
    flat (parts ++ parts') = flat parts ++ flat parts' :=
  List.flatMap_append

/-! ### The labels between parts -/

variable {J : Set Bytes} {i : Located Instr} {g : Code} {s : Span} {l : Bytes} {v : Operand}
  {lo hi k : Nat} {c : Context α} {st st1 : State} {env : Env} {n : α} {E : Set Env}
  {xs : List (Expr α)}

/-- Instructions that have no labels and jump to none but those in `J`. -/
def Glue (J : Set Bytes) (g : Code) : Prop :=
  ∀ i ∈ g, (∀ l, i.val.label? = some l → l ∈ J) ∧ ∀ l, i.val.target? = some l → l ∈ J

lemma Glue.nil (J : Set Bytes) : Glue J [] :=
  List.forall_mem_nil _

lemma Glue.cons (hlabel : ∀ l, i.val.label? = some l → l ∈ J)
    (htarget : ∀ l, i.val.target? = some l → l ∈ J) (h : Glue J g) : Glue J (i :: g) :=
  List.forall_mem_cons.mpr ⟨⟨hlabel, htarget⟩, h⟩

lemma Glue.plain (hlabel : i.val.label? = none) (htarget : i.val.target? = none) (h : Glue J g) :
    Glue J (i :: g) :=
  .cons (by simp [hlabel]) (by simp [htarget]) h

lemma Glue.label (hl : l ∈ J) (h : Glue J g) : Glue J (⟨s, .label l⟩ :: g) :=
  .cons (fun l' hl' => Option.some.inj hl' ▸ hl) (by simp [Instr.target?]) h

lemma Glue.jump (hl : l ∈ J) (h : Glue J g) : Glue J (⟨s, .jump l⟩ :: g) :=
  .cons (by simp [Instr.label?]) (fun l' hl' => Option.some.inj hl' ▸ hl) h

lemma Glue.jumpUnless (hl : l ∈ J) (h : Glue J g) : Glue J (⟨s, .jumpUnless v l⟩ :: g) :=
  .cons (by simp [Instr.label?]) (fun l' hl' => Option.some.inj hl' ▸ hl) h

lemma Glue.append {g' : Code} (h : Glue J g) (h' : Glue J g') : Glue J (g ++ g') :=
  List.forall_mem_append.mpr ⟨h, h'⟩

/-- The label with a number. -/
abbrev labelOf (stem : Bytes) (k : Nat) : Bytes :=
  Bytes.concat [stem, ".", Decimal.ofNat k]

lemma not_numbered (hk : k < lo ∨ hi ≤ k) (stem : Bytes) :
    ¬Numbered (Set.Ico lo hi) (labelOf stem k) := by
  rintro ⟨stem', k', hk', heq⟩
  obtain rfl := freshName_injective heq
  have := hk'.1
  have := hk'.2
  omega

/-- Two labels with numbers in sequence. -/
abbrev twoLabels (stem stem' : Bytes) (k : Nat) : Set Bytes :=
  {labelOf stem k, labelOf stem' (k + 1)}

lemma not_numbered_two (hk : k + 2 ≤ lo ∨ hi ≤ k) (stem stem' : Bytes) :
    ∀ l ∈ twoLabels stem stem' k, ¬Numbered (Set.Ico lo hi) l := by
  rintro _ (rfl | rfl)
  · exact not_numbered (by omega) stem
  · exact not_numbered (by omega) stem'

/-! ### Arrangements -/

/-- Parts are lowered one after the other, and the labels in `J` are not among theirs. -/
inductive Assembled (c : Context α) (func : Bytes) (J : Set Bytes) :
    State → Parts α → State → Prop where
  | nil {st st'} (hst : Grown func st st') : Assembled c func J st [] st'
  | cons {st st' g y parts} (hg : Glue J g)
      (hst : Grown func st y.before) (made : y.Made c func) (sighted : Sighted y.env y.before)
      (fresh : ∀ l ∈ J, ¬Numbered (newLabels y.before y.after) l)
      (h : Assembled c func J y.after parts st') : Assembled c func J st ((g, y) :: parts) st'

/-- The code of a chunk is made of its parts. -/
structure Arranged (c : Context α) (func : Bytes) (x : Chunk α) (parts : Parts α)
    (last : Code) : Prop where
  assembled : ∃ J, Assembled c func J x.before parts x.after ∧ Glue J last
  code_eq : x.code = flat parts ++ last
  nodes : parts.map (·.2.node) = x.node.parts c

namespace Assembled

variable {func : Bytes} {st' : State} {parts parts' : Parts α}

lemma head (hst : Grown func st st1) (h : Assembled c func J st1 parts st') :
    Assembled c func J st parts st' := by
  cases h with
  | nil hst' => exact .nil (hst.trans hst')
  | cons hg hst' made sighted fresh h => exact .cons hg (hst.trans hst') made sighted fresh h

lemma append (h : Assembled c func J st parts st1) (h' : Assembled c func J st1 parts' st') :
    Assembled c func J st (parts ++ parts') st' := by
  induction h with
  | nil hst => exact h'.head hst
  | cons hg hst made sighted fresh _ ih => exact .cons hg hst made sighted fresh (ih h')

lemma last (h : Assembled c func J st parts st1) (hst : Grown func st1 st') :
    Assembled c func J st parts st' := by
  simpa using h.append (.nil hst)

lemma expr {x : Expr α} {l : Lowered} (henv : Sighted env st)
    (hrun : (lowerExpr c func env x).run st = .ok (l, st1)) (hg : Glue J g)
    (fresh : ∀ l ∈ J, ¬Numbered (newLabels st st1) l) (h : Assembled c func J st1 parts st') :
    Assembled c func J st ((g, .ofExpr x env st l st1) :: parts) st' :=
  .cons hg (.refl st) hrun henv fresh h

end Assembled

/-! ### Conversions -/

/-- The conversion of a value, if there is one, and the operand after it. -/
inductive Widens (s : Span) (v : Operand) : Code → Option Operand → Prop where
  | same : Widens s v [] (some v)
  | toFloat {r : Nat} : Widens s v [⟨s, .unary r (.known .toFloat) v⟩] (some (.reg r))

section Parts

variable {func : Bytes}

lemma Widens.glue {wide : Code} {v' : Option Operand} (h : Widens s v wide v') : Glue J wide := by
  cases h with
  | same => exact .nil J
  | toFloat => exact .plain rfl rfl (.nil J)

variable (func) in
lemma widen_widens (code : Code) (v : Operand) :
    Ends (widen c s n ⟨code, some v⟩) st (fun l st' => Grown func st st' ∧
      ∃ wide, l.code = code ++ wide ∧ Widens s v wide l.value?) := by
  unfold widen
  split
  · rename_i v' hv hwiden
    cases hv
    exact .bind (.newReg (.pure ⟨.take st 1 0, _, rfl, .toFloat⟩))
  · exact .pure ⟨.refl st, [], (List.append_nil _).symm, .same⟩

/-! ### Expressions without control flow -/

/-- An arrangement without jumps between the parts, with their environments in `E`. -/
def Lined (c : Context α) (func : Bytes) (E : Set Env) (st : State) (nodes : List (Node α))
    (code : Code) (st' : State) : Prop :=
  ∃ parts last, Assembled c func ∅ st parts st' ∧ Glue ∅ last ∧ code = flat parts ++ last ∧
    parts.map (·.2.node) = nodes ∧ ∀ q ∈ parts, q.2.env ∈ E

variable {nodes nodes' : List (Node α)} {code code' : Code} {st' : State}

lemma Lined.nil (E : Set Env) (st : State) : Lined c func E st [] [] st :=
  ⟨[], [], .nil (.refl st), .nil ∅, rfl, rfl, List.forall_mem_nil _⟩

section

variable (h : Lined c func E st nodes code st')

include h

lemma Lined.univ : Lined c func Set.univ st nodes code st' := by
  obtain ⟨parts, last, hparts, hlast, hcode, hnodes, -⟩ := h
  exact ⟨parts, last, hparts, hlast, hcode, hnodes, fun _ _ => trivial⟩

omit h in
lemma Lined.follows (h : Lined c func E st nodes code st1) (hst : Grown func st1 st') :
    Lined c func E st nodes code st' := by
  obtain ⟨parts, last, hparts, hlast, hcode, hnodes⟩ := h
  exact ⟨parts, last, hparts.last hst, hlast, hcode, hnodes⟩

lemma Lined.snoc (hg : Glue ∅ g) : Lined c func E st nodes (code ++ g) st' := by
  obtain ⟨parts, last, hparts, hlast, rfl, hnodes⟩ := h
  exact ⟨parts, last ++ g, hparts, hlast.append hg, List.append_assoc _ _ _, hnodes⟩

lemma Lined.instr (hlabel : i.val.label? = none) (htarget : i.val.target? = none) :
    Lined c func E st nodes (code ++ [i]) st' :=
  h.snoc (.plain hlabel htarget (.nil ∅))

end

lemma Lined.append (h : Lined c func E st nodes code st1)
    (h' : Lined c func E st1 nodes' code' st') :
    Lined c func E st (nodes ++ nodes') (code ++ code') st' := by
  obtain ⟨parts, last, hparts, hlast, rfl, rfl, hE⟩ := h
  obtain ⟨parts', last', hparts', hlast', rfl, rfl, hE'⟩ := h'
  cases hparts' with
  | nil hst =>
    exact ⟨parts, last ++ last', hparts.last hst, hlast.append hlast', by simp, by simp, hE⟩
  | @cons _ _ g y rest hg hst made sighted fresh hrest =>
    obtain ⟨hy, hrest'⟩ := List.forall_mem_cons.mp hE'
    refine ⟨parts ++ (last ++ g, y) :: rest, last', ?_, hlast', by simp, by simp,
      List.forall_mem_append.mpr ⟨hE, List.forall_mem_cons.mpr ⟨hy, hrest'⟩⟩⟩
    exact hparts.append (.cons (hlast.append hg) hst made sighted fresh hrest)

lemma Lined.expr {x : Expr α} {l : Lowered} (henv : Sighted env st)
    (hrun : (lowerExpr c func env x).run st = .ok (l, st')) :
    Lined c func {env} st [.expr x] l.code st' :=
  ⟨[([], .ofExpr x env st l st')], [], .expr henv hrun (.nil ∅) (fun _ hl => absurd hl id)
    (.nil (.refl st')), .nil ∅, by simp, rfl, List.forall_mem_singleton.mpr rfl⟩

lemma Lined.stmt {x : Stmt α} {r : Code × Env} (henv : Sighted env st)
    (hrun : (lowerStmt c func env x).run st = .ok (r, st')) :
    Lined c func Set.univ st [.stmt x] r.1 st' :=
  ⟨[([], .ofStmt x env st r.1 st')], [], .cons (.nil ∅) (.refl st) ⟨rfl, r.2, hrun⟩ henv
    (fun _ hl => absurd hl id) (.nil (.refl st')), .nil ∅, by simp, rfl, fun _ _ => trivial⟩

lemma Lowers.lined {rs : List (Code × Operand)} (h : Lowers c func env st xs rs st')
    (henv : Sighted env st) : Lined c func {env} st (xs.map .expr)
    (rs.map Prod.fst).flatten st' := by
  induction h with
  | nil => exact .nil _ _
  | cons hx _ ih => exact (Lined.expr henv hx).append (ih (henv.expr hx))

lemma Lined.widen (h : Lined c func E st nodes code st1) (v : Operand) :
    Ends (widen c s n ⟨code, some v⟩) st1 (fun l st' => Lined c func E st nodes l.code st') := by
  refine (widen_widens func code v).mono ?_
  rintro l st' ⟨hst, wide, hcode, hwide⟩
  rw [hcode]
  exact (h.follows hst).snoc hwide.glue

lemma Computed.lined {l : Lowered} (h : Computed c func env st xs l st') (henv : Sighted env st) :
    Lined c func {env} st (xs.map .expr) l.code st' := by
  cases h with
  | silent hrs hreads => exact (hrs.lined henv).instr hreads.label hreads.target
  | @value _ _ _ _ _ st1 _ hrs hreads _ hrun =>
    exact ((((hrs.lined henv).follows (.take st1 1 0)).instr hreads.label hreads.target).widen _).ok
      hrun

lemma stmts_lined (ss : List (Stmt α)) (henv : Sighted env st) :
    Ends (lowerStmts c func env [] ss) st (fun r st' =>
      Sighted r.2 st' ∧ Lined c func Set.univ st (ss.map .stmt) r.1 st') := by
  induction ss generalizing env st with
  | nil =>
    exact .pure ⟨henv, .nil _ st⟩
  | cons s ss ih =>
    rw [lowerStmts_cons]
    refine .run fun r st1 hs => ?_
    refine .chain (ih (henv.stmt hs)) fun r' st2 hss => ?_
    exact .pure ⟨hss.1, (Lined.stmt henv hs).append hss.2⟩

lemma block_lined (b : Block α) (henv : Sighted env st) :
    Ends (lowerBlock c func env b) st
      (fun l st' => Lined c func Set.univ st ((Node.expr (.block b)).parts c) l.code st') := by
  obtain ⟨s, n, ss, v⟩ := b
  rw [lowerBlock, Node.parts]
  refine .chain (stmts_lined ss henv) ?_
  rintro ⟨code, env'⟩ st1 ⟨henv', hss⟩
  cases v with
  | none => exact .pure (by simpa using hss)
  | some x =>
    refine .run fun l st2 hx => ?_
    have hcode := hss.append (Lined.expr henv' hx).univ
    obtain ⟨xc, v?⟩ := l
    cases v? with
    | some v => exact hcode.widen v
    | none => exact .pure hcode

lemma lambda_lined {params : List Param} {result : Option TypeExpr} {body : Block α} :
    Ends (lowerExpr c func env (.lambda s n params result body)) st (fun l st' =>
      Lined c func {env} st [] l.code st' ∧ ∃ name l' st1,
        (lowerBlock c name (paramEnv params) body).run (.start params.length) = .ok (l', st1) ∧
          assemble name params body.span l' st1 ⊆ st'.nested) := by
  refine .bind (.newLambda (.lift (fun r hrun => ?_) fun _ _ => trivial))
  have hgrown := (blockMade c body).grown hrun
  refine .bind (.addNested ((widen_widens func [] _).mono ?_))
  rintro l st' ⟨hst, wide, hcode, hwide⟩
  refine ⟨?_, _, r.1, r.2, hrun, fun f hf =>
    hst.subset (List.mem_append_left _ (List.mem_reverse.mpr hf))⟩
  rw [hcode]
  exact ((Lined.nil {env} st).follows (hgrown.trans hst)).snoc hwide.glue

end Parts

/-! ### Shapes of control flow -/

/-- The instructions that decide whether the second operand of `&&` or `||` is computed: they go on
if the register of the result is true, respectively false, and else to the end. -/
inductive Decides (s : Span) (d : Nat) (stop : Bytes) : BinaryOp → Code → Prop where
  | and : Decides s d stop .and [⟨s, .jumpUnless (.reg d) stop⟩]
  | or {r : Nat} (hr : r ≠ d) : Decides s d stop .or
      [⟨s, .unary r (.known .not) (.reg d)⟩, ⟨s, .jumpUnless (.reg r) stop⟩]

/-- The code of `&&` and `||` around that of the operands. -/
inductive LogicalShape (op : BinaryOp) (value? : Option Operand) :
    Parts α → Code → Prop where
  | mk {x y xv yv d s s1 s2 stop decide wide} (hx : x.value? = some xv) (hy : y.value? = some yv)
      (hdecide : Decides s d stop op decide) (hwide : Widens s (.reg d) wide value?) :
      LogicalShape op value? [([], x), (⟨s1, .assign d xv⟩ :: decide, y)]
        (⟨s2, .assign d yv⟩ :: ⟨s, .label stop⟩ :: wide)

/-- The instruction that keeps the value of a branch, if it has one. -/
def keep (s : Span) (d : Nat) (v : Option Operand) : Code :=
  (v.map fun v => ⟨s, .assign d v⟩).toList

/-- The code of a conditional around that of its test and its branches. -/
inductive CondShape (value? : Option Operand) : Parts α → Code → Prop where
  | mk {test t e tv d s s1 s2 s3 other stop} {wide : Code} (htest : test.value? = some tv)
      (hvalue : t.value? = none ∧ e.value? = none ∧ wide = [] ∧ value? = none ∨
        Widens s (.reg d) wide value?) :
      CondShape value? [([], test), ([⟨s1, .jumpUnless tv other⟩], t),
        (keep s2 d t.value? ++ [⟨s2, .jump stop⟩, ⟨s, .label other⟩], e)]
        (keep s3 d e.value? ++ ⟨s, .label stop⟩ :: wide)

/-- The code of a loop that counts, before its body. -/
def loopHead (s : Span) (loop stop : Bytes) (counter limit test : Nat) (elem : Located Instr) :
    Code :=
  [⟨s, .label loop⟩, ⟨s, .binary test (.known .lt) (.reg counter) (.reg limit)⟩,
    ⟨s, .jumpUnless (.reg test) stop⟩, elem]

/-- The code of a loop that counts, behind its body. -/
def loopTail (s : Span) (loop stop : Bytes) (counter : Nat) : Code :=
  [⟨s, .binary counter (.known .add) (.reg counter) (.lit (.int 1))⟩, ⟨s, .jump loop⟩,
    ⟨s, .label stop⟩]

/-- The code of a loop over a range around that of the bounds and the body.  The counter, the limit,
the test and the variable are in new registers, in this order. -/
inductive RangeShape (s : Span) (name : Name) (start limit : Expr α) (b : Block α) (x : Chunk α) :
    Parts α → Code → Prop where
  | mk {a z av zv l st1 st2 st3 loop stop} (ha : a.value? = some av) (hz : z.value? = some zv)
      (hst : st3.numVars = st2.numVars + 4) :
      RangeShape s name start limit b x
        [([], .ofExpr start x.env x.before a st1), ([], .ofExpr limit x.env st1 z st2),
          ([⟨start.span, .assign st2.numVars av⟩, ⟨limit.span, .assign (st2.numVars + 1) zv⟩] ++
            loopHead s loop stop st2.numVars (st2.numVars + 1) (st2.numVars + 2)
              ⟨name.span, .assign (st2.numVars + 3) (.reg st2.numVars)⟩,
            .ofExpr (.block b) ((name.text, st2.numVars + 3) :: x.env) st3 l x.after)]
        (loopTail s loop stop st2.numVars)

/-- The code of a loop over an array around that of the array and the body.  The array, the limit,
the counter, the test and the variable are in new registers, in this order. -/
inductive EachShape (s : Span) (name : Name) (array : Expr α) (b : Block α) (x : Chunk α) :
    Parts α → Code → Prop where
  | mk {a av l st1 st2 loop stop} (ha : a.value? = some av) (hst : st2.numVars = st1.numVars + 5) :
      EachShape s name array b x
        [([], .ofExpr array x.env x.before a st1), ([⟨array.span, .assign st1.numVars av⟩,
              ⟨array.span, .unary (st1.numVars + 1) (.known .len) (.reg st1.numVars)⟩,
              ⟨array.span, .assign (st1.numVars + 2) (.lit (.int 0))⟩] ++
            loopHead s loop stop (st1.numVars + 2) (st1.numVars + 1) (st1.numVars + 3)
              ⟨name.span, .index (st1.numVars + 4) (.reg st1.numVars) (.reg (st1.numVars + 2))⟩,
            .ofExpr (.block b) ((name.text, st1.numVars + 4) :: x.env) st2 l x.after)]
        (loopTail s loop stop (st1.numVars + 2))

/-- How the code of logical operators, conditionals and loops is put together. -/
def Shape (x : Chunk α) (parts : Parts α) (last : Code) : Prop :=
  match x.node with
  | .expr (.binary _ _ op _ _) => op.isLogical = true → LogicalShape op x.value? parts last
  | .expr (.cond _ _ _ _ (some _)) => CondShape x.value? parts last
  | .stmt (.forRange s name start limit b) => RangeShape s name start limit b x parts last
  | .stmt (.forEach s name array b) => EachShape s name array b x parts last
  | _ => True

section Control

variable {func : Bytes} {x y test e : Expr α} {b : Block α} {stop loop : Bytes} {op : BinaryOp}
  {counter : Nat} {name : Name}

/-- The code of a chunk is arranged and has the shape of its node, and its parts their environments.
-/
def Laid (c : Context α) (func : Bytes) (x : Chunk α) : Prop :=
  ∃ parts last, Arranged c func x parts last ∧ Shape x parts last ∧ ∀ q ∈ parts, q.2.env ∈ x.envs

lemma lowerExpr_block (b : Block α) :
    lowerExpr c func env (.block b) = lowerBlock c func env b := by
  rw [lowerExpr]

lemma Decides.glue {d : Nat} {decide : Code} (h : Decides s d stop op decide) (hstop : stop ∈ J) :
    Glue J decide := by
  cases h with
  | and => exact .jumpUnless hstop (.nil J)
  | or hr => exact .plain rfl rfl (.jumpUnless hstop (.nil J))

lemma keep_glue (J : Set Bytes) (s : Span) (d : Nat) (v : Option Operand) :
    Glue J (keep s d v) := by
  cases v with
  | none => exact .nil J
  | some v => exact .plain rfl rfl (.nil J)

lemma branch_eq (s : Span) (d : Nat) (l : Lowered) :
    branch s d l = l.code ++ keep s d l.value? := by
  unfold branch keep
  split
  · rename_i hv
    rw [hv]
    exact (List.append_nil _).symm
  · rename_i v hv
    rw [hv]
    rfl

lemma logical_laid (hop : op.isLogical = true) (henv : Sighted env st) :
    Ends (lowerExpr c func env (.binary s n op x y)) st
      (fun l st' => Laid c func (.ofExpr (.binary s n op x y) env st l st')) := by
  refine ends_value fun xc xv st1 hx => ?_
  simp only [hop]
  refine .bind (.newReg (.bind (.newLabel ?_)))
  generalize hstop : Bytes.concat [Bytes.ofString "sc", ".", Decimal.ofNat st1.labels.count] = stop
  -- The test takes a register or none.
  have hrest : ∀ st2 test cond, Grown func st1 st2 →
      st1.labels.count < st2.labels.count →
      Decides s st1.numVars stop op (test ++ [⟨s, .jumpUnless cond stop⟩]) → Ends (do
        let r ← needValue func y (← lowerExpr c func env y)
        widen c s n ⟨xc ++ [⟨x.span, .assign st1.numVars xv⟩] ++ test ++
          [⟨s, .jumpUnless cond stop⟩] ++ r.1 ++ [⟨y.span, .assign st1.numVars r.2⟩,
          ⟨s, .label stop⟩], some (.reg st1.numVars)⟩) st2
        (fun l st' => Laid c func (.ofExpr (.binary s n op x y) env st l st')) := by
    intro st2 test cond hst2 hlabel hdecide
    refine ends_value fun yc yv st3 hy => (widen_widens func _ _).mono ?_
    rintro l st' ⟨hst', wide, hcode, hwide⟩
    refine ⟨[([], .ofExpr x env st ⟨xc, some xv⟩ st1), (⟨x.span, .assign st1.numVars xv⟩ ::
      (test ++ [⟨s, .jumpUnless cond stop⟩]), .ofExpr y env st2 ⟨yc, some yv⟩ st3)],
      ⟨y.span, .assign st1.numVars yv⟩ :: ⟨s, .label stop⟩ :: wide,
      ⟨⟨{stop}, ?_, .plain rfl rfl (.label rfl hwide.glue)⟩, by simp [hcode], rfl⟩,
      fun _ => .mk rfl rfl hdecide hwide, by simp [Chunk.envs]⟩
    refine .expr henv hx (.nil _) ?_ (.head hst2 (.expr ((henv.expr hx).mono hst2.regs) hy
      (.plain rfl rfl (hdecide.glue rfl)) ?_ (.nil hst')))
    · rintro _ rfl
      exact hstop ▸ not_numbered (.inr (le_refl _)) _
    · rintro _ rfl
      exact hstop ▸ not_numbered (.inl hlabel) _
  cases op with
  | or =>
    exact .bind (.newReg (.bind (.pure (hrest _ [_] _ (.take st1 2 1) (Nat.lt_succ_self _)
      (.or (Nat.succ_ne_self _))))))
  | and => exact .bind (.pure (hrest _ [] _ (.take st1 1 1) (Nat.lt_succ_self _) .and))
  | _ => cases hop

section

variable (henv : Sighted env st)

include henv

lemma ifThen_laid :
    Ends (lowerExpr c func env (.cond s n test b none)) st
      (fun l st' => Laid c func (.ofExpr (.cond s n test b none) env st l st')) := by
  refine ends_value fun tc tv st1 ht => .bind (.newLabel (.run fun l st2 hb => ?_))
  generalize hstop : Bytes.concat [Bytes.ofString "end", ".", Decimal.ofNat st1.labels.count] = stop
  have hst1 : Grown func st1 _ := .take st1 0 1
  refine .pure ⟨[([], .ofExpr test env st ⟨tc, some tv⟩ st1), ([⟨test.span, .jumpUnless tv stop⟩],
    .ofExpr (.block b) env ⟨st1.numVars, ⟨st1.labels.count + 1⟩, st1.lambdas, st1.nested⟩ l st2)],
    [⟨s, .label stop⟩], ⟨⟨{stop}, ?_, .label rfl (.nil _)⟩, by simp, rfl⟩, trivial,
    by simp [Chunk.envs]⟩
  refine .expr henv ht (.nil _) ?_ (.head hst1 (.expr ((henv.expr ht).mono hst1.regs) hb
    (.jumpUnless rfl (.nil _)) ?_ (.nil (.refl st2))))
  · rintro _ rfl
    exact hstop ▸ not_numbered (.inr (le_refl _)) _
  · rintro _ rfl
    exact hstop ▸ not_numbered (.inl (Nat.lt_succ_self _)) _

lemma ifElse_laid :
    Ends (lowerExpr c func env (.cond s n test b (some e))) st
      (fun l st' => Laid c func (.ofExpr (.cond s n test b (some e)) env st l st')) := by
  rw [lowerExpr_ifElse]
  refine ends_value fun tc tv st1 ht => ?_
  simp only [bind_assoc, pure_bind]
  refine .bind (.newLabel (.bind (.newLabel (.run fun t' st3 hb => .bind (.of_run
    (fun e' st4 he => ?_) fun _ _ => trivial)))))
  rw [← lowerExpr_block] at hb
  have hst1 : Grown func st1 _ := .take st1 0 2
  have henv2 := (henv.expr ht).mono hst1.regs
  have hlabels := ((exprMade c _ henv2.inSight).ok hb).extent.grown.labels
  generalize hother : Bytes.concat [Bytes.ofString "else", ".", Decimal.ofNat st1.labels.count] =
    other
  generalize hstop :
    Bytes.concat [Bytes.ofString "end", ".", Decimal.ofNat (st1.labels.count + 1)] = stop
  -- No part has one of the labels.
  have hfresh : ∀ {lo hi}, st1.labels.count + 2 ≤ lo ∨ hi ≤ st1.labels.count →
      ∀ l ∈ ({other, stop} : Set Bytes), ¬Numbered (Set.Ico lo hi) l := by
    intro lo hi h
    rw [← hother, ← hstop]
    exact not_numbered_two h _ _
  -- The arrangement does not depend on the register of the value.
  have hlaid : ∀ d l st' wide, Grown func st4 st' →
      l.code = condCode s test.span b.span e.span tc tv other stop t' e' d ++ wide →
      Glue {other, stop} wide →
      (t'.value? = none ∧ e'.value? = none ∧ wide = [] ∧ l.value? = none ∨
        Widens s (.reg d) wide l.value?) →
      Laid c func (.ofExpr (.cond s n test b (some e)) env st l st') := by
    intro d l st' wide hst' hcode hwide hvalue
    refine ⟨[([], .ofExpr test env st ⟨tc, some tv⟩ st1), ([⟨test.span, .jumpUnless tv other⟩],
      .ofExpr (.block b) env ⟨st1.numVars, ⟨st1.labels.count + 2⟩, st1.lambdas, st1.nested⟩ t' st3),
      (keep b.span d t'.value? ++ [⟨b.span, .jump stop⟩, ⟨s, .label other⟩],
        .ofExpr e env st3 e' st4)], keep e.span d e'.value? ++ ⟨s, .label stop⟩ :: wide,
      ⟨⟨{other, stop}, ?_, (keep_glue _ _ _ _).append (.label (.inr rfl) hwide)⟩,
        by simp [hcode, condCode, branch_eq], rfl⟩, show CondShape l.value? _ _ from .mk rfl hvalue,
      by simp [Chunk.envs]⟩
    exact .expr henv ht (.nil _) (hfresh (.inr (le_refl _))) (.head hst1 (.expr henv2 hb
      (.jumpUnless (.inl rfl) (.nil _)) (hfresh (.inl (le_refl _))) (.expr (henv2.expr hb) he
        ((keep_glue _ _ _ _).append (.jump (.inr rfl) (.label (.inl rfl) (.nil _))))
          (hfresh (.inl hlabels)) (.nil hst'))))
  unfold finishCond
  split
  · rename_i htnone henone
    exact .pure (hlaid 0 _ st4 [] (.refl st4) (List.append_nil _).symm (.nil _)
      (.inl ⟨htnone, henone, rfl, rfl⟩))
  · refine .bind (.newReg ((widen_widens func _ _).mono ?_))
    rintro l st' ⟨hst', wide, hcode, hwide⟩
    exact hlaid _ l st' wide ((Grown.take st4 1 0).trans hst') hcode hwide.glue (.inr hwide)

lemma loop_laid :
    Ends (lowerStmt c func env (.loop s test b)) st
      (fun r st' => Laid c func (.ofStmt (.loop s test b) env st r.1 st')) := by
  refine .bind (.newLabel (.bind (.newLabel (ends_value fun tc tv st1 ht => .bind (.of_run
    (fun l st2 hb => ?_) fun _ _ => trivial)))))
  have hst : Grown func st _ := .take st 0 2
  have henv1 := henv.mono hst.regs
  have hlabels := ((exprMade c _ henv1.inSight).ok ht).extent.grown.labels
  refine .pure ⟨[([⟨s, .label (labelOf "loop" st.labels.count)⟩],
    .ofExpr test env ⟨st.numVars, ⟨st.labels.count + 2⟩, st.lambdas, st.nested⟩ ⟨tc, some tv⟩ st1),
    ([⟨test.span, .jumpUnless tv (labelOf "end" (st.labels.count + 1))⟩],
      .ofExpr (.block b) env st1 l st2)],
    [⟨s, .jump (labelOf "loop" st.labels.count)⟩,
      ⟨s, .label (labelOf "end" (st.labels.count + 1))⟩],
    ⟨⟨twoLabels "loop" "end" st.labels.count, ?_, .jump (.inl rfl) (.label (.inr rfl) (.nil _))⟩,
      by simp, rfl⟩, trivial, fun _ _ => trivial⟩
  exact .head hst (.expr henv1 ht (.label (.inl rfl) (.nil _))
    (not_numbered_two (.inl (le_refl _)) _ _) (.expr (henv1.expr ht) hb
      (.jumpUnless (.inr rfl) (.nil _)) (not_numbered_two (.inl hlabels) _ _) (.nil (.refl st2))))

omit henv in
lemma loopHead_glue {limit test : Nat} {elem : Located Instr} (hloop : loop ∈ J)
    (hstop : stop ∈ J) (hlabel : elem.val.label? = none) (htarget : elem.val.target? = none) :
    Glue J (loopHead s loop stop counter limit test elem) :=
  .label hloop (.plain rfl rfl (.jumpUnless hstop (.plain hlabel htarget (.nil J))))

omit henv in
lemma loopTail_glue (hloop : loop ∈ J) (hstop : stop ∈ J) : Glue J (loopTail s loop stop counter) :=
  .plain rfl rfl (.jump hloop (.label hstop (.nil J)))

lemma forRange_laid {start limit : Expr α} :
    Ends (lowerStmt c func env (.forRange s name start limit b)) st
      (fun r st' => Laid c func (.ofStmt (.forRange s name start limit b) env st r.1 st')) := by
  refine ends_value fun ac a st1 ha => ends_value fun zc z st2 hz => .bind (.newReg (.bind (.newReg
    (.bind (.newLabel (.bind (.newLabel (.bind (.newReg (.bind (.newReg (.bind (.of_run
      (fun l st3 hb => ?_) fun _ _ => trivial)))))))))))))
  have henv1 := henv.expr ha
  have henv2 : Sighted env ⟨st2.numVars + 3, ⟨st2.labels.count + 2⟩, st2.lambdas, st2.nested⟩ :=
    (henv1.expr hz).mono (Nat.le_add_right st2.numVars 3)
  have hlabels := ((exprMade c _ henv1.inSight).ok hz).extent.grown.labels
  refine .pure ⟨[([], .ofExpr start env st ⟨ac, some a⟩ st1),
    ([], .ofExpr limit env st1 ⟨zc, some z⟩ st2), (_, .ofExpr (.block b)
      ((name.text, st2.numVars + 3) :: env)
      ⟨st2.numVars + 4, ⟨st2.labels.count + 2⟩, st2.lambdas, st2.nested⟩ l st3)], _,
    ⟨⟨twoLabels "loop" "end" st2.labels.count, ?_, loopTail_glue (.inl rfl) (.inr rfl)⟩, ?_, rfl⟩,
    show RangeShape s name start limit b _ _ _ from .mk rfl rfl rfl, fun _ _ => trivial⟩
  · exact .expr henv ha (.nil _) (not_numbered_two (.inr hlabels) _ _) (.expr henv1 hz (.nil _)
      (not_numbered_two (.inr (le_refl _)) _ _) (.head (.take st2 4 2) (.expr
        (henv2.bind name.text) hb (.plain rfl rfl (.plain rfl rfl (loopHead_glue (.inl rfl)
          (.inr rfl) rfl rfl))) (not_numbered_two (.inl (le_refl _)) _ _) (.nil (.refl st3)))))
  · simp [countingLoop, loopHead, loopTail]

lemma forEach_laid {array : Expr α} :
    Ends (lowerStmt c func env (.forEach s name array b)) st
      (fun r st' => Laid c func (.ofStmt (.forEach s name array b) env st r.1 st')) := by
  refine ends_value fun ac a st1 ha => .bind (.newReg (.bind (.newReg (.bind (.newReg
    (.bind (.newLabel (.bind (.newLabel (.bind (.newReg (.bind (.newReg (.bind (.of_run
      (fun l st2 hb => ?_) fun _ _ => trivial)))))))))))))))
  have henv1 : Sighted env ⟨st1.numVars + 4, ⟨st1.labels.count + 2⟩, st1.lambdas, st1.nested⟩ :=
    (henv.expr ha).mono (Nat.le_add_right st1.numVars 4)
  refine .pure ⟨[([], .ofExpr array env st ⟨ac, some a⟩ st1), (_, .ofExpr (.block b)
      ((name.text, st1.numVars + 4) :: env)
      ⟨st1.numVars + 5, ⟨st1.labels.count + 2⟩, st1.lambdas, st1.nested⟩ l st2)], _,
    ⟨⟨twoLabels "loop" "end" st1.labels.count, ?_, loopTail_glue (.inl rfl) (.inr rfl)⟩, ?_, rfl⟩,
    show EachShape s name array b _ _ _ from .mk rfl rfl, fun _ _ => trivial⟩
  · exact .expr henv ha (.nil _) (not_numbered_two (.inr (le_refl _)) _ _) (.head
      (.take st1 5 2) (.expr (henv1.bind name.text) hb
        (.plain rfl rfl (.plain rfl rfl (.plain rfl rfl
        (loopHead_glue (.inl rfl) (.inr rfl) rfl rfl)))) (not_numbered_two (.inl (le_refl _)) _ _)
          (.nil (.refl st2))))
  · simp [countingLoop, loopHead, loopTail]

end

/-! ### All forms -/

lemma Lined.laid {x : Chunk α} (hE : E ⊆ x.envs)
    (h : Lined c func E x.before (x.node.parts c) x.code x.after)
    (hshape : ∀ parts last, Shape x parts last) : Laid c func x := by
  obtain ⟨parts, last, hparts, hlast, hcode, hnodes, henvs⟩ := h
  exact ⟨parts, last, ⟨⟨∅, hparts, hlast⟩, hcode, hnodes⟩, hshape parts last, fun q hq =>
    hE (henvs q hq)⟩

/-- The parts of an expression are in line in its code. -/
def ExprLined (c : Context α) (func : Bytes) (env : Env) (st : State) (x : Expr α) : Prop :=
  Ends (lowerExpr c func env x) st
    (fun l st' => Lined c func (Chunk.ofExpr x env st l st').envs st
      ((Node.expr x).parts c) l.code st')

lemma ExprLined.laid (h : ExprLined c func env st x)
    (hshape : ∀ l st' parts last, Shape (.ofExpr x env st l st') parts last) :
    Ends (lowerExpr c func env x) st (fun l st' => Laid c func (.ofExpr x env st l st')) :=
  h.mono (fun l st' hl => Lined.laid subset_rfl hl (hshape l st'))

lemma operation_laid (hx : operation? c x = some xs) (henv : Sighted env st) :
    Ends (lowerExpr c func env x) st (fun l st' => Laid c func (.ofExpr x env st l st')) := by
  -- An operation has its operands as parts, and no shape.
  have hplain : (Node.expr x).parts c = xs.map .expr ∧ (∀ l st', {env} ⊆ (Chunk.ofExpr x env st l
      st').envs) ∧ ∀ l st' parts last, Shape (.ofExpr x env st l st') parts last := by
    cases x with
    | binary s n op x y =>
      rw [operation?] at hx
      split at hx
      · cases hx
      · rename_i hop
        cases hx
        exact ⟨rfl, fun _ _ => subset_rfl, fun _ _ _ _ h => absurd h hop⟩
    | call s n callee args | field s n y name =>
      rw [operation?] at hx
      rw [Node.parts]
      refine ⟨?_, fun _ _ => subset_rfl, fun _ _ _ _ => trivial⟩
      split at hx
      all_goals
        cases hx
        simp_all
    | assign s n target v =>
      cases target with
      | field | index =>
        cases hx
        exact ⟨rfl, fun _ _ => subset_rfl, fun _ _ _ _ => trivial⟩
      | _ => cases hx
    | unary | array | index | struct =>
      cases hx
      exact ⟨rfl, fun _ _ => subset_rfl, fun _ _ _ _ => trivial⟩
    | lit | var | cond | block | lambda => cases hx
  refine (lowerExpr_computed hx).mono fun l st' h => Lined.laid (hplain.2.1 l st') ?_
    (hplain.2.2 l st')
  rw [hplain.1]
  exact h.lined henv

lemma assign_laid {target v : Expr α} (henv : Sighted env st) :
    Ends (lowerExpr c func env (.assign s n target v)) st
      (fun l st' => Laid c func (.ofExpr (.assign s n target v) env st l st')) := by
  cases target with
  | var ts tn x =>
    refine ExprLined.laid ?_ fun _ _ _ _ => trivial
    rw [ExprLined, lowerExpr]
    split
    · exact .throw trivial
    · exact ends_value fun vc v st1 hv => .pure ((Lined.expr henv hv).instr rfl rfl)
  | field | index => exact operation_laid rfl henv
  | _ =>
    exact .throw trivial

variable (c func) in
/-- **The code of an expression is arranged from that of its parts.** -/
theorem expr_laid (x : Expr α) (henv : Sighted env st) :
    Ends (lowerExpr c func env x) st (fun l st' => Laid c func (.ofExpr x env st l st')) := by
  cases x with
  | lit s n v =>
    refine ExprLined.laid ?_ fun _ _ _ _ => trivial
    rw [ExprLined, lowerExpr]
    exact (Lined.nil {env} st).widen _
  | var s n name =>
    refine ExprLined.laid ?_ fun _ _ _ _ => trivial
    rw [ExprLined, lowerExpr]
    unfold Lowering.name
    split
    · exact .bind (.pure ((Lined.nil {env} st).widen _))
    · split
      · exact .bind (.pure ((Lined.nil {env} st).widen _))
      · exact .bind (.throw trivial)
  | binary s n op x y =>
    cases hop : op.isLogical with
    | true => exact logical_laid hop henv
    | false => exact operation_laid (if_neg (by simp [hop])) henv
  | cond s n test t e =>
    cases e with
    | none => exact ifThen_laid henv
    | some e => exact ifElse_laid henv
  | block b =>
    refine ExprLined.laid ?_ fun _ _ _ _ => trivial
    rw [ExprLined, lowerExpr_block]
    exact block_lined b henv
  | assign s n target v => exact assign_laid henv
  | call s n callee args =>
    cases hrole : (c.note n).role with
    | plain | builtin | variant => exact operation_laid (by rw [operation?, hrole]) henv
  | field s n x name =>
    cases hrole : (c.note n).role with
    | plain | builtin | variant => exact operation_laid (by rw [operation?, hrole]) henv
  | unary | array | index | struct => exact operation_laid rfl henv
  | lambda s n params result body =>
    exact ExprLined.laid (lambda_lined.mono (fun _ _ h => h.1)) fun _ _ _ _ => trivial

variable (c func) in
/-- **The code of a statement is arranged from that of its parts.** -/
theorem stmt_laid (x : Stmt α) (henv : Sighted env st) :
    Ends (lowerStmt c func env x) st (fun r st' => Laid c func (.ofStmt x env st r.1 st')) := by
  cases x with
  | letVar s name type v =>
    rw [lowerStmt]
    exact ends_value fun vc v' st1 hv => .bind (.newReg (.pure (Lined.laid (fun _ _ => trivial)
      (((Lined.expr henv hv).follows (.take st1 1 0)).instr rfl rfl) fun _ _ => trivial)))
  | ret s v =>
    cases v with
    | none =>
      rw [lowerStmt]
      exact .pure (Lined.laid (fun _ _ => trivial) ((Lined.nil {env} st).instr rfl rfl)
        fun _ _ => trivial)
    | some v =>
      rw [lowerStmt]
      exact ends_value fun vc v' st1 hv => .pure (Lined.laid (fun _ _ => trivial)
        ((Lined.expr henv hv).instr rfl rfl) fun _ _ => trivial)
  | loop s test b => exact loop_laid henv
  | forRange s name a z b => exact forRange_laid henv
  | forEach s name a b => exact forEach_laid henv
  | expr x =>
    rw [lowerStmt]
    exact .run fun l st1 hx => .pure (Lined.laid (fun _ _ => trivial) (Lined.expr henv hx)
      fun _ _ => trivial)

lemma Chunk.Made.laid {x : Chunk α} (hx : x.Made c func) (henv : Sighted x.env x.before) :
    Laid c func x := by
  obtain ⟨node, env, st, code, value?, st'⟩ := x
  cases node with
  | expr e => exact (expr_laid c func e henv).ok hx
  | stmt s =>
    obtain ⟨rfl, env', hrun⟩ := hx
    exact (stmt_laid c func s henv).ok hrun

end Control

end Minilang.Tac.Lowering
