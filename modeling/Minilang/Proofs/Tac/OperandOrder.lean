import Minilang.Proofs.Tac.NeededValues

/-!
# The order of operands

The operands of an expression are computed from left to right, and then one instruction reads them
all.  What a variable stands for is not copied: the operand is its register.  So between an operand
and the instruction that reads it stands the code of the operands after it, and this may write the
register in one case only: the operand is a variable, perhaps in blocks, and a later operand assigns
that variable (`operands_kept`).  Then the instruction reads the new value (`run_reassigning`).

The operators `&&` and `||` read their left operand before the code of the right one, so for them
there is no such case.
-/

namespace Minilang

open List

/-- The value that a run has given. -/
def Machine.Outcome.value? : Machine.Outcome → Option Value
  | .halted v => some v
  | .failed _ | .unfinished => none

lemma Machine.Outcome.eq_halted {o : Outcome} {v : Value} (h : o.value? = some v) :
    o = .halted v := by
  cases o with
  | halted w =>
    cases h
    rfl
  | failed f => cases h
  | unfinished => cases h

namespace Tac

namespace Lowering

variable {α : Type} {c : Context α} {func : Bytes} {env : Env} {l : Lowered} {st' : State}
  {xs : List (Expr α)} {rs : List (Code × Operand)}

/-! ### Operands -/

/-- The operands of an expression that may have several: those that are computed before an
instruction reads them, in order. -/
def operands (c : Context α) : Expr α → List (Expr α)
  | .binary _ _ op x y => if op.isLogical then [x] else [x, y]
  | .call _ n callee args =>
    match (c.note n).role with
    | .plain => callee :: args
    | _ => args
  | .assign _ _ (.field _ _ x _) v => [x, v]
  | .assign _ _ (.index _ _ x i) v => [x, i, v]
  | .array _ _ es => es
  | .index _ _ x i => [x, i]
  | .struct _ _ _ fs => fs.map FieldValue.value
  | _ => []

/-- The code of operands in order, and then an instruction that reads no other registers than
theirs. -/
structure Reading (c : Context α) (func : Bytes) (env : Env) (st : State) (xs : List (Expr α))
    (rs : List (Code × Operand)) (code : Code) : Prop where
  lowers : ∃ st', Lowers c func env st xs rs st'
  code_eq : ∃ i rest, code = (rs.map Prod.fst).flatten ++ i :: rest ∧
    ∀ r, .reg r ∈ i.val.uses → .reg r ∈ rs.map Prod.snd

section Reading

variable {st : State} {β : Type}

lemma widen_code {s : Span} {n : α} :
    Ends (widen c s n l) st (fun l' _ => ∃ rest, l'.code = l.code ++ rest) := by
  unfold widen
  split
  · exact .bind (.newReg (.pure ⟨_, rfl⟩))
  · exact .pure ⟨[], (append_nil _).symm⟩

variable {s : Span} {n : α}

lemma Computed.reading (h : Computed c func env st xs l st') :
    ∃ rs, Reading c func env st xs rs l.code := by
  cases h with
  | @silent rs s i _ hrs hreads =>
    exact ⟨rs, ⟨_, hrs⟩, ⟨s, i⟩, [], rfl, fun r hr => (hreads.uses _ hr).resolve_right nofun⟩
  | @value rs s i _ _ _ _ hrs hreads _ hrun =>
    obtain ⟨rest, hrest⟩ := widen_code.ok hrun
    rw [hrest, append_assoc]
    exact ⟨rs, ⟨_, hrs⟩, ⟨s, i⟩, rest, rfl, fun r hr => (hreads.uses _ hr).resolve_right nofun⟩

lemma reading_logical {op : BinaryOp} {x y : Expr α} (hop : op.isLogical = true) :
    Ends (lowerExpr c func env (.binary s n op x y)) st
      (fun l _ => ∃ rs, Reading c func env st [x] rs l.code) := by
  refine ends_value fun xc xv st1 hx => ?_
  -- The value of `x` is copied before the test, whatever the test is.
  have hcopy : ∀ d stop test cond st2, Ends (do
      let r ← needValue func y (← lowerExpr c func env y)
      widen c s n ⟨xc ++ [⟨x.span, .assign d xv⟩] ++ test ++ [⟨s, .jumpUnless cond stop⟩] ++ r.1 ++
        [⟨y.span, .assign d r.2⟩, ⟨s, .label stop⟩], some (.reg d)⟩) st2
      (fun l _ => ∃ rs, Reading c func env st [x] rs l.code) := by
    intro d stop test cond st2
    refine ends_value fun yc yv st3 _ => widen_code.mono ?_
    rintro l' _ ⟨rest, hl'⟩
    simp only [append_assoc] at hl'
    rw [hl']
    exact ⟨[(xc, xv)], ⟨st1, .cons hx .nil⟩, ⟨x.span, .assign d xv⟩, _,
      (congrArg (· ++ _) (append_nil xc)).symm, fun r hr => hr⟩
  cases op with
  | or => exact .bind (.newReg (hcopy _ _ [_] _ _))
  | and => exact hcopy _ _ [] _ _
  | _ => cases hop

/-- **Operands are computed in order, and then read.** -/
theorem lowerExpr_reading {e : Expr α} (he : operands c e ≠ []) :
    Ends (lowerExpr c func env e) st
      (fun l _ => ∃ rs, Reading c func env st (operands c e) rs l.code) := by
  have hread : operation? c e = some (operands c e) → Ends (lowerExpr c func env e) st
      (fun l _ => ∃ rs, Reading c func env st (operands c e) rs l.code) :=
    fun h => (lowerExpr_computed h).mono fun _ _ hl => hl.reading
  cases e with
  | binary s n op x y =>
    cases hop : op.isLogical with
    | true =>
      rw [operands, if_pos hop]
      exact reading_logical hop
    | false => exact hread (by simp [operation?, operands, hop])
  | call s n callee args =>
    refine hread ?_
    rw [operation?, operands]
    cases (c.note n).role <;> rfl
  | assign s n target value =>
    cases target with
    | field s' n' x name => exact hread rfl
    | index s' n' x i => exact hread rfl
    | _ => exact absurd rfl he
  | array s n es => exact hread rfl
  | index s n x i => exact hread rfl
  | struct s n type fs => exact hread rfl
  | lit s n v | var s n name | unary s n op x | cond s n test t e | block b | field s n x name
  | lambda s n params result b => exact absurd rfl he

end Reading

/-! ### Variables in sight -/

/-- The variables in sight and the state at the places that the lowering of a function comes to. -/
inductive Place (c : Context α) (func : Bytes) : Env → State → Prop where
  | start (params : List Param) : Place c func (paramEnv params) (.start params.length)
  | newReg {env st} (h : Place c func env st) :
      Place c func env { st with numVars := st.numVars + 1 }
  | newLabel {env st} (h : Place c func env st) :
      Place c func env { st with labels := ⟨st.labels.count + 1⟩ }
  /-- The variable of a loop is in a new register. -/
  | bind {env st} (h : Place c func env st) (x : Bytes) :
      Place c func ((x, st.numVars) :: env) { st with numVars := st.numVars + 1 }
  | expr {env st st' x l} (h : Place c func env st)
      (hrun : (lowerExpr c func env x).run st = .ok (l, st')) : Place c func env st'
  | block {env st st' b l} (h : Place c func env st)
      (hrun : (lowerBlock c func env b).run st = .ok (l, st')) : Place c func env st'
  | stmt {env env' st st' s code} (h : Place c func env st)
      (hrun : (lowerStmt c func env s).run st = .ok ((code, env'), st')) : Place c func env' st'

/-- Variables in sight are in registers of their own, which are taken. -/
structure Sighted (env : Env) (st : State) : Prop where
  taken : ∀ e ∈ env, e.2 < st.numVars
  distinct : (env.map Prod.snd).Nodup

namespace Sighted

variable {x : Bytes} {st : State} {r : Nat}

variable (henv : Sighted env st)

include henv

lemma inSight : InSight env st Set.univ :=
  fun e he => ⟨henv.taken e he, trivial⟩

lemma lookup_lt (hx : env.lookup x = some r) : r < st.numVars :=
  (henv.inSight.lookup hx).1

lemma name_eq {y : Bytes} (hx : env.lookup x = some r) (hy : env.lookup y = some r) : x = y := by
  have heq := inj_on_of_nodup_map henv.distinct (mem_of_lookup hx) (mem_of_lookup hy) rfl
  exact congrArg Prod.fst heq

lemma mono (hst : st.numVars ≤ st'.numVars) : Sighted env st' :=
  ⟨fun e he => (henv.taken e he).trans_le hst, henv.distinct⟩

lemma bind (x : Bytes) : Sighted ((x, st.numVars) :: env)
    { st with numVars := st.numVars + 1 } := by
  refine ⟨?_, ?_⟩
  · rintro e (_ | ⟨_, he⟩)
    · exact Nat.lt_succ_self _
    · exact Nat.lt_succ_of_lt (henv.taken e he)
  · rw [map_cons, nodup_cons]
    refine ⟨fun hmem => ?_, henv.distinct⟩
    obtain ⟨e, he, heq⟩ := mem_map.mp hmem
    exact absurd (henv.taken e he) (by omega)

omit henv in
lemma params (params : List Param) : Sighted (paramEnv params) (.start params.length) := by
  refine ⟨fun e he => (inSight_paramEnv params e he).1, ?_⟩
  have hregs : (paramEnv params).map Prod.snd = (range' 0 params.length).reverse := by
    rw [paramEnv, map_reverse, map_map, ← zipIdx_map_snd]
    rfl
  rw [hregs, nodup_reverse]
  exact nodup_range'

lemma expr {x : Expr α} (hrun : (lowerExpr c func env x).run st = .ok (l, st')) : Sighted env st' :=
  henv.mono ((exprMade c x henv.inSight).ok hrun).extent.grown.regs

lemma block {b : Block α} (hrun : (lowerBlock c func env b).run st = .ok (l, st')) :
    Sighted env st' :=
  henv.mono ((blockMade c b henv.inSight).ok hrun).extent.grown.regs

lemma stmt {s : Stmt α} {r : Code × Env} (hrun : (lowerStmt c func env s).run st = .ok (r, st')) :
    Sighted r.2 st' := by
  rcases (lowerStmt_env c func env s st).ok hrun with hsame | ⟨x, v, l, st1, hv, henv', rfl⟩
  · rw [hsame]
    exact henv.mono ((stmtMade c s henv.inSight).ok hrun).extent.grown.regs
  · rw [henv']
    exact (henv.expr hv).bind x

end Sighted

lemma Place.sighted {c : Context α} {func : Bytes} {env : Env} {st : State}
    (h : Place c func env st) : Sighted env st := by
  induction h with
  | start ps => exact .params ps
  | newReg _ ih => exact ih.mono (Nat.le_succ _)
  | newLabel _ ih => exact ih.mono (le_refl _)
  | bind _ x ih => exact ih.bind x
  | expr _ hrun ih => exact ih.expr hrun
  | block _ hrun ih => exact ih.block hrun
  | stmt _ hrun ih => exact ih.stmt hrun

/-! ### What later operands write -/

/-- The code of an expression writes what an earlier operand is only if that operand is a variable
that the expression assigns. -/
def Spares (env : Env) (x : Expr α) (v : Operand) (y : Expr α) (code : Code) : Prop :=
  ∀ i ∈ code, ∀ r, i.val.dst? = some r → v = .reg r →
    ∃ name ∈ yields x, name ∈ assigns y ∧ env.lookup name = some r

section Writes

variable {st : State}

lemma Lowers.writes (h : Lowers c func env st xs rs st') (henv : Sighted env st) :
    ∀ p ∈ xs.zip rs, ∀ i ∈ p.2.1, ∀ r, i.val.dst? = some r →
      st.numVars ≤ r ∨ r ∈ regsOf env (assigns p.1) := by
  induction h with
  | nil => exact nofun
  | @cons st st1 st' x xs code v rs hx _ ih =>
    have hmade := (exprMade c x henv.inSight).ok hx
    have hgrown := hmade.extent.grown.regs
    rintro p (_ | ⟨_, hp⟩) i hi r hr
    · exact (hmade.extent.piece.writes i hi r hr).imp_left fun hnew => hnew.1
    · exact (ih (henv.mono hgrown) p hp i hi r hr).imp_left fun hle => hgrown.trans hle

lemma Lowers.spares (h : Lowers c func env st xs rs st') (henv : Sighted env st) :
    (xs.zip rs).Pairwise fun p q => Spares env p.1 p.2.2 q.1 q.2.1 := by
  induction h with
  | nil => exact .nil
  | @cons st st1 st' x xs code v rs hx hxs ih =>
    have hmade := (exprMade c x henv.inSight).ok hx
    have henv1 := henv.mono hmade.extent.grown.regs
    refine .cons ?_ (ih henv1)
    rintro q hq i hi r hr rfl
    -- What `x` is has a number below those taken after it, so it can only be an assigned variable.
    have hlt : r < st1.numVars := by
      rcases hmade.source r rfl with hnew | ⟨name, -, hname⟩
      · exact hnew.2
      · exact henv1.lookup_lt hname
    obtain ⟨name, hassigned, hname⟩ : r ∈ regsOf env (assigns q.1) :=
      (hxs.writes henv1 q hq i hi r hr).resolve_left (not_le.mpr hlt)
    obtain ⟨name', hyields, hname'⟩ : r ∈ regsOf env (yields x) :=
      (hmade.source r rfl).resolve_left fun hnew =>
        absurd hnew.1 (not_le.mpr (henv.lookup_lt hname))
    obtain rfl := henv.name_eq hname hname'
    exact ⟨name, hyields, hassigned, hname⟩

/-- **Operands are kept until they are read, unless a later operand assigns the variable that an
earlier one is.**  The code of an expression with operands is their code in order, and then an
instruction that reads what they have become; the code of a later operand writes the register of an
earlier one only if that is a variable, perhaps in blocks, and the later one assigns it. -/
theorem operands_kept {e : Expr α} {l : Lowered} (hplace : Place c func env st)
    (hrun : (lowerExpr c func env e).run st = .ok (l, st')) (he : operands c e ≠ []) :
    ∃ rs st₁ i rest, Lowers c func env st (operands c e) rs st₁ ∧
      l.code = (rs.map Prod.fst).flatten ++ i :: rest ∧
      (∀ r, .reg r ∈ i.val.uses → .reg r ∈ rs.map Prod.snd) ∧
      ((operands c e).zip rs).Pairwise fun p q => Spares env p.1 p.2.2 q.1 q.2.1 := by
  obtain ⟨rs, ⟨st₁, hrs⟩, i, rest, hcode, hreads⟩ := (lowerExpr_reading he).ok hrun
  exact ⟨rs, st₁, i, rest, hrs, hcode, hreads, hrs.spares hplace.sighted⟩

end Writes

/-- Two parameters `a` and `b`, which are integers. -/
def twoParams : List Param :=
  [⟨.none, ⟨.none, "a"⟩, .named .none "int"⟩, ⟨.none, ⟨.none, "b"⟩, .named .none "int"⟩]

/-- The sum of `a` and a block that assigns `b` and has its value. -/
def sum : Expr Unit :=
  .binary .none () .add (.var .none () "a") (.block (.mk .none ()
    [.expr (.assign .none () (.var .none () "b") (.lit .none () (.int 2)))]
    (some (.var .none () "b"))))

/-- The operand `a` is kept while the block assigns `b`. -/
theorem operands_kept_sum : ∃ l st',
    (lowerExpr ⟨fun _ => .blank, [], []⟩ "f" (paramEnv twoParams) sum).run (.start 2) =
      .ok (l, st') ∧
    ∃ rs i rest, l.code = (rs.map Prod.fst).flatten ++ i :: rest ∧
      (∀ r, .reg r ∈ i.val.uses → .reg r ∈ rs.map Prod.snd) ∧
      ((operands ⟨fun _ => .blank, [], []⟩ sum).zip rs).Pairwise fun p q =>
        Spares (paramEnv twoParams) p.1 p.2.2 q.1 q.2.1 := by
  obtain ⟨l, st', hrun⟩ : ∃ l st',
      (lowerExpr ⟨fun _ => .blank, [], []⟩ "f" (paramEnv twoParams) sum).run (.start 2) =
        .ok (l, st') := ⟨_, _, rfl⟩
  obtain ⟨rs, -, i, rest, -, hcode, hreads, hspares⟩ :=
    operands_kept (.start twoParams) hrun (List.cons_ne_nil _ _)
  exact ⟨l, st', hrun, rs, i, rest, hcode, hreads, hspares⟩

end Lowering

/-- A program with a sum whose second operand assigns the variable that the first one is. -/
def reassigning : Bytes :=
  "fn main() -> int \x7b let x = 1; x + \x7b x = 2; 10 \x7d \x7d"

/-- The instructions of its main function. -/
def reassigningCode : List Instr :=
  [.assign 0 (.lit (.int 1)), .assign 0 (.lit (.int 2)),
    .binary 1 (.known .add) (.reg 0) (.lit (.int 10)), .ret (some (.reg 1))]

/-- **An operand may be assigned before it is read.**  The sum in `reassigning` adds the new value
of its first operand: it is 12, and from left to right it would be 11. -/
theorem run_reassigning : ∃ tree package p, parse reassigning = .ok tree ∧
    Typing.checkProgram tree = .ok package ∧ lower package = .ok p ∧
    (p.funcs.map fun f => f.body.map Located.val) = [reassigningCode] ∧
    (run p 100 10).outcome = .halted (.int 12) := by
  obtain ⟨tree, package, htree, hcheck, htest⟩ :=
    @Package.of_any_ofText? reassigning (fun package =>
    (lowered? package).any fun fs => (fs.map fun f => f.body.map Located.val) ==
      [reassigningCode] &&
      (run ⟨fs⟩ 100 10).outcome.value? == some (.int 12)) (by decide +kernel)
  obtain ⟨fs, hfs, htest⟩ := (Option.any_eq_true _ _).mp htest
  obtain ⟨hcode, hrun⟩ := Bool.and_eq_true_iff.mp htest
  exact ⟨tree, package, ⟨fs⟩, htree, hcheck, lower_of_lowered? hfs, eq_of_beq hcode,
    Machine.Outcome.eq_halted (eq_of_beq hrun)⟩

end Tac

end Minilang
