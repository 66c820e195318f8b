import Minilang.Proofs.Tac.Extents
import Minilang.Proofs.Tree.Sight

/-!
# Operations

Most expressions become the code of their operands, from left to right, and then one instruction
that reads what these have become.  The others are variables, literals and the forms with control
flow.
-/

namespace Minilang.Tac.Lowering

open List

variable {α : Type}

/-- Expressions that are lowered one after the other, each to code and an operand. -/
inductive Lowers (c : Context α) (func : Bytes) (env : Env) :
    State → List (Expr α) → List (Code × Operand) → State → Prop where
  | nil {st} : Lowers c func env st [] [] st
  | cons {st st1 st' x xs code v rs}
      (hx : (lowerExpr c func env x).run st = .ok (⟨code, some v⟩, st1))
      (hxs : Lowers c func env st1 xs rs st') :
      Lowers c func env st (x :: xs) ((code, v) :: rs) st'

/-- The operands of an operation, in the order in which they are computed. -/
def operation? (c : Context α) : Expr α → Option (List (Expr α))
  | .binary _ _ op x y => if op.isLogical then none else some [x, y]
  | .unary _ _ _ x => some [x]
  | .call _ n callee args =>
    match (c.note n).role with
    | .plain => some (callee :: args)
    | _ => some args
  | .assign _ _ (.field _ _ x _) v => some [x, v]
  | .assign _ _ (.index _ _ x i) v => some [x, i, v]
  | .field _ n x _ =>
    match (c.note n).role with
    | .variant _ => some []
    | _ => some [x]
  | .array _ _ es => some es
  | .index _ _ x i => some [x, i]
  | .struct _ _ _ fs => some (fs.map FieldValue.value)
  | _ => none

/-- An instruction without labels that reads nothing but operands. -/
structure Reads (rs : List (Code × Operand)) (i : Instr) : Prop where
  label : i.label? = none
  target : i.target? = none
  uses : ∀ v ∈ i.uses, v ∈ rs.map Prod.snd ∨ v = .missing

/-- What an operation becomes.  The instruction that reads the operands writes nothing, or it writes
a new register, which is the value of the operation unless that is converted. -/
inductive Computed (c : Context α) (func : Bytes) (env : Env) (st : State) (xs : List (Expr α)) :
    Lowered → State → Prop where
  | silent {rs s i st'}
      (lowers : Lowers c func env st xs rs st') (reads : Reads rs i) (hdst : i.dst? = none) :
      Computed c func env st xs ⟨(rs.map Prod.fst).flatten ++ [⟨s, i⟩], none⟩ st'
  | value {rs s i n l st1 st'} (lowers : Lowers c func env st xs rs st1) (reads : Reads rs i)
      (hdst : i.dst? = some st1.numVars)
      (hrun : (widen c s n ⟨(rs.map Prod.fst).flatten ++ [⟨s, i⟩], some (.reg st1.numVars)⟩).run
        { st1 with numVars := st1.numVars + 1 } = .ok (l, st')) :
      Computed c func env st xs l st'

variable {c : Context α} {func : Bytes} {env : Env} {st st1 : State} {xs : List (Expr α)}
  {rs : List (Code × Operand)} {code : Code} {s : Span} {n : α}

lemma lowerValues_lowers (xs : List (Expr α)) (st : State) :
    Ends (lowerValues c func env [] [] xs) st (fun r st' => ∃ rs, Lowers c func env st xs rs st' ∧
      r = ((rs.map Prod.fst).flatten, rs.map Prod.snd)) := by
  induction xs generalizing st with
  | nil =>
    exact .pure ⟨[], .nil, rfl⟩
  | cons x xs ih =>
    rw [lowerValues_cons]
    refine ends_value fun code v st1 hx => .chain (ih st1) ?_
    rintro _ st2 ⟨rs, hrs, rfl⟩
    exact .pure ⟨(code, v) :: rs, .cons hx hrs, rfl⟩

lemma lowerFields_lowers (fs : List (FieldValue α)) (st : State) :
    Ends (lowerFields c func env [] [] fs) st (fun r st' => ∃ rs,
      Lowers c func env st (fs.map FieldValue.value) rs st' ∧ r.1 = (rs.map Prod.fst).flatten ∧
        ∀ e ∈ r.2, e.2 ∈ rs.map Prod.snd) := by
  induction fs generalizing st with
  | nil =>
    exact .pure ⟨[], .nil, rfl, nofun⟩
  | cons f fs ih =>
    obtain ⟨s, name, x⟩ := f
    rw [lowerFields_cons]
    refine ends_value fun code v st1 hx => .chain (ih st1) ?_
    rintro ⟨code', set⟩ st2 ⟨rs, hrs, rfl, hset⟩
    refine .pure ⟨(code, v) :: rs, .cons hx hrs, rfl, fun e he => ?_⟩
    rcases mem_append.mp he with he | he
    · exact mem_cons_of_mem _ (hset e he)
    · rw [mem_singleton.mp he]
      exact mem_cons_self

lemma Computed.done {i : Instr} (hrs : Lowers c func env st xs rs st1)
    (hcode : code = (rs.map Prod.fst).flatten) (hreads : Reads rs i) (hdst : i.dst? = none) :
    Ends (pure ⟨code ++ [⟨s, i⟩], none⟩ : M Lowered) st1
      (fun l st' => Computed c func env st xs l st') := by
  rw [hcode]
  exact .pure (.silent hrs hreads hdst)

lemma Computed.result {instr : Nat → Instr} (hrs : Lowers c func env st xs rs st1)
    (hcode : code = (rs.map Prod.fst).flatten) (hreads : ∀ d, Reads rs (instr d))
    (hdst : ∀ d, (instr d).dst? = some d) :
    Ends (do
      let d ← newReg
      widen c s n ⟨code ++ [⟨s, instr d⟩], some (.reg d)⟩) st1
      (fun l st' => Computed c func env st xs l st') := by
  rw [hcode]
  exact .bind (.newReg (.of_run (fun l st' hrun => .value hrs (hreads _) (hdst _) hrun)
    fun _ _ => trivial))

lemma call_computed {callee : Expr α} {args : List (Expr α)}
    (he : operation? c (.call s n callee args) = some xs) :
    Ends (lowerExpr c func env (.call s n callee args)) st
      (fun l st' => Computed c func env st xs l st') := by
  rw [operation?] at he
  rw [lowerExpr]
  cases hrole : (c.note n).role with
  | builtin b =>
    rw [hrole] at he
    obtain rfl : args = xs := Option.some.inj he
    refine .chain (lowerValues_lowers args st) ?_
    rintro _ st1 ⟨rs, hrs, rfl⟩
    have hhead : (rs.map Prod.snd).headD .missing ∈ rs.map Prod.snd ∨
        (rs.map Prod.snd).headD .missing = .missing := by
      cases rs with
      | nil => exact .inr rfl
      | cons r rs => exact .inl mem_cons_self
    cases b with
    | print => exact Computed.done hrs rfl ⟨rfl, rfl, forall_mem_singleton.mpr hhead⟩ rfl
    | len =>
      exact Computed.result hrs rfl (fun _ => ⟨rfl, rfl, forall_mem_singleton.mpr hhead⟩) fun _ =>
        rfl
  | variant v =>
    rw [hrole] at he
    obtain rfl : args = xs := Option.some.inj he
    refine .chain (lowerValues_lowers args st) ?_
    rintro _ st1 ⟨rs, hrs, rfl⟩
    simp only [variantRecord, bind_assoc]
    exact Computed.result hrs rfl (fun _ => ⟨rfl, rfl, fun _ => .inl⟩) fun _ => rfl
  | plain =>
    rw [hrole] at he
    cases he
    refine ends_value fun fc fv st1 hf => .chain (lowerValues_lowers args st1) ?_
    rintro _ st2 ⟨rs, hrs, rfl⟩
    refine Computed.result (.cons hf hrs) rfl (fun d => ⟨rfl, rfl, fun v hv => .inl ?_⟩) fun _ =>
      rfl
    simpa [Instr.uses, or_comm] using hv

lemma struct_computed {type : Name} {fs : List (FieldValue α)} :
    Ends (lowerExpr c func env (.struct s n type fs)) st
      (fun l st' => Computed c func env st (fs.map FieldValue.value) l st') := by
  have hstruct : Ends (structOf c func s n) st (fun _ st' => st' = st) := by
    unfold structOf
    split
    · exact .throw trivial
    · split
      · exact .pure rfl
      · exact .throw trivial
  refine .chain hstruct ?_
  rintro r _ rfl
  refine .chain (lowerFields_lowers fs _) ?_
  rintro ⟨code, set⟩ st2 ⟨rs, hrs, rfl, hset⟩
  refine Computed.result hrs rfl (fun d => ⟨rfl, rfl, fun v hv => ?_⟩) fun _ => rfl
  obtain ⟨name, -, rfl⟩ := mem_map.mp hv
  cases hlookup : set.lookup name with
  | none => exact .inr rfl
  | some v => exact .inl (hset (name, v) (mem_of_lookup hlookup))

lemma field_computed {x : Expr α} {name : Name} (he : operation? c (.field s n x name) = some xs) :
    Ends (lowerExpr c func env (.field s n x name)) st
      (fun l st' => Computed c func env st xs l st') := by
  rw [operation?] at he
  rw [lowerExpr]
  cases hrole : (c.note n).role with
  | variant v =>
    rw [hrole] at he
    cases he
    simp only [variantRecord, bind_assoc]
    exact Computed.result .nil rfl (fun _ => ⟨rfl, rfl, fun _ => .inl⟩) fun _ => rfl
  | plain | builtin _ =>
    rw [hrole] at he
    cases he
    exact ends_value fun xc xv st1 hx =>
      Computed.result (.cons hx .nil) (by simp) (fun _ => ⟨rfl, rfl, fun _ => .inl⟩) fun _ => rfl

/-- **Operands are computed in order, and then one instruction reads them.** -/
theorem lowerExpr_computed {e : Expr α} (he : operation? c e = some xs) :
    Ends (lowerExpr c func env e) st (fun l st' => Computed c func env st xs l st') := by
  cases e with
  | binary s n op x y =>
    rw [operation?] at he
    split at he
    · cases he
    · rename_i hop
      cases he
      refine ends_value fun xc xv st1 hx => ?_
      simp only [hop]
      exact ends_value fun yc yv st2 hy => Computed.result (.cons hx (.cons hy .nil)) (by simp)
        (fun _ => ⟨rfl, rfl, fun _ => .inl⟩) fun _ => rfl
  | unary s n op x =>
    cases he
    exact ends_value fun xc xv st1 hx =>
      Computed.result (.cons hx .nil) (by simp) (fun _ => ⟨rfl, rfl, fun _ => .inl⟩) fun _ => rfl
  | call s n callee args => exact call_computed he
  | assign s n target value =>
    cases target with
    | field s' n' x name =>
      cases he
      exact ends_value fun xc xv st1 hx => ends_value fun yc yv st2 hy =>
        Computed.done (.cons hx (.cons hy .nil)) (by simp) ⟨rfl, rfl, fun _ => .inl⟩ rfl
    | index s' n' x i =>
      cases he
      exact ends_value fun xc xv st1 hx => ends_value fun ic iv st2 hi =>
        ends_value fun yc yv st3 hy => Computed.done (.cons hx (.cons hi (.cons hy .nil))) (by simp)
          ⟨rfl, rfl, fun _ => .inl⟩ rfl
    | _ => cases he
  | field s n x name => exact field_computed he
  | array s n es =>
    obtain rfl : es = xs := Option.some.inj he
    refine .chain (lowerValues_lowers es st) ?_
    rintro _ st1 ⟨rs, hrs, rfl⟩
    exact Computed.result hrs rfl (fun _ => ⟨rfl, rfl, fun _ => .inl⟩) fun _ => rfl
  | index s n x i =>
    cases he
    exact ends_value fun xc xv st1 hx => ends_value fun ic iv st2 hi =>
      Computed.result (.cons hx (.cons hi .nil)) (by simp)
        (fun _ => ⟨rfl, rfl, fun _ => .inl⟩) fun _ => rfl
  | struct s n type fs =>
    cases he
    exact struct_computed
  | lit s n v | var s n name | cond s n test t e | block b | lambda s n params result b => cases he

end Minilang.Tac.Lowering
