import Minilang.Proofs.Collection.OrderedMap
import Minilang.Proofs.Outcomes
import Minilang.Proofs.Tac.Acceptance
import Minilang.Proofs.Token.Spelling

/-!
# The extent of a lowering

A lowering goes from state to state, and each state has more registers, labels and functions than
the one before.  The code that it makes between two states is a piece of its own: it writes
registers that are new, or those of variables in sight that the tree assigns; its labels are new;
and its jumps stay inside.  `Extent` says so, and extents follow one another as the lowerings do.

The functions come from function literals.  A literal is named after the function around it, which
has a counter of its own for its literals, so its name is that of the declared function followed by
the numbers of the literals around it (`pathText`).  Since numbers have digits only, it can be read
back.

The registers of assigned variables are given by name: `assigns` has the variables that a tree
assigns and does not bind itself.
-/

namespace Minilang

/-! ### Assigned variables -/

variable {α β : Type} {func : Bytes} {st : State} {names names' : List Bytes} {fs : List Func}
  {l : Lowered}

section Assigned

/-- The name of a variable. -/
@[simp] def Expr.varName : Expr α → List Bytes
  | .var _ _ x => [x]
  | _ => []

/-- The variables that a statement binds for those after it. -/
@[simp] def Stmt.bound : Stmt α → List Bytes
  | .letVar _ x _ _ => [x.text]
  | _ => []

/-- The variables that statements bind for what follows them. -/
def boundBy (ss : List (Stmt α)) : List Bytes :=
  ss.flatMap Stmt.bound

/-- The names that are not bound. -/
def without (bound names : List Bytes) : List Bytes :=
  names.filter (· ∉ bound)

mutual

/-- The variables that an expression assigns and does not bind. -/
@[simp] def assigns : Expr α → List Bytes
  | .lit .. | .var .. | .lambda .. => []
  | .binary _ _ _ x y => assigns x ++ assigns y
  | .unary _ _ _ x => assigns x
  | .call _ _ callee args => assigns callee ++ assignsAll args
  | .cond _ _ test t none => assigns test ++ assignsBlock t
  | .cond _ _ test t (some e) => assigns test ++ assignsBlock t ++ assigns e
  | .block b => assignsBlock b
  | .assign _ _ target value => target.varName ++ assigns target ++ assigns value
  | .field _ _ x _ => assigns x
  | .array _ _ es => assignsAll es
  | .index _ _ x i => assigns x ++ assigns i
  | .struct _ _ _ fs => assignsFields fs

/-- The variables that expressions assign. -/
@[simp] def assignsAll : List (Expr α) → List Bytes
  | [] => []
  | x :: xs => assigns x ++ assignsAll xs

/-- The variables that the values of fields assign. -/
@[simp] def assignsFields : List (FieldValue α) → List Bytes
  | [] => []
  | .mk _ _ x :: fs => assigns x ++ assignsFields fs

/-- The variables that a block assigns and does not bind. -/
@[simp] def assignsBlock : Block α → List Bytes
  | .mk _ _ ss none => assignsStmts ss
  | .mk _ _ ss (some x) => assignsStmts ss ++ without (boundBy ss) (assigns x)

/-- The variables that a statement assigns. -/
@[simp] def assignsStmt : Stmt α → List Bytes
  | .letVar _ _ _ v => assigns v
  | .ret _ none => []
  | .ret _ (some x) => assigns x
  | .loop _ test b => assigns test ++ assignsBlock b
  | .forRange _ x a z b => assigns a ++ assigns z ++ without [x.text] (assignsBlock b)
  | .forEach _ x a b => assigns a ++ without [x.text] (assignsBlock b)
  | .expr x => assigns x

/-- The variables that statements assign and do not bind. -/
@[simp] def assignsStmts : List (Stmt α) → List Bytes
  | [] => []
  | s :: ss => assignsStmt s ++ without s.bound (assignsStmts ss)

end

mutual

/-- The variable whose value an expression has without computing anything. -/
@[simp] def yields : Expr α → List Bytes
  | .var _ _ x => [x]
  | .block b => yieldsBlock b
  | _ => []

/-- The variable whose value a block has, unless the block binds it. -/
@[simp] def yieldsBlock : Block α → List Bytes
  | .mk _ _ ss (some x) => without (boundBy ss) (yields x)
  | .mk _ _ _ none => []

end

end Assigned

/-! ### Paths to function literals -/

namespace Tac.Lowering

/-- What the name of a function literal has behind that of the declared function: the numbers of the
literals around it, the outermost first, and its own. -/
def pathText : List Nat → Bytes
  | [] => []
  | k :: path => Bytes.concat ["$lambda", ".", Decimal.ofNat k] ++ pathText path

variable {path path' : List Nat} {x y : Bytes}

lemma head?_pathText (path : List Nat) : ∀ b ∈ (pathText path).head?, b = 36 := by
  cases path with
  | nil => simp [pathText]
  | cons k path => exact fun b hb => (Option.some.inj hb).symm

lemma append_pathText {q : UInt8 → Bool} (hq : q 36 = false) (hx : ∀ b ∈ x, q b = true)
    (hy : ∀ b ∈ y, q b = true) (h : x ++ pathText path = y ++ pathText path') :
    x = y ∧ pathText path = pathText path' := by
  have hcut := Lexer.takeWhile_append hx fun b hb => head?_pathText path b hb ▸ hq
  have hcut' := Lexer.takeWhile_append hy fun b hb => head?_pathText path' b hb ▸ hq
  rw [h] at hcut
  exact ⟨hcut.1.symm.trans hcut'.1, hcut.2.symm.trans hcut'.2⟩

lemma pathText_injective (h : pathText path = pathText path') : path = path' := by
  induction path generalizing path' with
  | nil =>
    cases path' with
    | nil => rfl
    | cons k path' => cases h
  | cons k path ih =>
    cases path' with
    | nil => cases h
    | cons k' path' =>
      simp only [pathText, Bytes.concat, List.flatten_cons, List.append_assoc,
        List.append_cancel_left_eq] at h
      obtain ⟨hk, hpath⟩ := append_pathText (by decide) (Decimal.ofNat_all_isDigit k)
        (Decimal.ofNat_all_isDigit k') h
      rw [Decimal.ofNat_injective hk, ih hpath]

/-- Different names of function literals, below those in a function that have the numbers from `lo`
to `hi`. -/
structure Below (func : Bytes) (lo hi : Nat) (names : List Bytes) : Prop where
  nodup : names.Nodup
  path : ∀ x ∈ names, ∃ k path, lo ≤ k ∧ k < hi ∧ x = func ++ pathText (k :: path)

lemma Below.append {lo mid hi : Nat} (h : Below func lo mid names)
    (h' : Below func mid hi names') (hlo : lo ≤ mid) (hhi : mid ≤ hi) :
    Below func lo hi (names' ++ names) := by
  refine ⟨h'.nodup.append h.nodup fun x hx' hx => ?_, fun x hx => ?_⟩
  · obtain ⟨k, path, -, hk, rfl⟩ := h.path x hx
    obtain ⟨k', path', hk', -, heq⟩ := h'.path _ hx'
    obtain ⟨rfl, -⟩ := List.cons.inj (pathText_injective (List.append_cancel_left heq))
    omega
  · rcases List.mem_append.mp hx with hx | hx
    · obtain ⟨k, path, hk, hk', rfl⟩ := h'.path x hx
      exact ⟨k, path, hlo.trans hk, hk', rfl⟩
    · obtain ⟨k, path, hk, hk', rfl⟩ := h.path x hx
      exact ⟨k, path, hk, hk'.trans_le hhi, rfl⟩

/-- A literal and those in it. -/
theorem Below.literal {k count : Nat} (h : Below (func ++ pathText [k]) 0 count names) :
    Below func k (k + 1) (names ++ [func ++ pathText [k]]) := by
  have hpath : ∀ path, func ++ pathText [k] ++ pathText path = func ++ pathText (k :: path) := by
    simp [pathText]
  refine ⟨h.nodup.append (List.nodup_singleton _) fun x hx hx' => ?_, List.forall_mem_append.mpr
    ⟨fun x hx => ?_, List.forall_mem_singleton.mpr ⟨k, [], le_refl k, k.lt_succ_self, rfl⟩⟩⟩
  · obtain ⟨k', path, -, -, rfl⟩ := h.path x hx
    cases List.append_right_eq_self.mp (List.mem_singleton.mp hx')
  · obtain ⟨k', path, -, -, rfl⟩ := h.path x hx
    exact ⟨k, k' :: path, le_refl k, k.lt_succ_self, hpath _⟩

end Tac.Lowering

/-! ### How a lowering ends -/

namespace Ends

open Tac.Lowering

open Tac (Code Func LowerError Lowered Operand)

variable {γ : Type} {E : Located LowerError → Prop} {Q : Bytes → State → Prop}

lemma newReg {Q : Nat → State → Prop} (h : Q st.numVars { st with numVars := st.numVars + 1 }) :
    Ends newReg st Q E := h

lemma newLabel {stem : Bytes} (h : Q (Bytes.concat [stem, ".", Decimal.ofNat st.labels.count])
      { st with labels := ⟨st.labels.count + 1⟩ }) :
    Ends (newLabel stem) st Q E := h

lemma newLambda (h : Q (func ++ pathText [st.lambdas.count])
      { st with lambdas := ⟨st.lambdas.count + 1⟩ }) : Ends (newLambda func) st Q E := by
  have hname : Bytes.concat [Bytes.concat [func, "$lambda"], ".", Decimal.ofNat st.lambdas.count] =
      func ++ pathText [st.lambdas.count] := by simp [pathText, Bytes.concat]
  rw [← hname] at h
  exact h

lemma addNested {Q : Unit → State → Prop}
    (h : Q () { st with nested := fs.reverse ++ st.nested }) : Ends (addNested fs) st Q E := h

lemma lift {m : Except (Located LowerError) β} {f : β → M γ} {Q : γ → State → Prop}
    (hok : ∀ a, m = .ok a → Ends (f a) st Q E) (herror : ∀ e, m = .error e → E e) :
    Ends (liftM m >>= f) st Q E := by
  cases m with
  | ok a => exact hok a rfl
  | error e => exact herror e rfl

lemma needValue {x : Expr α} {Q : Code × Operand → State → Prop}
    (hsome : ∀ v, l.value? = some v → Q (l.code, v) st)
    (hnone : l.value? = none → E ⟨x.span, func, .noValue x.text⟩) :
    Ends (needValue func x l) st Q E := by
  unfold Tac.Lowering.needValue
  split
  · rename_i v hv
    exact pure (hsome v hv)
  · rename_i hv
    exact throw (hnone hv)

end Ends

namespace Tac.Lowering

variable {st' st1 st2 : State} {c : Context α} {env : Env} {S W : Set Nat} {xs ys : Code}
  {J : Set Bytes}

section Parts

lemma ends_value {x : Expr α} {f : Code × Operand → M β} {Q : β → State → Prop}
    (hf : ∀ code v st1, (lowerExpr c func env x).run st = .ok (⟨code, some v⟩, st1) →
      Ends (f (code, v)) st1 Q) :
    Ends (lowerExpr c func env x >>= fun l => needValue func x l >>= f) st Q := by
  refine .run fun l st1 hrun => .bind (.needValue (fun v hv => ?_) fun _ => trivial)
  obtain ⟨code, v?⟩ := l
  cases hv
  exact hf code v st1 hrun

lemma lowerStmt_env (c : Context α) (func : Bytes) (env : Env) (s : Stmt α) (st : State) :
    Ends (lowerStmt c func env s) st (fun r st' => r.2 = env ∨ ∃ x v l st1,
      (lowerExpr c func env v).run st = .ok (l, st1) ∧ r.2 = (x, st1.numVars) :: env ∧
        st' = { st1 with numVars := st1.numVars + 1 }) := by
  have hblock : ∀ {env' : Env} {b : Block α} {f : Lowered → Code} {st : State}
      {Q : Code × Env → State → Prop}, (∀ r st', r.2 = env → Q r st') →
      Ends (lowerBlock c func env' b >>= fun l => pure (f l, env)) st Q := by
    intro env' b f st Q hQ
    exact .run fun _ _ _ => .pure (hQ _ _ rfl)
  cases s with
  | letVar s x type v =>
    rw [lowerStmt]
    exact ends_value fun vc v' st1 hv =>
      .bind (.newReg (.pure (.inr ⟨x.text, v, _, st1, hv, rfl, rfl⟩)))
  | ret s x =>
    cases x with
    | none =>
      rw [lowerStmt]
      exact .pure (.inl rfl)
    | some x =>
      rw [lowerStmt]
      exact ends_value fun xc v st1 _ => .pure (.inl rfl)
  | loop s test b =>
    rw [lowerStmt]
    exact .bind (.newLabel (.bind (.newLabel (ends_value fun tc tv st1 _ =>
      hblock fun _ _ h => .inl h))))
  | forRange s x a z b =>
    rw [lowerStmt]
    exact ends_value fun ac av st1 _ => ends_value fun zc zv st2 _ =>
      .bind (.newReg (.bind (.newReg (.bind (.newLabel (.bind (.newLabel
        (.bind (.newReg (.bind (.newReg (hblock fun _ _ h => .inl h))))))))))))
  | forEach s x a b =>
    rw [lowerStmt]
    exact ends_value fun ac av st1 _ =>
      .bind (.newReg (.bind (.newReg (.bind (.newReg (.bind (.newLabel (.bind (.newLabel
        (.bind (.newReg (.bind (.newReg (hblock fun _ _ h => .inl h))))))))))))))
  | expr x =>
    rw [lowerStmt]
    exact .run fun _ _ _ => .pure (.inl rfl)

end Parts

/-! ### Lists of expressions and statements -/

section Lists

variable (c : Context α) (func : Bytes) (env : Env) (code : List Code)

lemma lowerValues_append (vs : List Operand) (xs : List (Expr α)) :
    lowerValues c func env code vs xs = (do
      let (code', vs') ← lowerValues c func env [] [] xs
      return (code.reverse.flatten ++ code', vs.reverse ++ vs')) := by
  induction xs generalizing code vs with
  | nil => simp [lowerValues]
  | cons x xs ih =>
    simp only [lowerValues, bind_assoc]
    refine bind_congr fun l => bind_congr fun r => ?_
    rw [ih (r.1 :: code) (r.2 :: vs), ih [r.1] [r.2]]
    simp

lemma lowerValues_cons (x : Expr α) (xs : List (Expr α)) :
    lowerValues c func env [] [] (x :: xs) = (do
      let (xc, v) ← needValue func x (← lowerExpr c func env x)
      let (code, vs) ← lowerValues c func env [] [] xs
      return (xc ++ code, v :: vs)) := by
  simp only [lowerValues]
  refine bind_congr fun l => bind_congr fun r => ?_
  rw [lowerValues_append]
  simp

lemma lowerFields_append (set : List (Bytes × Operand)) (fs : List (FieldValue α)) :
    lowerFields c func env code set fs = (do
      let (code', set') ← lowerFields c func env [] [] fs
      return (code.reverse.flatten ++ code', set' ++ set)) := by
  induction fs generalizing code set with
  | nil => simp [lowerFields]
  | cons f fs ih =>
    obtain ⟨s, name, x⟩ := f
    simp only [lowerFields, bind_assoc]
    refine bind_congr fun l => bind_congr fun r => ?_
    rw [ih (r.1 :: code) ((name.text, r.2) :: set), ih [r.1] [(name.text, r.2)]]
    simp

lemma lowerFields_cons (s : Span) (name : Name) (x : Expr α) (fs : List (FieldValue α)) :
    lowerFields c func env [] [] (.mk s name x :: fs) = (do
      let (xc, v) ← needValue func x (← lowerExpr c func env x)
      let (code, set) ← lowerFields c func env [] [] fs
      return (xc ++ code, set ++ [(name.text, v)])) := by
  simp only [lowerFields]
  refine bind_congr fun l => bind_congr fun r => ?_
  rw [lowerFields_append]
  simp

lemma lowerStmts_append (ss : List (Stmt α)) : lowerStmts c func env code ss = (do
      let (code', env') ← lowerStmts c func env [] ss
      return (code.reverse.flatten ++ code', env')) := by
  induction ss generalizing env code with
  | nil => simp [lowerStmts]
  | cons s ss ih =>
    simp only [lowerStmts, bind_assoc]
    refine bind_congr fun r => ?_
    rw [ih r.2 (r.1 :: code), ih r.2 [r.1]]
    simp

lemma lowerStmts_cons (s : Stmt α) (ss : List (Stmt α)) :
    lowerStmts c func env [] (s :: ss) = (do
      let (sc, env) ← lowerStmt c func env s
      let (code, env) ← lowerStmts c func env [] ss
      return (sc ++ code, env)) := by
  simp only [lowerStmts]
  refine bind_congr fun r => ?_
  rw [lowerStmts_append]
  simp

/-! ### Conditionals -/

/-- The code of a conditional whose value goes to a register. -/
def condCode (s test thenSpan elseSpan : Span) (tc : Code) (tv : Operand) (other stop : Bytes)
    (t' e' : Lowered) (d : Nat) : Code :=
  tc ++ [⟨test, .jumpUnless tv other⟩] ++ branch thenSpan d t' ++
    [⟨thenSpan, .jump stop⟩, ⟨s, .label other⟩] ++ branch elseSpan d e' ++ [⟨s, .label stop⟩]

lemma condCode_of_none {tc : Code} {tv : Operand} {other stop : Bytes} {t' e' : Lowered}
    {s1 s2 s3 s4 : Span} (ht : t'.value? = none) (he : e'.value? = none) (d d' : Nat) :
    condCode s1 s2 s3 s4 tc tv other stop t' e' d =
      condCode s1 s2 s3 s4 tc tv other stop t' e' d' := by
  simp [condCode, branch, ht, he]

/-- What is left of a conditional after its branches. -/
def finishCond (s : Span) (n : α) (code : Nat → Code) (t' e' : Lowered) : M Lowered :=
  match t'.value?, e'.value? with
  | none, none => return ⟨code 0, none⟩
  | _, _ => do
    let d ← newReg
    widen c s n ⟨code d, some (.reg d)⟩

lemma lowerExpr_ifElse (s : Span) (n : α) (test e : Expr α) (b : Block α) :
    lowerExpr c func env (.cond s n test b (some e)) = (do
      let l ← lowerExpr c func env test
      let (tc, tv) ← needValue func test l
      let (other, stop, t', e') ← (do
        let other ← newLabel "else"
        let stop ← newLabel "end"
        let t' ← lowerBlock c func env b
        let e' ← lowerExpr c func env e
        return (other, stop, t', e'))
      finishCond c s n (condCode s test.span b.span e.span tc tv other stop t' e') t' e') := by
  simp only [bind_assoc]
  rfl

/-! ### Declarations -/

variable {c} in
/-- The functions of declarations stand one after the other, each with the literals in it. -/
theorem lowerFuncs_eq_ok {done : List (List Func)} {decls : List (FuncDecl α)}
    (h : lowerFuncs c done decls = .ok fs) : ∃ rs : List (FuncDecl α × Lowered × State),
      rs.map Prod.fst = decls ∧ (∀ r ∈ rs, (lowerBlock c r.1.name.text (paramEnv r.1.params)
        r.1.body).run (.start r.1.params.length) = .ok r.2) ∧ fs = done.reverse.flatten ++
        rs.flatMap fun r => assemble r.1.name.text r.1.params r.1.body.span r.2.1 r.2.2 := by
  induction decls generalizing done with
  | nil =>
    cases h
    exact ⟨[], rfl, List.forall_mem_nil _, (List.append_nil _).symm⟩
  | cons d decls ih =>
    simp only [lowerFuncs, lowerFunc, Bind.bind, Except.bind] at h
    split at h
    · cases h
    rename_i new hnew
    split at hnew
    · cases hnew
    rename_i r hrun
    cases hnew
    obtain ⟨rs, rfl, hrs, rfl⟩ := ih h
    exact ⟨(d, r) :: rs, rfl, List.forall_mem_cons.mpr ⟨hrun, hrs⟩, by simp⟩

end Lists

/-! ### The extent of a lowering -/

/-- What a lowering in a function does to the state: registers, labels and function literals are
taken, and the functions made from the literals are valid. -/
structure Grown (func : Bytes) (st st' : State) : Prop where
  regs : st.numVars ≤ st'.numVars
  labels : st.labels.count ≤ st'.labels.count
  lambdas : st.lambdas.count ≤ st'.lambdas.count
  nested : ∃ new, st'.nested = new ++ st.nested ∧ (∀ f ∈ new, f.Valid) ∧
    Below func st.lambdas.count st'.lambdas.count (new.map Func.name)

lemma Grown.take (st : State) (regs labels : Nat) :
    Grown func st ⟨st.numVars + regs, ⟨st.labels.count + labels⟩, st.lambdas, st.nested⟩ :=
  ⟨Nat.le_add_right _ _, Nat.le_add_right _ _, le_refl _, [], rfl, List.forall_mem_nil _,
    List.nodup_nil, List.forall_mem_nil _⟩

lemma Grown.refl (st : State) : Grown func st st :=
  .take st 0 0

lemma Grown.trans {st'' : State} (h : Grown func st st') (h' : Grown func st' st'') :
    Grown func st st'' := by
  obtain ⟨new, hnew, hvalid, hbelow⟩ := h.nested
  obtain ⟨new', hnew', hvalid', hbelow'⟩ := h'.nested
  refine ⟨h.regs.trans h'.regs, h.labels.trans h'.labels, h.lambdas.trans h'.lambdas, new' ++ new,
    ?_, List.forall_mem_append.mpr ⟨hvalid', hvalid⟩, ?_⟩
  · rw [hnew', hnew, List.append_assoc]
  · rw [List.map_append]
    exact hbelow.append hbelow' h.lambdas h'.lambdas

lemma Grown.subset (h : Grown func st st') : st.nested ⊆ st'.nested := by
  obtain ⟨new, hnew, -⟩ := h.nested
  exact hnew ▸ List.subset_append_right _ _

/-- The registers taken from one state to another. -/
abbrev newRegs (st st' : State) : Set Nat := Set.Ico st.numVars st'.numVars

/-- The numbers of the labels made between two states. -/
abbrev newLabels (st st' : State) : Set Nat := Set.Ico st.labels.count st'.labels.count

/-- The code that a lowering makes between two states: it writes new registers and those in `S`, and
jumps to no label outside of it. -/
structure Extent (func : Bytes) (S : Set Nat) (st st' : State) (W : Set Nat) (code : Code) :
    Prop where
  grown : Grown func st st'
  piece : Piece (newRegs st st' ∪ S) (newLabels st st') ∅ W code

namespace Extent

variable {S' : Set Nat}

lemma nil (S : Set Nat) (st : State) (W : Set Nat) : Extent func S st st W [] :=
  ⟨.refl st, .nil⟩

lemma within (h : Extent func S' st1 st2 W xs) (h1 : Grown func st st1) (h2 : Grown func st2 st')
    (hS : S' ⊆ S) : Piece (newRegs st st' ∪ S) (newLabels st1 st2) J W xs :=
  h.piece.mono (Set.union_subset_union (Set.Ico_subset_Ico h1.regs h2.regs) hS)
    (Set.Subset.refl _) (Set.empty_subset J)

lemma append (hx : Extent func S st st1 W xs) (hy : Extent func S' st1 st2 (after W xs) ys) :
    Extent func (S ∪ S') st st2 W (xs ++ ys) := by
  have hx' : Piece (newRegs st st2 ∪ (S ∪ S')) (newLabels st st1) ∅ W xs :=
    hx.within (.refl st) hy.grown Set.subset_union_left
  have hy' : Piece (newRegs st st2 ∪ (S ∪ S')) (newLabels st1 st2) ∅ (after W xs) ys :=
    hy.within hx.grown (.refl st2) Set.subset_union_right
  refine ⟨hx.grown.trans hy.grown, (hx'.append hy' ?_).close ?_ nofun⟩
  · intro k hk hk'
    exact absurd hk.2 (not_lt.mpr hk'.1)
  · rw [Set.Ico_union_Ico_eq_Ico hx.grown.labels hy.grown.labels]

lemma snoc (hx : Extent func S st st1 W xs) (h : Grown func st1 st2)
    (hy : Piece (newRegs st st2 ∪ S) ∅ ∅ (after W xs) ys) : Extent func S st st2 W (xs ++ ys) := by
  have hx' : Piece (newRegs st st2 ∪ S) (newLabels st st1) ∅ W xs :=
    hx.within (.refl st) h (Set.Subset.refl S)
  exact ⟨hx.grown.trans h, (hx'.snoc hy).close (Set.Ico_subset_Ico_right h.labels) nofun⟩

lemma mono (h : Extent func S st st' W xs) (hS : S ⊆ S') : Extent func S' st st' W xs :=
  ⟨h.grown, h.within (.refl st) (.refl st') hS⟩

end Extent

/-! ### Variables in sight -/

variable {env' : Env} {W' : Set Nat} {r : Nat} {bound : List Bytes}

/-- The registers of variables in sight are taken and have been written. -/
def InSight (env : Env) (st : State) (W : Set Nat) : Prop :=
  ∀ e ∈ env, e.2 < st.numVars ∧ e.2 ∈ W

/-- The registers of variables. -/
def regsOf (env : Env) (names : List Bytes) : Set Nat :=
  {r | ∃ x ∈ names, env.lookup x = some r}

/-- The variables in sight after some are bound: new ones, and those before that have other names.
-/
def Scoped (bound : List Bytes) (st : State) (env env' : Env) : Prop :=
  ∀ x r, env'.lookup x = some r → st.numVars ≤ r ∨ x ∉ bound ∧ env.lookup x = some r

lemma regsOf_append (env : Env) (xs ys : List Bytes) :
    regsOf env (xs ++ ys) = regsOf env xs ∪ regsOf env ys := by
  ext r
  simp [regsOf, or_and_right, exists_or]

lemma InSight.mono (h : InSight env st W) (hst : st.numVars ≤ st'.numVars) (hW : W ⊆ W') :
    InSight env st' W' :=
  fun e he => ⟨(h e he).1.trans_le hst, hW (h e he).2⟩

lemma InSight.lookup (h : InSight env st W) {x : Bytes} (hx : env.lookup x = some r) :
    r < st.numVars ∧ r ∈ W :=
  h (x, r) (mem_of_lookup hx)

lemma InSight.cons (h : InSight env st W) (hr : r < st.numVars) (hW : r ∈ W) (x : Bytes) :
    InSight ((x, r) :: env) st W := by
  rintro e (_ | ⟨_, he⟩)
  · exact ⟨hr, hW⟩
  · exact h e he

lemma Scoped.refl (st : State) (env : Env) : Scoped [] st env env :=
  fun _ _ h => .inr ⟨List.not_mem_nil, h⟩

lemma Scoped.cons (env : Env) (x : Bytes) (hr : st.numVars ≤ r) :
    Scoped [x] st env ((x, r) :: env) := by
  intro y r' hy
  rw [List.lookup_cons] at hy
  split at hy
  · cases hy
    exact .inl hr
  · rename_i hne
    refine .inr ⟨fun hmem => ?_, hy⟩
    rw [List.mem_singleton.mp hmem, beq_self_eq_true] at hne
    cases hne

lemma Scoped.trans {env1 env2 : Env} {bound' : List Bytes} (h : Scoped bound st env env1)
    (h' : Scoped bound' st' env1 env2) (hst : Grown func st st') :
    Scoped (bound ++ bound') st env env2 := by
  intro x r hx
  rcases h' x r hx with hr | ⟨hx', hx⟩
  · exact .inl (hst.regs.trans hr)
  · rcases h x r hx with hr | ⟨hx'', hx⟩
    · exact .inl hr
    · exact .inr ⟨by simp [hx', hx''], hx⟩

/-- What a variable in sight is from outside: a new register, or a variable that is not bound. -/
theorem Scoped.regsOf (h : Scoped bound st env env') (henv : InSight env' st1 W)
    (hst : Grown func st1 st2) :
    regsOf env' names ⊆ newRegs st st2 ∪ regsOf env (without bound names) := by
  rintro r ⟨x, hx, hr⟩
  rcases h x r hr with hle | ⟨hx', hr'⟩
  · exact .inl ⟨hle, (henv.lookup hr).1.trans_le hst.regs⟩
  · exact .inr ⟨x, List.mem_filter.mpr ⟨hx, by simpa using hx'⟩, hr'⟩

lemma Extent.of_scope (h : Extent func (regsOf env' names) st1 st2 W xs)
    (hscoped : Scoped bound st env env') (henv : InSight env' st1 W') (h1 : Grown func st st1)
    (h2 : Grown func st2 st') (hS : regsOf env (without bound names) ⊆ S) :
    Piece (newRegs st st' ∪ S) (newLabels st1 st2) J W xs := by
  refine h.piece.mono ?_ (Set.Subset.refl _) (Set.empty_subset J)
  have hregs : regsOf env' names ⊆ newRegs st st' ∪ regsOf env (without bound names) :=
    hscoped.regsOf henv (h.grown.trans h2)
  refine Set.union_subset ?_ (hregs.trans (Set.union_subset_union_right _ hS))
  exact (Set.Ico_subset_Ico h1.regs h2.regs).trans Set.subset_union_left

lemma Extent.append_scope (hx : Extent func (regsOf env names) st st1 W xs)
    (hscoped : Scoped bound st env env') (henv : InSight env' st1 (after W xs))
    (hy : Extent func (regsOf env' names') st1 st2 (after W xs) ys) :
    Extent func (regsOf env (names ++ without bound names')) st st2 W (xs ++ ys) := by
  rw [regsOf_append]
  have hx' : Piece (newRegs st st2 ∪ (regsOf env names ∪ regsOf env (without bound names')))
      (newLabels st st1) ∅ W xs := hx.within (.refl st) hy.grown Set.subset_union_left
  refine ⟨hx.grown.trans hy.grown, (hx'.append (hy.of_scope hscoped henv hx.grown (.refl st2)
    Set.subset_union_right) ?_).close ?_ nofun⟩
  · intro k hk hk'
    exact absurd hk.2 (not_lt.mpr hk'.1)
  · rw [Set.Ico_union_Ico_eq_Ico hx.grown.labels hy.grown.labels]

/-! ### Lowered expressions -/

/-- What an expression has become: code with its extent, and an operand that can be read after it.
If the operand is a register, then it is a new one or one in `Y`. -/
structure Made (func : Bytes) (S Y : Set Nat) (st st' : State) (W : Set Nat) (l : Lowered) :
    Prop where
  extent : Extent func S st st' W l.code
  known : ∀ v, l.value? = some v → v.Known (after W l.code)
  source : ∀ r, l.value? = some (.reg r) → r ∈ newRegs st st' ∪ Y

section Parts

variable {Y : Set Nat} {code : Code} {span : Span} {n : α}

lemma Made.of_none (h : Extent func S st st' W code) : Made func S Y st st' W ⟨code, none⟩ :=
  ⟨h, nofun, nofun⟩

lemma Made.of_reg {d : Nat} (h : Extent func S st st' W code) (hd : d ∈ newRegs st st')
    (hcode : ∃ i ∈ code, i.val.dst? = some d) : Made func S Y st st' W ⟨code, some (.reg d)⟩ := by
  obtain ⟨i, hi, hdst⟩ := hcode
  refine ⟨h, ?_, ?_⟩
  · rintro _ ⟨⟩
    exact Operand.known_reg (dst_mem_after hi hdst)
  · rintro _ ⟨⟩
    exact .inl hd

lemma Made.widen (h : Made func S Y st st1 W l) :
    Ends (widen c span n l) st1 (fun l' st' => Made func S Y st st' W l') := by
  unfold Lowering.widen
  split
  · rename_i v hv hwiden
    have hgrown := h.extent.grown
    refine .bind (.newReg (.pure
      (.of_reg (h.extent.snoc (.take st1 1 0) (.plain rfl rfl ?_ ?_)) ?_ ?_)))
    · rintro _ ⟨⟩
      exact .inl ⟨hgrown.regs, Nat.lt_succ_self _⟩
    · simpa [Instr.uses] using h.known v hv
    · exact ⟨hgrown.regs, Nat.lt_succ_self _⟩
    · exact ⟨_, List.mem_append_right _ (List.mem_singleton.mpr rfl), rfl⟩
  · exact .pure h

end Parts

end Tac.Lowering

end Minilang
