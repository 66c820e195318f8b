import Minilang.Proofs.Tac.Operations

/-!
# The code of a tree is in one piece

The code of every expression, block and statement has its extent, whatever its types are: the rules
below follow the cases of the lowering.  So all functions that come from a tree are valid
(`lowerFuncs_valid`), and a lowering never fails because its code is not.
-/

namespace Minilang

namespace Tac

open List

variable {fs : List Func} {α : Type} {decls : List (FuncDecl α)}

namespace Lowering

section Rules

variable (c : Context α)

/-- The code of an expression has its extent. -/
def ExprMade (x : Expr α) : Prop :=
  ∀ ⦃func env st W⦄, InSight env st W →
    Ends (lowerExpr c func env x) st
      (fun l st' => Made func (regsOf env (assigns x)) (regsOf env (yields x)) st st' W l)

/-- The code of a block has its extent. -/
def BlockMade (b : Block α) : Prop :=
  ∀ ⦃func env st W⦄, InSight env st W →
    Ends (lowerBlock c func env b) st
      (fun l st' => Made func (regsOf env (assignsBlock b)) (regsOf env (yieldsBlock b)) st st' W l)

/-- The result of lowering statements: code with its extent, and the variables in sight after it. -/
structure Ran (func : Bytes) (names bound : List Bytes) (env : Env) (st st' : State) (W : Set Nat)
    (r : Code × Env) : Prop where
  extent : Extent func (regsOf env names) st st' W r.1
  sight : InSight r.2 st' (after W r.1)
  scope : Scoped bound st env r.2

/-- The code of a statement has its extent. -/
def StmtMade (s : Stmt α) : Prop :=
  ∀ ⦃func env st W⦄, InSight env st W →
    Ends (lowerStmt c func env s) st (fun r st' => Ran func (assignsStmt s) s.bound env st st' W r)

/-- The code of statements has its extent. -/
def StmtsMade (ss : List (Stmt α)) : Prop :=
  ∀ ⦃func env st W⦄, InSight env st W →
    Ends (lowerStmts c func env [] ss) st
      (fun r st' => Ran func (assignsStmts ss) (boundBy ss) env st st' W r)

variable {c} {β : Type} {func : Bytes} {env : Env} {st : State} {W : Set Nat} {s : Span} {n : α}
  {x y : Expr α} {b : Block α}

lemma ExprMade.value (hx : ExprMade c x) (henv : InSight env st W) {f : Code × Operand → M β}
    {Q : β → State → Prop} (hf : ∀ code v st1, Extent func (regsOf env (assigns x)) st st1 W code →
      v.Known (after W code) → InSight env st1 (after W code) → Ends (f (code, v)) st1 Q) :
    Ends (lowerExpr c func env x >>= fun l => needValue func x l >>= f) st Q := by
  refine .chain (hx henv) fun l st1 hl => .bind (.needValue (fun v hv => ?_) fun _ => trivial)
  exact hf l.code v st1 hl.extent (hl.known v hv)
    (henv.mono hl.extent.grown.regs (subset_after W l.code))

/-! ### Expressions without labels -/

variable {name : Name} {op : BinaryOp} {S Y : Set Nat} {code : Code} {st' : State}
  {xs : List (Expr α)} {rs : List (Code × Operand)} {names : List Bytes} {l : Lowered}

lemma ExprMade.lit {v : Literal} : ExprMade c (.lit s n v) := by
  intro func env st W henv
  refine Made.widen ⟨.nil _ st W, ?_, (by rintro _ ⟨⟩)⟩
  rintro _ ⟨⟩
  exact Operand.known_lit _ _

lemma ExprMade.var {name : Bytes} : ExprMade c (.var s n name) := by
  intro func env st W henv
  rw [lowerExpr]
  unfold Lowering.name
  cases hname : env.lookup name with
  | some r =>
    refine .bind (.pure (Made.widen ⟨.nil _ st W, ?_, ?_⟩))
    · rintro _ ⟨⟩
      exact Operand.known_reg (subset_after W [] (henv.lookup hname).2)
    · rintro _ ⟨⟩
      exact .inr ⟨name, by simp, hname⟩
  | none =>
    simp only []
    split
    · refine .bind (.pure (Made.widen ⟨.nil _ st W, ?_, (by rintro _ ⟨⟩)⟩))
      rintro _ ⟨⟩
      exact Operand.known_lit _ _
    · exact .bind (.throw trivial)

lemma Lowers.made (h : Lowers c func env st xs rs st') (hxs : ∀ x ∈ xs, ExprMade c x)
    (henv : InSight env st W) :
    Extent func (regsOf env (assignsAll xs)) st st' W (rs.map Prod.fst).flatten ∧
      ∀ v ∈ rs.map Prod.snd, v.Known (after W (rs.map Prod.fst).flatten) := by
  induction h generalizing W with
  | nil => exact ⟨.nil _ _ W, by simp⟩
  | @cons st st1 st' x xs code v rs hx _ ih =>
    obtain ⟨hx', hxs⟩ := forall_mem_cons.mp hxs
    have hmade := (hx' henv).ok hx
    obtain ⟨hextent, hknown⟩ :=
      ih hxs (henv.mono hmade.extent.grown.regs (subset_after W code))
    rw [assignsAll, regsOf_append]
    refine ⟨hmade.extent.append hextent, fun w hw => ?_⟩
    rw [map_cons, flatten_cons, after_append]
    rcases mem_cons.mp hw with rfl | hw
    · exact (hmade.known _ rfl).mono (subset_after _ _)
    · exact hknown w hw

lemma Reads.known {i : Instr} (h : Reads rs i) (hrs : ∀ v ∈ rs.map Prod.snd, v.Known W) :
    ∀ v ∈ i.uses, v.Known W := by
  intro v hv
  rcases h.uses v hv with hv | rfl
  · exact hrs v hv
  · exact nofun

lemma Computed.made (h : Computed c func env st xs l st')
    (hxs : ∀ x ∈ xs, ExprMade c x) (henv : InSight env st W) (hnames : assignsAll xs ⊆ names) :
    Made func (regsOf env names) Y st st' W l := by
  have hregs : regsOf env (assignsAll xs) ⊆ regsOf env names := by
    rintro r ⟨x, hx, hr⟩
    exact ⟨x, hnames hx, hr⟩
  cases h with
  | silent hrs hreads hdst =>
    obtain ⟨hextent, hknown⟩ := hrs.made hxs henv
    exact .of_none ((hextent.mono hregs).snoc (.refl _)
      (.silent hreads.label hreads.target hdst (hreads.known hknown)))
  | @value rs s i n _ st1 _ hrs hreads hdst hrun =>
    obtain ⟨hextent, hknown⟩ := hrs.made hxs henv
    have hd : st1.numVars ∈ newRegs st { st1 with numVars := st1.numVars + 1 } :=
      ⟨hextent.grown.regs, Nat.lt_succ_self _⟩
    refine (Made.widen (.of_reg ((hextent.mono hregs).snoc (.take st1 1 0) (.plain hreads.label
      hreads.target (fun d hd' => .inl ?_) (hreads.known hknown))) hd ⟨⟨s, i⟩, by simp, hdst⟩)).ok
      hrun
    exact Option.some.inj (hdst.symm.trans hd') ▸ hd

lemma ExprMade.operation (he : operation? c x = some xs) (hxs : ∀ x ∈ xs, ExprMade c x)
    (hassigns : assignsAll xs ⊆ assigns x) : ExprMade c x :=
  fun _ _ _ _ henv => (lowerExpr_computed he).mono fun _ _ h => h.made hxs henv hassigns

lemma ExprMade.call {callee : Expr α} {args : List (Expr α)} (hf : ExprMade c callee)
    (hargs : ∀ x ∈ args, ExprMade c x) : ExprMade c (.call s n callee args) := by
  cases hrole : (c.note n).role with
  | plain =>
    exact .operation (by rw [operation?, hrole]) (forall_mem_cons.mpr ⟨hf, hargs⟩) (by simp)
  | builtin | variant => exact .operation (by rw [operation?, hrole]) hargs (by simp)

lemma ExprMade.field (hx : ExprMade c x) : ExprMade c (.field s n x name) := by
  cases hrole : (c.note n).role with
  | variant v => exact .operation (by rw [operation?, hrole]) (forall_mem_nil _) (by simp)
  | plain | builtin _ =>
    exact .operation (by rw [operation?, hrole]) (forall_mem_singleton.mpr hx) (by simp)

lemma assignsFields_eq (fs : List (FieldValue α)) :
    assignsFields fs = assignsAll (fs.map FieldValue.value) := by
  induction fs with
  | nil => rfl
  | cons f fs ih =>
    obtain ⟨s, name, x⟩ := f
    rw [assignsFields, ih]
    rfl

lemma ExprMade.block (hb : BlockMade c b) : ExprMade c (.block b) := by
  intro func env st W henv
  exact hb henv

/-! ### Assignments -/

variable {s' : Span}

lemma ExprMade.assignVar {n' : α} {name : Bytes} (hy : ExprMade c y) :
    ExprMade c (.assign s n (.var s' n' name) y) := by
  intro func env st W henv
  rw [lowerExpr, assigns, regsOf_append]
  cases hname : env.lookup name with
  | none =>
    exact .throw trivial
  | some r =>
    refine hy.value henv fun yc yv st1 hyc hyv _ => ?_
    refine .pure (.of_none ((hyc.mono Set.subset_union_right).snoc (.refl st1) (.assign ?_ hyv)))
    exact .inr (.inl ⟨name, by simp, hname⟩)

lemma ExprMade.assignOther (hx : x.isTarget = false) : ExprMade c (.assign s n x y) := by
  intro func env st W henv
  cases x with
  | var | field | index => cases hx
  | _ =>
    exact .throw trivial

/-! ### Logical operators -/

variable {S' : Set Nat} {st2 st3 st1 : State} {d : Nat} {s1 s2 : Span} {stop : Bytes}

/-- The code of `&&` and `||`: the second operand is jumped over once the first one has decided. -/
theorem Extent.logical {xc yc test : Code} {xv yv cond : Operand} (hx : Extent func S st st1 W xc)
    (hxv : xv.Known (after W xc)) (hst : Grown func st1 st2) (hd : d ∈ newRegs st1 st2)
    (hstop : Numbered (newLabels st1 st2) stop)
    (htest : ∀ {W'}, d ∈ W' → Piece (newRegs st1 st2) ∅ ∅ W' test ∧ cond.Known (after W' test))
    (hy : Extent func S' st2 st3 (after W xc) yc) (hyv : yv.Known (after (after W xc) yc)) :
    Extent func (S ∪ S') st st3 W
    (xc ++ [⟨s1, .assign d xv⟩] ++ test ++ [⟨s, .jumpUnless cond stop⟩] ++
      yc ++ [⟨s2, .assign d yv⟩, ⟨s, .label stop⟩]) := by
  have hgrown := hst.trans hy.grown
  have hlabels := hx.grown.labels
  have hlabels1 := hst.labels
  have hlabels2 := hy.grown.labels
  have hV : newRegs st1 st2 ⊆ newRegs st st3 ∪ (S ∪ S') :=
    (Set.Ico_subset_Ico hx.grown.regs hy.grown.regs).trans Set.subset_union_left
  have hwritten : d ∈ after (after W xc) [⟨s1, .assign d xv⟩] :=
    dst_mem_after (mem_singleton.mpr rfl) rfl
  obtain ⟨htest, hcond⟩ := htest hwritten
  have hsub : after W xc ⊆ after (after (after (after W xc) [⟨s1, .assign d xv⟩]) test)
      [⟨s, .jumpUnless cond stop⟩] :=
    Subset.after (Subset.after (subset_after _ _) test) _
  refine ⟨hx.grown.trans hgrown, Piece.close (K := newLabels st st1 ∪ (newLabels st2 st3 ∪
    newLabels st1 st2)) (J := {stop}) ?_ ?_ ?_⟩
  · simp only [append_assoc]
    refine (hx.within (.refl st) hgrown Set.subset_union_left).append (.cons (.assign (hV hd) hxv)
      (.cons (htest.mono hV (Set.Subset.refl _) (Set.empty_subset _))
        (.cons (.jumpUnless hcond rfl) (((hy.within (hx.grown.trans hst) (.refl st3)
          Set.subset_union_right).mono_reads hsub).append (.cons (.assign (hV hd)
            (hyv.mono (after_mono hsub yc))) (.label hstop)) ?_)))) ?_
    · rintro k ⟨h1, h2⟩ ⟨h3, h4⟩
      omega
    · rintro k ⟨h1, h2⟩ (⟨h3, h4⟩ | ⟨h3, h4⟩) <;> omega
  · rintro k (⟨h1, h2⟩ | ⟨h1, h2⟩ | ⟨h1, h2⟩) <;> exact ⟨by omega, by omega⟩
  · rintro l rfl
    simp [labelsOf, Instr.label?]

lemma ExprMade.logical (hop : op.isLogical = true) (hx : ExprMade c x) (hy : ExprMade c y) :
    ExprMade c (.binary s n op x y) := by
  intro func env st W henv
  rw [assigns, regsOf_append]
  refine hx.value henv fun xc xv st1 hxc hxv henv1 => ?_
  cases op with
  | or =>
    have hst : Grown func st1 _ := .take st1 2 1
    refine hy.value (henv1.mono hst.regs (Set.Subset.refl _)) fun yc yv st3 hyc hyv _ => ?_
    have hregs := hxc.grown.regs
    have hregs' := hyc.grown.regs
    refine Made.widen (.of_reg (hxc.logical hxv hst
      ⟨le_refl _, Nat.lt_succ_of_lt (Nat.lt_succ_self _)⟩
      ⟨"sc", _, ⟨le_refl _, by simp⟩, rfl⟩ (fun {W'} hd => ⟨?_, ?_⟩) hyc hyv)
      ⟨hregs, by simp at hregs'; omega⟩ ⟨⟨x.span, .assign st1.numVars xv⟩, by simp, rfl⟩)
    · refine .plain rfl rfl ?_ ?_
      · rintro _ ⟨⟩
        exact ⟨by simp, by simp⟩
      · simpa [Instr.uses] using Operand.known_reg hd
    · exact Operand.known_reg (dst_mem_after (mem_singleton.mpr rfl) rfl)
  | and =>
    have hst : Grown func st1 _ := .take st1 1 1
    refine hy.value (henv1.mono hst.regs (Set.Subset.refl _)) fun yc yv st3 hyc hyv _ => ?_
    have hregs := hxc.grown.regs
    have hregs' := hyc.grown.regs
    refine Made.widen (.of_reg (hxc.logical hxv hst ⟨le_refl _, by simp⟩
      ⟨"sc", _, ⟨le_refl _, by simp⟩, rfl⟩ (fun {W'} hd => ⟨.nil, ?_⟩) hyc hyv)
      ⟨hregs, by simp at hregs'; omega⟩ ⟨⟨x.span, .assign st1.numVars xv⟩, by simp, rfl⟩)
    rw [after_nil]
    exact Operand.known_reg hd
  | _ => cases hop

/-! ### Conditionals -/

variable {tc : Code} {tv : Operand} {test : Expr α}

lemma ExprMade.ifThen (htest : ExprMade c test) (hb : BlockMade c b) :
    ExprMade c (.cond s n test b none) := by
  intro func env st W henv
  rw [assigns, regsOf_append]
  refine htest.value henv fun tc tv st1 htc htv henv1 => ?_
  refine .bind (.newLabel ?_)
  have hst : Grown func st1 _ := .take st1 0 1
  refine .chain (hb (henv1.mono hst.regs (Set.Subset.refl _))) fun l st2 hl => ?_
  have hlabels := htc.grown.labels
  have hlabels1 : st1.labels.count + 1 ≤ st2.labels.count := hl.extent.grown.labels
  have hsub := subset_after (after W tc) [⟨test.span, .jumpUnless tv
    (Bytes.concat [Bytes.ofString "end", ".", Decimal.ofNat st1.labels.count])⟩]
  refine .pure (.of_none ⟨(htc.grown.trans hst).trans hl.extent.grown, Piece.close
    (K := newLabels st st1 ∪ (Set.Ico (st1.labels.count + 1) st2.labels.count ∪ {st1.labels.count}))
    (J := {Bytes.concat ["end", ".", Decimal.ofNat st1.labels.count]}) ?_ ?_ ?_⟩)
  · simp only [append_assoc]
    refine (htc.within (.refl st) (hst.trans hl.extent.grown) Set.subset_union_left).append
      (.cons (.jumpUnless htv rfl) (((hl.extent.within (htc.grown.trans hst) (.refl st2)
        Set.subset_union_right).mono_reads hsub).append (.label ⟨"end", _, rfl, rfl⟩) ?_)) ?_
    · rintro k ⟨h1, h2⟩ rfl
      simp at h1
    · rintro k ⟨h1, h2⟩ (⟨h3, h4⟩ | rfl) <;> omega
  · rintro k (⟨h1, h2⟩ | ⟨h1, h2⟩ | rfl) <;> exact ⟨by omega, by omega⟩
  · rintro l rfl
    simp [labelsOf, Instr.label?]

lemma Made.branch {V : Set Nat} {J : Set Bytes} (span : Span) (h : Made func S Y st1 st2 W l)
    (hV : newRegs st1 st2 ∪ S ⊆ V) (hd : l.value? = none ∨ d ∈ V) :
    Piece V (newLabels st1 st2) J W (branch span d l) := by
  have hpiece : Piece V (newLabels st1 st2) J W l.code :=
    h.extent.piece.mono hV (Set.Subset.refl _) (Set.empty_subset J)
  unfold Lowering.branch
  split
  · exact hpiece
  · rename_i v hv
    refine hpiece.snoc (.assign (hd.resolve_left ?_) (h.known v hv))
    rw [hv]
    exact nofun

lemma Extent.cond {S1 S2 Y' : Set Nat} {st4 : State} {t' e' : Lowered} {s3 : Span} {other : Bytes}
    (ht : Extent func S st st1 W tc) (htv : tv.Known (after W tc)) (hst : Grown func st1 st2)
    (hk : st2.labels.count = st1.labels.count + 2) (hother : Numbered {st1.labels.count} other)
    (hstop : Numbered {st1.labels.count + 1} stop) (ht' : Made func S1 Y st2 st3 (after W tc) t')
    (he' : Made func S2 Y' st3 st4 (after W tc) e') (hst' : Grown func st4 st')
    (hd : t'.value? = none ∧ e'.value? = none ∨ d ∈ newRegs st st') :
    Extent func (S ∪ S1 ∪ S2) st st' W (condCode s s1 s2 s3 tc tv other stop t' e' d) := by
  have hgrown := ht.grown.trans hst
  have hgrown1 := ht'.extent.grown
  have hgrown2 := he'.extent.grown.trans hst'
  have hlabels := ht.grown.labels
  have hlabels1 := hgrown1.labels
  have hlabels2 := he'.extent.grown.labels
  have hlabels3 := hst'.labels
  have hd' : t'.value? = none ∧ e'.value? = none ∨ d ∈ newRegs st st' ∪ (S ∪ S1 ∪ S2) :=
    hd.imp_right .inl
  have hV1 : newRegs st2 st3 ∪ S1 ⊆ newRegs st st' ∪ (S ∪ S1 ∪ S2) :=
    Set.union_subset_union (Set.Ico_subset_Ico hgrown.regs hgrown2.regs)
      (Set.subset_union_right.trans Set.subset_union_left)
  have hV2 : newRegs st3 st4 ∪ S2 ⊆ newRegs st st' ∪ (S ∪ S1 ∪ S2) :=
    Set.union_subset_union (Set.Ico_subset_Ico (hgrown.trans hgrown1).regs hst'.regs)
      Set.subset_union_right
  have hsub : after W tc ⊆ after (after W tc) [⟨s1, .jumpUnless tv other⟩] := subset_after _ _
  have hmiddle : ∀ W', Piece (newRegs st st' ∪ (S ∪ S1 ∪ S2)) {st1.labels.count} {other, stop} W'
      [⟨s2, .jump stop⟩, ⟨s, .label other⟩] :=
    fun W' => Piece.cons (.jump (Or.inr rfl)) (.label hother)
  refine ⟨(hgrown.trans hgrown1).trans hgrown2, Piece.close (K := newLabels st st1 ∪
    (newLabels st2 st3 ∪ ({st1.labels.count} ∪ (newLabels st3 st4 ∪ {st1.labels.count + 1}))))
    (J := {other, stop}) ?_ ?_ ?_⟩
  · simp only [condCode, append_assoc]
    refine (ht.within (.refl st) ((hst.trans hgrown1).trans hgrown2)
      (Set.subset_union_left.trans Set.subset_union_left)).append
      (.cons (.jumpUnless htv (.inl rfl)) (((ht'.branch s2 hV1 (hd'.imp_left And.left)).mono_reads
        hsub).append ((hmiddle _).append (((he'.branch s3 hV2 (hd'.imp_left And.right)).mono_reads
          ?_).append (.label hstop) ?_) ?_) ?_)) ?_
    · exact Subset.after (Subset.after hsub _) _
    · rintro k ⟨h1, h2⟩ rfl
      omega
    · rintro k rfl (⟨h1, h2⟩ | h1)
      · omega
      · simp at h1
    · rintro k ⟨h1, h2⟩ (rfl | ⟨h3, h4⟩ | rfl) <;> omega
    · rintro k ⟨h1, h2⟩ (⟨h3, h4⟩ | rfl | ⟨h3, h4⟩ | rfl) <;> omega
  · rintro k (⟨h1, h2⟩ | ⟨h1, h2⟩ | rfl | ⟨h1, h2⟩ | rfl) <;> exact ⟨by omega, by omega⟩
  · rintro l (rfl | rfl) <;> simp [condCode, labelsOf, Instr.label?]

lemma ExprMade.ifElse {e : Expr α} (htest : ExprMade c test) (hb : BlockMade c b)
    (he : ExprMade c e) : ExprMade c (.cond s n test b (some e)) := by
  intro func env st W henv
  rw [lowerExpr_ifElse, assigns, regsOf_append, regsOf_append]
  refine htest.value henv fun tc tv st1 htc htv henv1 => ?_
  simp only [bind_assoc, pure_bind]
  refine .bind (.newLabel (.bind (.newLabel ?_)))
  have hst : Grown func st1 _ := .take st1 0 2
  have henv2 := henv1.mono hst.regs (Set.Subset.refl _)
  refine .chain (hb henv2) fun t' st3 ht' => ?_
  refine .chain (he (henv2.mono ht'.extent.grown.regs (Set.Subset.refl _))) fun e' st4 he' => ?_
  have hgrown := ((htc.grown.trans hst).trans ht'.extent.grown).trans he'.extent.grown
  have hother : Numbered {st1.labels.count}
      (Bytes.concat ["else", ".", Decimal.ofNat st1.labels.count]) := ⟨_, _, rfl, rfl⟩
  have hstop : Numbered {st1.labels.count + 1}
      (Bytes.concat ["end", ".", Decimal.ofNat (st1.labels.count + 1)]) := ⟨_, _, rfl, rfl⟩
  unfold finishCond
  split
  · rename_i htnone henone
    exact .pure (.of_none (htc.cond htv hst rfl hother hstop ht' he' (.refl st4)
      (.inl ⟨htnone, henone⟩)))
  · rename_i hsome
    have hd : st4.numVars ∈ newRegs st { st4 with numVars := st4.numVars + 1 } :=
      ⟨hgrown.regs, Nat.lt_succ_self _⟩
    refine .bind (.newReg (Made.widen (.of_reg (htc.cond htv hst rfl hother hstop ht' he'
      (.take st4 1 0) (.inr hd)) hd ?_)))
    -- One of the branches has a value.
    cases htv' : t'.value? with
    | some v => exact ⟨⟨b.span, .assign st4.numVars v⟩, by simp [condCode, branch, htv'], rfl⟩
    | none =>
      cases hev : e'.value? with
      | some v => exact ⟨⟨e.span, .assign st4.numVars v⟩, by simp [condCode, branch, hev], rfl⟩
      | none => exact (hsome htv' hev).elim

/-! ### Statements -/

variable {body : Code} {ss : List (Stmt α)}

lemma Ran.same (h : Extent func (regsOf env names) st st' W code) (henv : InSight env st W) :
    Ran func names [] env st st' W (code, env) :=
  ⟨h, henv.mono h.grown.regs (subset_after W code), .refl st env⟩

lemma StmtMade.letVar {type : Option TypeExpr} (hx : ExprMade c x) :
    StmtMade c (.letVar s name type x) := by
  intro func env st W henv
  refine hx.value henv fun xc xv st1 hxc hxv henv1 => ?_
  refine .bind (.newReg (.pure ⟨hxc.snoc (.take st1 1 0) (.assign ?_ hxv), ?_, ?_⟩))
  · exact .inl ⟨hxc.grown.regs, Nat.lt_succ_self _⟩
  · rw [after_append]
    refine (henv1.mono (Nat.le_succ _) (subset_after _ _)).cons (Nat.lt_succ_self _) ?_ _
    exact dst_mem_after (mem_singleton.mpr rfl) rfl
  · exact .cons env name.text hxc.grown.regs

lemma StmtMade.retNone : StmtMade c (.ret s none) := by
  intro func env st W henv
  exact .pure (.same ((Extent.nil _ st W).snoc (.refl st) (.silent rfl rfl rfl (by rintro _ ⟨⟩)))
    henv)

lemma StmtMade.ret (hx : ExprMade c x) : StmtMade c (.ret s (some x)) := by
  intro func env st W henv
  refine hx.value henv fun xc xv st1 hxc hxv _ => ?_
  refine .pure (.same (hxc.snoc (.refl st1) (.silent rfl rfl rfl ?_)) henv)
  simpa [Instr.uses] using hxv

lemma StmtMade.expr (hx : ExprMade c x) : StmtMade c (.expr x) := by
  intro func env st W henv
  exact .chain (hx henv) fun l st1 hl => .pure (.same hl.extent henv)

lemma Extent.loop {loop : Bytes} (hst : Grown func st st1)
    (hk : st1.labels.count = st.labels.count + 2) (hloop : Numbered {st.labels.count} loop)
    (hstop : Numbered {st.labels.count + 1} stop) (ht : Extent func S st1 st2 W tc)
    (htv : tv.Known (after W tc)) (hb : Extent func S' st2 st3 (after W tc) body) :
    Extent func (S ∪ S') st st3 W
    ([⟨s, .label loop⟩] ++ tc ++ [⟨s', .jumpUnless tv stop⟩] ++ body ++
      [⟨s, .jump loop⟩, ⟨s, .label stop⟩]) := by
  have hlabels := ht.grown.labels
  have hlabels1 := hb.grown.labels
  have hsub := subset_after W [⟨s, .label loop⟩]
  have hend : ∀ W', Piece (newRegs st st3 ∪ (S ∪ S')) {st.labels.count + 1} {loop, stop} W'
      [⟨s, .jump loop⟩, ⟨s, .label stop⟩] :=
    fun W' => Piece.cons (.jump (Or.inl rfl)) (.label hstop)
  refine ⟨(hst.trans ht.grown).trans hb.grown, Piece.close (K := {st.labels.count} ∪
    (newLabels st1 st2 ∪ (newLabels st2 st3 ∪ {st.labels.count + 1}))) (J := {loop, stop}) ?_ ?_ ?_⟩
  · simp only [append_assoc]
    refine (Piece.label hloop).append (((ht.within hst hb.grown Set.subset_union_left).mono_reads
      hsub).append (.cons (.jumpUnless (htv.mono (after_mono hsub tc)) (Or.inr rfl))
        (((hb.within (hst.trans ht.grown) (.refl st3) Set.subset_union_right).mono_reads
          (Subset.after (after_mono hsub tc) _)).append (hend _) ?_)) ?_) ?_
    · rintro k ⟨h1, h2⟩ rfl
      omega
    · rintro k ⟨h1, h2⟩ (⟨h3, h4⟩ | rfl) <;> omega
    · rintro k rfl (⟨h1, h2⟩ | ⟨h1, h2⟩ | h1)
      · omega
      · omega
      · simp at h1
  · rintro k (rfl | ⟨h1, h2⟩ | ⟨h1, h2⟩ | rfl) <;> exact ⟨by omega, by omega⟩
  · rintro l (rfl | rfl) <;> simp [labelsOf, Instr.label?]

lemma StmtMade.loop (htest : ExprMade c test) (hb : BlockMade c b) :
    StmtMade c (.loop s test b) := by
  intro func env st W henv
  rw [assignsStmt]
  have hst : Grown func st _ := .take st 0 2
  refine htest.value (henv.mono hst.regs (Set.Subset.refl _)) fun tc tv st1 htc htv henv1 => ?_
  refine .chain (hb henv1) fun l st2 hl => .pure (.same ?_ henv)
  rw [regsOf_append]
  exact .loop hst rfl ⟨_, _, rfl, rfl⟩ ⟨_, _, rfl, rfl⟩ htc htv hl.extent

lemma Extent.countingLoop {ac start : Code} {x : Bytes} {counter limit test v : Nat}
    {elem : Instr} {loop : Bytes} (ha : Extent func S st st1 W ac) (hst : Grown func st1 st2)
    (hk : st2.labels.count = st1.labels.count + 2) (hloop : Numbered {st1.labels.count} loop)
    (hstop : Numbered {st1.labels.count + 1} stop)
    (hstart : Piece (newRegs st1 st2) ∅ ∅ (after W ac) start) (hcounter : counter ∈ newRegs st1 st2)
    (htest : test ∈ newRegs st1 st2) (hv : v ∈ newRegs st1 st2)
    (hcounter' : counter ∈ after (after W ac) start) (hlimit : limit ∈ after (after W ac) start)
    (hlabel : elem.label? = none) (htarget : elem.target? = none) (hdst : elem.dst? = some v)
    (huses : ∀ v ∈ elem.uses, v.Known (after (after W ac) start))
    (henv : InSight ((x, v) :: env) st2 (insert v (after W ac)))
    (hb : Extent func (regsOf ((x, v) :: env) names) st2 st3 (insert v (after W ac)) body) :
    Extent func (S ∪ regsOf env (without [x] names)) st st3 W (ac ++ start ++
      countingLoop s loop stop counter limit test ⟨s', elem⟩ body) := by
  have hgrown := hst.trans hb.grown
  have hlabels := ha.grown.labels
  have hlabels1 := hb.grown.labels
  have hV : newRegs st1 st2 ⊆ newRegs st st3 ∪ (S ∪ regsOf env (without [x] names)) :=
    (Set.Ico_subset_Ico ha.grown.regs hb.grown.regs).trans Set.subset_union_left
  have hfirst : Piece (newRegs st st3 ∪ (S ∪ regsOf env (without [x] names))) {st1.labels.count}
      {loop, stop} (after (after W ac) start) [⟨s, .label loop⟩,
        ⟨s, .binary test (.known .lt) (.reg counter) (.reg limit)⟩,
        ⟨s, .jumpUnless (.reg test) stop⟩, ⟨s', elem⟩] := by
    refine (Piece.label hloop).snoc (.cons (.plain rfl rfl ?_ ?_) (.cons (.jumpUnless
      (Operand.known_reg (dst_mem_after (mem_singleton.mpr rfl) rfl)) (Or.inr rfl))
        (.plain hlabel htarget ?_ fun w hw => ?_)))
    · rintro _ ⟨⟩
      exact hV htest
    · exact Operand.known_pair (Operand.known_reg (subset_after _ _ hcounter'))
        (Operand.known_reg (subset_after _ _ hlimit))
    · intro d hd
      rw [hdst] at hd
      cases hd
      exact hV hv
    · exact (huses w hw).mono (Subset.after (Subset.after (subset_after _ _) _) _)
  have hend : ∀ W', counter ∈ W' →
      Piece (newRegs st st3 ∪ (S ∪ regsOf env (without [x] names))) {st1.labels.count + 1}
        {loop, stop} W' [⟨s, .binary counter (.known .add) (.reg counter) (.lit (.int 1))⟩,
          ⟨s, .jump loop⟩, ⟨s, .label stop⟩] := by
    intro W' hW'
    refine Piece.cons (.plain rfl rfl ?_ ?_) (Piece.cons (.jump (Or.inl rfl)) (.label hstop))
    · rintro _ ⟨⟩
      exact hV hcounter
    · exact Operand.known_pair (Operand.known_reg hW') (Operand.known_lit _ _)
  have hbody : Piece (newRegs st st3 ∪ (S ∪ regsOf env (without [x] names))) (newLabels st2 st3)
      {loop, stop} (insert v (after W ac)) body :=
    hb.of_scope (.cons env x (ha.grown.regs.trans hv.1)) henv (ha.grown.trans hst) (.refl st3)
      Set.subset_union_right
  refine ⟨ha.grown.trans hgrown, Piece.close (K := newLabels st st1 ∪ ({st1.labels.count} ∪
    (newLabels st2 st3 ∪ {st1.labels.count + 1}))) (J := {loop, stop}) ?_ ?_ ?_⟩
  · simp only [append_assoc]
    refine (ha.within (.refl st) hgrown Set.subset_union_left).append (.cons (hstart.mono hV
      (Set.Subset.refl _) (Set.empty_subset _)) (hfirst.append ((hbody.mono_reads ?_).append
        (hend _ (subset_after _ _ (subset_after _ _ hcounter'))) ?_) ?_)) ?_
    · refine Set.insert_subset ?_ (Subset.after (subset_after _ _) _)
      exact dst_mem_after (i := ⟨s', elem⟩) (by simp) hdst
    · rintro k ⟨h1, h2⟩ rfl
      omega
    · rintro k rfl (⟨h1, h2⟩ | h1)
      · omega
      · simp at h1
    · rintro k ⟨h1, h2⟩ (rfl | ⟨h3, h4⟩ | rfl) <;> omega
  · rintro k (⟨h1, h2⟩ | rfl | ⟨h1, h2⟩ | rfl) <;> exact ⟨by omega, by omega⟩
  · rintro l (rfl | rfl)
    · exact mem_labelsOf.mpr ⟨⟨s, .label l⟩, by simp [Lowering.countingLoop], rfl⟩
    · exact mem_labelsOf.mpr ⟨⟨s, .label l⟩, by simp [Lowering.countingLoop], rfl⟩

lemma StmtMade.forRange {start limit : Expr α} (hstart : ExprMade c start)
    (hlimit : ExprMade c limit) (hb : BlockMade c b) :
    StmtMade c (.forRange s name start limit b) := by
  intro func env st W henv
  rw [assignsStmt]
  refine hstart.value henv fun ac a st1 hac ha henv1 => ?_
  refine hlimit.value henv1 fun zc z st2 hzc hz henv2 => ?_
  refine .bind (.newReg (.bind (.newReg (.bind (.newLabel (.bind (.newLabel (.bind (.newReg
    (.bind (.newReg ?_)))))))))))
  have hst : Grown func st2 _ := .take st2 4 2
  have hbound : ∀ k < 4, st2.numVars + k ∈ Set.Ico st2.numVars (st2.numVars + 4) :=
    fun k hk => ⟨by omega, by omega⟩
  rw [← after_append] at hz henv2
  have henv3 := ((henv2.mono hst.regs (Set.subset_insert (st2.numVars + 3) _)).cons
    (hbound 3 (by decide)).2 (Set.mem_insert _ _) name.text)
  refine .chain (hb henv3) fun l st3 hl => .pure (.same ?_ henv)
  rw [regsOf_append, regsOf_append]
  refine (hac.append hzc).countingLoop hst rfl ⟨_, _, rfl, rfl⟩ ⟨_, _, rfl, rfl⟩ ?_
    (hbound 0 (by decide)) (hbound 2 (by decide)) (hbound 3 (by decide)) ?_ ?_ rfl rfl rfl ?_ henv3
    hl.extent
  · refine Piece.cons (.assign (hbound 0 (by decide)) ?_) (.assign (hbound 1 (by decide)) ?_)
    · refine ha.mono ?_
      rw [after_append]
      exact subset_after _ zc
    · exact hz.mono (subset_after _ _)
  · exact dst_mem_after (mem_cons_self ..) rfl
  · exact dst_mem_after (mem_cons_of_mem _ (mem_singleton.mpr rfl)) rfl
  · intro w hw
    rw [mem_singleton.mp hw]
    exact Operand.known_reg (dst_mem_after (mem_cons_self ..) rfl)

lemma StmtMade.forEach {array : Expr α} (harray : ExprMade c array) (hb : BlockMade c b) :
    StmtMade c (.forEach s name array b) := by
  intro func env st W henv
  rw [assignsStmt]
  refine harray.value henv fun ac a st1 hac ha henv1 => ?_
  refine .bind (.newReg (.bind (.newReg (.bind (.newReg (.bind (.newLabel (.bind (.newLabel
    (.bind (.newReg (.bind (.newReg ?_)))))))))))))
  have hst : Grown func st1 _ := .take st1 5 2
  have hbound : ∀ k < 5, st1.numVars + k ∈ Set.Ico st1.numVars (st1.numVars + 5) :=
    fun k hk => ⟨by omega, by omega⟩
  have henv2 := ((henv1.mono hst.regs (Set.subset_insert (st1.numVars + 4) _)).cons
    (hbound 4 (by decide)).2 (Set.mem_insert _ _) name.text)
  refine .chain (hb henv2) fun l st3 hl => .pure (.same ?_ henv)
  rw [regsOf_append]
  refine hac.countingLoop hst rfl ⟨_, _, rfl, rfl⟩ ⟨_, _, rfl, rfl⟩ ?_
    (hbound 2 (by decide)) (hbound 3 (by decide)) (hbound 4 (by decide)) ?_ ?_ rfl rfl rfl ?_ henv2
    hl.extent
  · refine Piece.cons (.assign (hbound 0 (by decide)) ha) (.cons (.plain rfl rfl ?_ ?_)
      (.assign (hbound 2 (by decide)) (Operand.known_lit _ _)))
    · rintro _ ⟨⟩
      exact hbound 1 (by decide)
    · intro w hw
      rw [mem_singleton.mp hw]
      exact Operand.known_reg (dst_mem_after (mem_singleton.mpr rfl) rfl)
  · exact dst_mem_after (mem_cons_of_mem _ (mem_cons_of_mem _ (mem_singleton.mpr rfl))) rfl
  · exact dst_mem_after (mem_cons_of_mem _ (mem_cons_self ..)) rfl
  · refine Operand.known_pair (Operand.known_reg ?_) (Operand.known_reg ?_)
    · exact dst_mem_after (mem_cons_self ..) rfl
    · exact dst_mem_after (mem_cons_of_mem _ (mem_cons_of_mem _ (mem_singleton.mpr rfl))) rfl

lemma StmtsMade.nil : StmtsMade c [] := by
  intro func env st W henv
  exact .pure (.same (.nil _ st W) henv)

lemma StmtsMade.cons {stmt : Stmt α} (hs : StmtMade c stmt) (hss : StmtsMade c ss) :
    StmtsMade c (stmt :: ss) := by
  intro func env st W henv
  rw [lowerStmts_cons]
  refine .chain (hs henv) ?_
  rintro ⟨sc, env1⟩ st1 hsc
  refine .chain (hss hsc.sight) ?_
  rintro ⟨code, env2⟩ st2 hcode
  refine .pure ⟨hsc.extent.append_scope hsc.scope hsc.sight hcode.extent, ?_, ?_⟩
  · rw [after_append]
    exact hcode.sight
  · exact hsc.scope.trans hcode.scope hsc.extent.grown

lemma BlockMade.unit (hss : StmtsMade c ss) : BlockMade c (.mk s n ss none) := by
  intro func env st W henv
  exact .chain (hss henv) fun r st1 hr => .pure (.of_none hr.extent)

lemma BlockMade.value (hss : StmtsMade c ss) (hx : ExprMade c x) :
    BlockMade c (.mk s n ss (some x)) := by
  intro func env st W henv
  refine .chain (hss henv) ?_
  rintro ⟨code, env1⟩ st1 hr
  refine .chain (hx hr.sight) fun l st2 hl => Made.widen ⟨?_, ?_, ?_⟩
  · exact hr.extent.append_scope hr.scope hr.sight hl.extent
  · rw [after_append]
    exact hl.known
  · intro r hv
    rcases hl.source r hv with ⟨h1, h2⟩ | hr'
    · exact .inl ⟨hr.extent.grown.regs.trans h1, h2⟩
    · exact hr.scope.regsOf hr.sight hl.extent.grown hr'

/-! ### Functions -/

variable {params : List Param}

lemma inSight_paramEnv (params : List Param) :
    InSight (paramEnv params) (.start params.length) {r | r < params.length} := by
  intro e he
  simp only [paramEnv, mem_reverse, mem_map] at he
  obtain ⟨⟨p, i⟩, hp, rfl⟩ := he
  have hlt : i < params.length := (mem_zipIdx hp).2.1.trans_eq (zero_add _)
  exact ⟨hlt, hlt⟩

/-- The functions of a block are valid, and those made from the literals in it have names below its
own. -/
theorem BlockMade.valid {name : Bytes} (hb : BlockMade c b) (span : Span)
    (hrun : (lowerBlock c name (paramEnv params) b).run (.start params.length) = .ok (l, st)) :
    (∀ f ∈ assemble name params span l st, f.Valid) ∧
      Below name 0 st.lambdas.count (st.nested.map Func.name) := by
  have henv := inSight_paramEnv params
  have hl := (hb henv).ok hrun
  obtain ⟨new, hnew, hvalid, hbelow⟩ := hl.extent.grown.nested
  obtain rfl : st.nested = new := hnew.trans (append_nil new)
  refine ⟨forall_mem_cons.mpr ⟨?_, fun f hf => hvalid f (mem_reverse.mp hf)⟩, hbelow⟩
  have hret : Extent name (regsOf (paramEnv params) (assignsBlock b)) (.start params.length) st
      {r | r < params.length} (l.code ++ [⟨span, .ret l.value?⟩]) :=
    hl.extent.snoc (.refl st) (.silent rfl rfl rfl fun v hv => hl.known v (Option.mem_toList.mp hv))
  refine Piece.valid (K := newLabels (.start params.length) st) ?_ ?_
    ⟨span, l.value?, getLast?_concat⟩
  · rw [length_map]
    refine hret.piece.mono ?_ (Set.Subset.refl _) (Set.Subset.refl _)
    rintro r (⟨-, hr⟩ | ⟨x, -, hx⟩)
    · exact hr
    · exact (henv.lookup hx).1.trans_le hl.extent.grown.regs
  · rw [length_map]
    exact hl.extent.grown.regs

/-- What a function literal does to the state: it adds its function and those of the literals in it.
-/
theorem BlockMade.grown (hb : BlockMade c b)
    (hrun : (lowerBlock c (func ++ pathText [st.lambdas.count]) (paramEnv params) b).run
      (.start params.length) = .ok (l, st1)) :
    Grown func st { st with
      lambdas := ⟨st.lambdas.count + 1⟩
      nested := (assemble (func ++ pathText [st.lambdas.count]) params b.span l st1).reverse ++
        st.nested } := by
  obtain ⟨hvalid, hbelow⟩ := hb.valid b.span hrun
  refine ⟨le_refl _, le_refl _, Nat.le_succ _, _, rfl, fun f hf => hvalid f (mem_reverse.mp hf), ?_⟩
  have hnames : (assemble (func ++ pathText [st.lambdas.count]) params b.span l st1).reverse.map
      Func.name = st1.nested.map Func.name ++ [func ++ pathText [st.lambdas.count]] := by
    simp [assemble]
  exact hnames ▸ hbelow.literal

lemma ExprMade.lambda {result : Option TypeExpr} (hb : BlockMade c b) :
    ExprMade c (.lambda s n params result b) := by
  intro func env st W henv
  refine .bind (.newLambda (.lift (fun r hrun => ?_) fun _ _ => trivial))
  refine .bind (.addNested (Made.widen ⟨⟨hb.grown hrun, .nil⟩, ?_, (by rintro _ ⟨⟩)⟩))
  rintro _ ⟨⟩
  exact Operand.known_lit _ _

end Rules

/-! ### Trees -/

-- One case for each constructor: the rule of the same name applies to what holds of the parts.
mutual

theorem exprMade (c : Context α) : (x : Expr α) → ExprMade c x
  | .lit .. => .lit
  | .var .. => .var
  | .binary _ _ op x y => by
    cases hop : op.isLogical with
    | true => exact .logical hop (exprMade c x) (exprMade c y)
    | false =>
      exact .operation (if_neg (by simp [hop])) (by simp [exprMade c x, exprMade c y]) (by simp)
  | .unary _ _ _ x => .operation rfl (by simp [exprMade c x]) (by simp)
  | .call _ _ callee args => .call (exprMade c callee) (valuesMade c args)
  | .cond _ _ test b none => .ifThen (exprMade c test) (blockMade c b)
  | .cond _ _ test b (some e) => .ifElse (exprMade c test) (blockMade c b) (exprMade c e)
  | .block b => .block (blockMade c b)
  | .assign _ _ (.var ..) y => .assignVar (exprMade c y)
  | .assign _ _ (.field _ _ x _) y =>
    .operation rfl (by simp [exprMade c x, exprMade c y]) (by simp)
  | .assign _ _ (.index _ _ x i) y =>
    .operation rfl (by simp [exprMade c x, exprMade c i, exprMade c y]) (by simp)
  | .assign _ _ (.lit ..) _ | .assign _ _ (.binary ..) _ | .assign _ _ (.unary ..) _
  | .assign _ _ (.call ..) _ | .assign _ _ (.cond ..) _ | .assign _ _ (.block ..) _
  | .assign _ _ (.assign ..) _ | .assign _ _ (.array ..) _ | .assign _ _ (.lambda ..) _
  | .assign _ _ (.struct ..) _ => .assignOther rfl
  | .field _ _ x _ => .field (exprMade c x)
  | .array _ _ es => .operation rfl (valuesMade c es) (by simp)
  | .index _ _ x i => .operation rfl (by simp [exprMade c x, exprMade c i]) (by simp)
  | .lambda _ _ _ _ b => .lambda (blockMade c b)
  | .struct _ _ _ fs => .operation rfl (fieldsMade c fs) (by simp [assignsFields_eq])

theorem valuesMade (c : Context α) : (xs : List (Expr α)) → ∀ x ∈ xs, ExprMade c x
  | [] => forall_mem_nil _
  | x :: xs => forall_mem_cons.mpr ⟨exprMade c x, valuesMade c xs⟩

theorem fieldsMade (c : Context α) :
    (fs : List (FieldValue α)) → ∀ x ∈ fs.map FieldValue.value, ExprMade c x
  | [] => forall_mem_nil _
  | .mk _ _ x :: fs => forall_mem_cons.mpr ⟨exprMade c x, fieldsMade c fs⟩

theorem blockMade (c : Context α) : (b : Block α) → BlockMade c b
  | .mk _ _ ss none => .unit (stmtsMade c ss)
  | .mk _ _ ss (some x) => .value (stmtsMade c ss) (exprMade c x)

theorem stmtMade (c : Context α) : (s : Stmt α) → StmtMade c s
  | .letVar _ _ _ x => .letVar (exprMade c x)
  | .ret _ none => .retNone
  | .ret _ (some x) => .ret (exprMade c x)
  | .loop _ test b => .loop (exprMade c test) (blockMade c b)
  | .forRange _ _ a z b => .forRange (exprMade c a) (exprMade c z) (blockMade c b)
  | .forEach _ _ a b => .forEach (exprMade c a) (blockMade c b)
  | .expr x => .expr (exprMade c x)

theorem stmtsMade (c : Context α) : (ss : List (Stmt α)) → StmtsMade c ss
  | [] => .nil
  | s :: ss => .cons (stmtMade c s) (stmtsMade c ss)

end

/-! ### Programs -/

/-- **Lowered functions are valid.** -/
theorem lowerFuncs_valid (c : Context α)
    (h : lowerFuncs c [] decls = .ok fs) : ∀ f ∈ fs, f.Valid := by
  obtain ⟨rs, -, hrs, rfl⟩ := lowerFuncs_eq_ok h
  intro f hf
  obtain ⟨r, hr, hf⟩ := mem_flatMap.mp hf
  exact ((blockMade c r.1.body).valid r.1.body.span (hrs r hr)).1 f hf

end Lowering

/-- **A lowering never fails because its code is not valid.** -/
theorem lowerWith_eq (c : Lowering.Context α) (decls : List (FuncDecl α)) :
    lowerWith c decls =
      match Lowering.lowerFuncs c [] decls with
      | .error e => .error (.rejected e)
      | .ok fs => .ok ⟨fs⟩ := by
  unfold lowerWith
  cases h : Lowering.lowerFuncs c [] decls with
  | error e => rfl
  | ok fs =>
    have hvalid := Lowering.lowerFuncs_valid c h
    simp [Program.check, checkFuncs_eq_ok_iff.mpr fun f hf => (hvalid f hf).toAccepted]

end Tac

/-- What the lowering of a checked program knows about it. -/
abbrev Package.lowering (package : Package) : Tac.Lowering.Context Note :=
  ⟨id, package.defs, package.program.funcs.map fun f => f.name.text⟩

namespace Tac

/-- The functions of a package, if it can be lowered. -/
def lowered? (package : Package) : Option (List Func) :=
  (Lowering.lowerFuncs package.lowering [] package.program.funcs).toOption

lemma lower_of_lowered? {package : Package} (h : lowered? package = some fs) :
    lower package = .ok ⟨fs⟩ := by
  unfold lowered? at h
  rw [lower, lowerWith_eq]
  cases hfs : Lowering.lowerFuncs package.lowering [] package.program.funcs with
  | error e =>
    rw [hfs] at h
    cases h
  | ok fs' =>
    rw [hfs] at h
    cases h
    rfl

end Tac

end Minilang
