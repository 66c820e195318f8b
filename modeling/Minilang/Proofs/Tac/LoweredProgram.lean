import Minilang.Proofs.Tac.LoweringTypes
import Minilang.Proofs.Tac.Safety

/-!
# Typed programs become safe code

The rules for statements and blocks follow those for expressions.  With all of them, the lowering of
a tree follows the typing of the tree rule by rule, and so do the functions of a program: the
program that results is well typed, and only faults where a typed program may.
-/

namespace Minilang

open List

open Typing (ExprTyped EachTyped BlockTyped StmtTyped StmtsTyped)

namespace Tac

variable {sig : Bytes → Signature → Prop} {c : Static} {decls : List (FuncDecl Note)}
  {bs : Signatures}

namespace Lowering

attribute [local simp] lowerExpr lowerBlock lowerStmt lowerStmts

variable {base : Signatures} {W : Layout} {k : Setting} {F : Flow} {R a t u : Ty} {env : Env}
  {Γ Γ' Γ'' : Typing.Env} {s s' : Span} {n : Note} {x y : Expr Note} {b : Block Note}
  {ends ends' ends'' : Bool}

/-! ### Statements -/

section Statements

variable (k)

/-- The result of lowering statements: their code, and the variables in sight after them.  What
follows statements that end their block early is not reached. -/
def StmtGives (R : Ty) (F : Flow) (Γ' : Typing.Env) (ends : Bool) (r : Code × Env) (W : Layout) :
    Prop :=
  ∃ F' : Flow, F.Le F' ∧ (ends = true → F' = .dead) ∧ CodeTyped k.types W R F r.1 F' ∧
    InScope k W F' r.2 Γ'

/-- The lowering of a statement gives typed code, if nothing is missing. -/
def LowersStmt (R : Ty) (Γ : Typing.Env) (x : Stmt Note) (Γ' : Typing.Env) (ends : Bool) : Prop :=
  ∀ ⦃base W F func env⦄, InScope k W F env Γ →
    Spec k.types base W (lowerStmt k.context func env x) (missingStmt x)
      (StmtGives k R F Γ' ends)

/-- The lowering of statements gives typed code, after the code of those before. -/
def LowersStmts (R : Ty) (Γ : Typing.Env) (ends : Bool) (xs : List (Stmt Note)) (Γ' : Typing.Env)
    (ends' : Bool) : Prop :=
  ∀ ⦃base W F func env⦄ (code : List Code), StmtGives k R F Γ ends
    (code.reverse.flatten, env) W →
    Spec k.types base W (lowerStmts k.context func env code xs) (missingStmts xs)
      (StmtGives k R F Γ' ends')

variable {k} {i : Name} {op : BinaryOp} {stmts : List (Stmt Note)} {G : Flow} {counter limit : Nat}

lemma LowersStmts.nil : LowersStmts k R Γ ends [] Γ ends := by
  intro base W F func env code h
  exact .pure h

lemma LowersStmts.cons {st : Stmt Note} {sts : List (Stmt Note)}
    (hst : LowersStmt k R Γ st Γ' ends') (hsts : LowersStmts k R Γ' ends' sts Γ'' ends'') :
    LowersStmts k R Γ ends (st :: sts) Γ'' ends'' := by
  rintro base W F func env code ⟨F1, hle, -, hcode, henv⟩
  refine (hst henv).bind ?_
  rintro ⟨sc, env'⟩ V hV ⟨F2, hle', hends, hsc, henv'⟩
  refine hsts (sc :: code) ⟨F2, hle.trans hle', hends, ?_, henv'⟩
  rw [flatten_reverse_cons]
  exact (hcode.mono hV).append hsc

lemma LowersStmt.letVar {x : Name} {type : Option TypeExpr} {v : Expr Note}
    (hv : LowersExpr k R Γ v a) (hsub : a.Sub u) :
    LowersStmt k R Γ (.letVar s x type v) ((x.text, u) :: Γ) false := by
  intro base W F func env henv
  refine Spec.lastValue (hv henv) fun vc v F1 V1 hV1 hv => ?_
  refine (Spec.newReg u).after fun d V hV hd => .pure ?_
  have hle : F.Le (F1.write d u) := hv.le.trans (Flow.le_write ..)
  have hvalue : v.HasType V F1 u := .sub ((hv.value v rfl).mono hV (.refl _)) hsub
  refine ⟨F1.write d u, hle, nofun, (hv.code.mono hV).append (.one (.assign hvalue hd)),
    (henv.mono (hV1.trans hV) hle).push hd (F1.has_write d u) ?_⟩
  rintro rfl
  exact F1.write_never d

lemma LowersStmt.retNone (hR : R = .unit) : LowersStmt k R Γ (.ret s none) Γ true := by
  intro base W F func env henv
  exact .pure ⟨.dead, F.le_dead, fun _ => rfl, .one (.retNull hR), henv.mono (.refl W) F.le_dead⟩

lemma LowersStmt.ret (hx : LowersExpr k R Γ x a) (hsub : a.Sub R) :
    LowersStmt k R Γ (.ret s (some x)) Γ true := by
  intro base W F func env henv
  refine Spec.lastValue (hx henv) fun xc v F1 V hV hx => .pure ?_
  exact ⟨.dead, F.le_dead, fun _ => rfl, hx.code.append (.one (.ret (.sub (hx.value v rfl) hsub))),
    henv.mono hV F.le_dead⟩

lemma LowersStmt.expr (hx : LowersExpr k R Γ x t) : LowersStmt k R Γ (.expr x) Γ (t = .never) := by
  intro base W F func env henv
  refine (hx henv).last fun l V hV ⟨_, F', hl⟩ => .pure ?_
  exact ⟨F', hl.le, fun h => hl.dead (of_decide_eq_true h), hl.code, henv.mono hV hl.le⟩

lemma LowersStmt.loop (hx : LowersExpr k R Γ x .bool) (hb : LowersBlock k R Γ b a) :
    LowersStmt k R Γ (.loop s x b) Γ false := by
  intro base W F func env henv
  refine (Spec.newLabel "loop" F).after fun loop V1 hV1 hloop => ?_
  refine (Spec.newLabel "end" F).after fun stop V2 hV2 hstop => ?_
  have henv2 := henv.mono (hV1.trans hV2) (.refl F)
  refine Spec.value (hx henv2) fun xc v F1 V3 hV3 hx => ?_
  refine (hb (henv2.mono hV3 hx.le)).last fun l V hV ⟨_, F2, hl⟩ => .pure ?_
  have hloop' := hV.labels (hV3.labels (hV2.labels hloop))
  have hstop' := hV.labels (hV3.labels hstop)
  have hx' := hx.mono hV
  refine ⟨F, .refl F, nofun, ?_, henv2.mono (hV3.trans hV) (.refl F)⟩
  exact ((((CodeTyped.one (.label hloop' (.refl F))).append hx'.code).append
    (.one (.jumpUnless (hx'.value v rfl) hstop' hx.le))).append hl.code).append
    (.cons (.jump hloop' (hx.le.trans hl.le)) (.one (.label hstop' F.le_dead)))

/-- The code of a counting loop, with the flow `G` before each turn and after the last one. -/
theorem countingLoop_typed {H K : Flow} {loop stop : Bytes} {test : Nat} {elem : Located Instr}
    {body : Code} (hloop : (loop, G) ∈ W.labels) (hstop : (stop, G) ∈ W.labels)
    (hcounter : W.regs[counter]? = some .int) (hlimit : W.regs[limit]? = some .int)
    (htest : W.regs[test]? = some .bool) (hG : G.Has counter ∧ G.Has limit)
    (helem : elem.val.Typed c W R elem.span (G.write test .bool) H) (hH : (G.write test .bool).Le H)
    (hbody : CodeTyped c W R H body K) (hK : H.Le K) :
    CodeTyped c W R G (countingLoop s loop stop counter limit test elem body) G := by
  have hGK : G.Le K := ((G.le_write test .bool).trans hH).trans hK
  refine (CodeTyped.append ?_ hbody).append ?_
  · exact .cons (.label hloop (.refl G)) (.cons (.binary (.reg hcounter (.inr hG.1))
      (.reg hlimit (.inr hG.2)) rfl htest) (.cons (.jumpUnless (.written G htest) hstop
      (G.le_write ..)) (.one helem)))
  · exact .cons (.binary (.reg hcounter (.inr (hG.1.mono hGK))) .int rfl hcounter)
      (.cons (.jump hloop (hGK.trans (K.le_write ..))) (.one (.label hstop G.le_dead)))

/-- The part that the two kinds of counting loops share: after `init` the flow is `G`, and `elem`
writes the loop variable. -/
theorem countingLoop_spec {init : Code} {elem : Nat → Located Instr} {func i : Bytes}
    (henv : InScope k W F env Γ) (hle : F.Le G) (hinit : CodeTyped k.types W R F init G)
    (hcounter : W.regs[counter]? = some .int) (hlimit : W.regs[limit]? = some .int)
    (hG : G.Has counter ∧ G.Has limit) (helem : ∀ v V H, W.Le V → G.Le H → V.regs[v]? = some u →
      (elem v).val.Typed k.types V R (elem v).span H (H.write v u))
    (hb : LowersBlock k R ((i, u) :: Γ) b a) :
    Spec k.types base W (do
      let loop ← newLabel "loop"
      let stop ← newLabel "end"
      let test ← newReg
      let v ← newReg
      let body ← lowerBlock k.context func ((i, v) :: env) b
      return (init ++ countingLoop s loop stop counter limit test (elem v) body.code, env))
      (missingBlock b) (StmtGives k R F Γ false) := by
  refine (Spec.newLabel "loop" G).after fun loop V1 hV1 hloop => ?_
  refine (Spec.newLabel "end" G).after fun stop V2 hV2 hstop => ?_
  refine (Spec.newReg .bool).after fun test V3 hV3 htest => ?_
  refine (Spec.newReg u).after fun v V4 hV4 hv => ?_
  have hV14 := hV2.trans (hV3.trans hV4)
  have hW : W.Le V4 := hV1.trans hV14
  let H := (G.write test .bool).write v u
  have hGH : G.Le H := (G.le_write test .bool).trans (Flow.le_write ..)
  have henv' : InScope k V4 H ((i, v) :: env) ((i, u) :: Γ) := by
    refine (henv.mono hW (hle.trans hGH)).push hv (Flow.has_write ..) ?_
    rintro rfl
    exact Flow.write_never ..
  refine (hb henv').last fun l V hV ⟨_, K, hl⟩ => .pure ?_
  have hWV : W.Le V := hW.trans hV
  refine ⟨G, hle, nofun, (hinit.mono hWV).append ?_, henv.mono hWV hle⟩
  exact countingLoop_typed ((hV14.trans hV).labels hloop)
    (((hV3.trans hV4).trans hV).labels hstop) (hWV.regs hcounter) (hWV.regs hlimit)
    ((hV4.trans hV).regs htest) hG (helem v V _ hWV (G.le_write ..) (hV.regs hv))
    (Flow.le_write ..) hl.code hl.le

lemma LowersStmt.forRange (hx : LowersExpr k R Γ x .int) (hy : LowersExpr k R Γ y .int)
    (hb : LowersBlock k R ((i.text, .int) :: Γ) b a) :
    LowersStmt k R Γ (.forRange s i x y b) Γ false := by
  intro base W F func env henv
  refine Spec.value (hx henv) fun xc xv F1 V1 hV1 hx => ?_
  refine Spec.value (hy (henv.mono hV1 hx.le)) fun yc yv F2 V2 hV2 hy => ?_
  refine (Spec.newReg .int).after fun counter V3 hV3 hcounter => ?_
  refine (Spec.newReg .int).after fun bound V4 hV4 hbound => ?_
  have hV : V2.Le V4 := hV3.trans hV4
  have hcounter' := hV4.regs hcounter
  have hF2 : F1.Le F2 := hy.le
  have hG : F2.Le ((F2.write counter .int).write bound .int) :=
    (F2.le_write ..).trans (Flow.le_write ..)
  have hhas := (F2.has_write counter .int).resolve_left nofun
  refine countingLoop_spec (henv.mono (hV1.trans (hV2.trans hV)) (.refl F))
    ((hx.le.trans hF2).trans hG) ?_ hcounter' hbound
    ⟨hhas.mono (Flow.le_write ..), (Flow.has_write ..).resolve_left nofun⟩
    (fun v V H hV hH hv => .assign (.reg (hV.regs hcounter') (.inr ((hhas.mono
      (Flow.le_write ..)).mono hH))) hv) hb
  refine ((hx.code.mono (hV2.trans hV)).append (hy.code.mono hV)).append
    (.cons (.assign ?_ hcounter') (.one (.assign ?_ hbound)))
  · exact (hx.value xv rfl).mono (hV2.trans hV) hF2
  · exact (hy.value yv rfl).mono hV (F2.le_write ..)

lemma LowersStmt.forEach (hx : LowersExpr k R Γ x (.array u))
    (hb : LowersBlock k R ((i.text, u) :: Γ) b a) :
    LowersStmt k R Γ (.forEach s i x b) Γ false := by
  intro base W F func env henv
  refine Spec.value (hx henv) fun xc xv F1 V1 hV1 hx => ?_
  refine (Spec.newReg (.array u)).after fun ref V2 hV2 href => ?_
  refine (Spec.newReg .int).after fun bound V3 hV3 hbound => ?_
  refine (Spec.newReg .int).after fun counter V4 hV4 hcounter => ?_
  have hV : V1.Le V4 := hV2.trans (hV3.trans hV4)
  have href' := (hV3.trans hV4).regs href
  have hbound' := hV4.regs hbound
  let F2 := F1.write ref (.array u)
  let F3 := F2.write bound .int
  let G := F3.write counter .int
  have hF2 : F2.Has ref := (F1.has_write ..).resolve_left nofun
  have hF3 : F3.Has bound := (F2.has_write ..).resolve_left nofun
  have hG : G.Has counter := (F3.has_write ..).resolve_left nofun
  have hG2 : F2.Le G := (F2.le_write ..).trans (F3.le_write ..)
  refine countingLoop_spec (henv.mono (hV1.trans hV) (.refl F))
    (hx.le.trans ((F1.le_write ..).trans hG2)) ?_ hcounter hbound'
    ⟨hG, hF3.mono (F3.le_write ..)⟩
    (fun v V H hV hH hv => .index (.reg (hV.regs href') (.inr (hF2.mono (hG2.trans hH))))
      (.reg (hV.regs hcounter) (.inr (hG.mono hH))) hv) hb
  refine (hx.code.mono hV).append (.cons (.assign ?_ href') (.cons (.unary (.reg href' (.inr hF2))
    rfl hbound') (.one (.assign .int hcounter))))
  exact (hx.value xv rfl).mono hV (.refl _)

lemma LowersBlock.value (hstmts : LowersStmts k R Γ false stmts Γ' ends)
    (hx : LowersExpr k R Γ' x u) (hn : n.Gives u t) :
    LowersBlock k R Γ (.mk s n stmts (some x)) t := by
  intro base W F func env henv
  rw [blockHasValue]
  refine (hstmts [] ⟨F, .refl F, nofun, .nil, henv⟩).bind ?_
  rintro ⟨code, env'⟩ V hV ⟨F1, hle, -, hcode, henv'⟩
  refine (hx henv').last fun l V' hV' ⟨hhas, F2, hl⟩ => ?_
  rw [← hhas]
  exact widen_spec hn ⟨hle.trans hl.le, hl.dead, (hcode.mono hV').append hl.code, hl.value,
    hl.noValue⟩

lemma LowersBlock.unit (hstmts : LowersStmts k R Γ false stmts Γ' ends) :
    LowersBlock k R Γ (.mk s n stmts none) (if ends then .never else .unit) := by
  intro base W F func env henv
  refine (hstmts [] ⟨F, .refl F, nofun, .nil, henv⟩).last ?_
  rintro ⟨code, env'⟩ V hV ⟨F1, hle, hends, hcode, -⟩
  refine .pure ⟨rfl, F1, hle, ?_, hcode, nofun, fun _ => ?_⟩
  · split
    · exact fun _ => hends ‹_›
    · rintro ⟨⟩
  · split
    · exact .inr rfl
    · exact .inl rfl

lemma types_of_logical {b : Ty} (hop : op.isLogical = true)
    (hu : Typing.binaryType? op a b = some u) : a = .bool ∧ b = .bool ∧ u = .bool := by
  cases op with
  | and | or =>
    simp only [Typing.binaryType?, Option.ite_none_right_eq_some, Option.some.injEq] at hu
    exact ⟨hu.1.1, hu.1.2, hu.2.symm⟩
  | _ => cases hop

lemma LowersExpr.binary {a' : Ty} (hx : LowersExpr k R Γ x a)
    (hy : LowersExpr k R Γ y a') (hu : Typing.binaryType? op a a' = some u)
    (hn : n.Gives u t) : LowersExpr k R Γ (.binary s n op x y) t := by
  cases hop : op.isLogical with
  | false => exact .arithmetic hop hx hy hu hn
  | true =>
    obtain ⟨rfl, rfl, rfl⟩ := types_of_logical hop hu
    exact .logical hop hx hy hn

lemma LowersExpr.block (hb : LowersBlock k R Γ b t) : LowersExpr k R Γ (.block b) t := by
  intro base W F func env henv
  exact hb henv

end Statements

/-! ### Trees -/

-- One case for each typing rule: the rule for the lowering of the same name applies to what holds
-- of the parts.
mutual

theorem LowersExpr.of_typed {R : Ty} {Γ : Typing.Env} {x : Expr Note} {t : Ty} :
    ExprTyped k.types k.sig (.of R) Γ x t → LowersExpr k R Γ x t
  | .lit hn => .lit hn
  | .var hx hn => .var hx hn
  | .func hx hg hn => .func hx hg hn
  | .binary hx hy hu hn => .binary (.of_typed hx) (.of_typed hy) hu hn
  | .unary hx hu hn => .unary (.of_typed hx) hu hn
  | .print hrole hx => .print hrole (.of_typed hx)
  | .len hrole hx ha hn => .len hrole (.of_typed hx) ha hn
  | .build hrole hv hargs hn => .build hrole hv (.of_typed hargs) hn
  | .call hrole hf hargs hn => .call hrole (.of_typed hf) (.of_typed hargs) hn
  | .ifThen hx hb => .ifThen (.of_typed hx) (.of_typed hb)
  | .ifElse hx hb he ha ha' hnever hn =>
    .ifElse (.of_typed hx) (.of_typed hb) (.of_typed he) ha ha' hnever hn
  | .block hb => .block (.of_typed hb)
  | .assignVar hx hv hsub => .assignVar hx (.of_typed hv) hsub
  | .assignField hx hs hv hsub => .assignField (.of_typed hx) hs (.of_typed hv) hsub
  | .assignIndex hx hi hv hsub => .assignIndex (.of_typed hx) (.of_typed hi) (.of_typed hv) hsub
  | .variant hrole hv hpayload hn => .variant hrole hv hpayload hn
  | .field hrole hx hs hn => .field hrole (.of_typed hx) hs hn
  | .array hes hn => .array (.of_typed hes) hn
  | .index hx hi hn => .index (.of_typed hx) (.of_typed hi) hn
  | .lambda hlen hnever hb hsub hn => .lambda hlen hnever (.of_typed hb) hsub hn
  | .struct htype hdef hnodup hfs hall hn => .struct htype hdef hnodup (.of_typed hfs) hall hn

theorem LowersEach.of_typed {R : Ty} {Γ : Typing.Env} {xs : List (Expr Note)} {ts : List Ty} :
    EachTyped k.types k.sig (.of R) Γ xs ts → LowersEach k R Γ xs ts
  | .nil => .nil
  | .cons hx hsub hxs => .cons (.of_typed hx) hsub (.of_typed hxs)

theorem LowersFields.of_typed {R : Ty} {Γ : Typing.Env} {declared : List (Bytes × Ty)}
    {fs : List (FieldValue Note)} :
    Typing.FieldsTyped k.types k.sig (.of R) Γ declared fs → LowersFields k R Γ declared fs
  | .nil => .nil
  | .cons ht hx hsub hfs => .cons ht (.of_typed hx) hsub (.of_typed hfs)

theorem LowersBlock.of_typed {R : Ty} {Γ : Typing.Env} {b : Block Note} {t : Ty} :
    BlockTyped k.types k.sig (.of R) Γ b t → LowersBlock k R Γ b t
  | .value hstmts hx hn => .value (.of_typed hstmts) (.of_typed hx) hn
  | .unit hstmts => .unit (.of_typed hstmts)

theorem LowersStmt.of_typed {R : Ty} {Γ Γ' : Typing.Env} {x : Stmt Note} {ends : Bool} :
    StmtTyped k.types k.sig (.of R) Γ x Γ' ends → LowersStmt k R Γ x Γ' ends
  | .letVar hv hsub => .letVar (.of_typed hv) hsub
  | .retNone hR => .retNone hR.eq_of_unit
  | .ret hx hsub => .ret (.of_typed hx) hsub
  | .loop hx hb => .loop (.of_typed hx) (.of_typed hb)
  | .forRange hx hy hb => .forRange (.of_typed hx) (.of_typed hy) (.of_typed hb)
  | .forEach hx hb => .forEach (.of_typed hx) (.of_typed hb)
  | .expr hx => .expr (.of_typed hx)

theorem LowersStmts.of_typed {R : Ty} {Γ Γ' : Typing.Env} {xs : List (Stmt Note)}
    {ends ends' : Bool} :
    StmtsTyped k.types k.sig (.of R) Γ ends xs Γ' ends' → LowersStmts k R Γ ends xs Γ' ends'
  | .nil => .nil
  | .cons hx hxs => .cons (.of_typed hx) (.of_typed hxs)

end

/-! ### Programs -/

/-- The setting in which the functions of a program are lowered. -/
abbrev Setting.ofDecls (c : Static) (sig : Bytes → Signature → Prop)
    (decls : List (FuncDecl Note)) : Setting :=
  ⟨c, sig, decls.map fun f => f.name.text⟩

lemma Setting.Names.ofDecls (hdecls : Forall₂ (Typing.DeclTyped c sig) decls bs)
    (hsig : ∀ {name g}, sig name g → (name, g) ∈ bs) : (Setting.ofDecls c sig decls).Names bs := by
  refine fun name g hg => ⟨?_, hsig hg⟩
  have hmem := hsig hg
  clear hsig hg
  induction hdecls with
  | nil => cases hmem
  | cons hd _ ih =>
    rcases mem_cons.mp hmem with rfl | hmem
    · exact mem_cons.mpr (.inl hd.1)
    · exact mem_cons_of_mem _ (ih hmem)

variable (hdecls : Forall₂ (Typing.DeclTyped k.types k.sig) decls bs)

include hdecls

/-- The functions of declarations have the signatures of these, and function literals bring the
others. -/
theorem lowerFuncs_typed {S : Signatures} (hfuncs : k.Names S) {fs : List Func}
    (hlower : lowerFuncs k.context [] decls = .ok fs) :
    ∃ S', S ⊆ S' ∧ Provided k.types S S' fs ∧ ∀ b ∈ bs, ∃ f ∈ fs, f.name = b.1 ∧
    Keeps k.types S' b.2 f := by
  obtain ⟨rs, rfl, hrs, rfl⟩ := lowerFuncs_eq_ok hlower
  rw [forall₂_map_left_iff] at hdecls
  clear hlower
  rw [reverse_nil, flatten_nil, nil_append]
  induction hdecls generalizing S with
  | nil => exact ⟨S, Subset.refl _, fun _ _ h => .inl h, forall_mem_nil _⟩
  | @cons r b rs bs hd _ ih =>
    obtain ⟨hname, hlen, hnever, a, hbody, hsub⟩ := hd
    obtain ⟨hrun, hrs⟩ := forall_mem_cons.mp hrs
    obtain ⟨-, S1, hS1, hnew, f, hf, hfname, hkeeps⟩ :=
      (LowersBlock.of_typed hbody).func hsub hlen hnever hfuncs r.1.body.span hrun
    obtain ⟨S2, hS2, hrest, hbs⟩ := ih (fun _ _ hsig => (hfuncs hsig).imp_right (hS1 ·)) hrs
    refine ⟨S2, Subset.trans hS1 hS2, fun n g hmem => ?_, forall_mem_cons.mpr ⟨?_, ?_⟩⟩
    · rcases hrest hmem with hold | ⟨f, hf, hfound⟩
      · refine (hnew hold).imp_right ?_
        rintro ⟨f, hf, hname, hkeeps⟩
        exact ⟨f, mem_append_left _ hf, hname, hkeeps.mono hS2⟩
      · exact .inr ⟨f, mem_append_right _ hf, hfound⟩
    · exact ⟨f, mem_append_left _ hf, hfname.trans hname.symm, hkeeps.mono hS2⟩
    · intro b' hb'
      obtain ⟨f, hf, hfound⟩ := hbs b' hb'
      exact ⟨f, mem_append_right _ hf, hfound⟩

/-- The lowering of functions fails at the first expression that is missing in them, if any is. -/
theorem lowerFuncs_lacks {bs' : Signatures} (hfuncs : k.Names bs') (done : List (List Func)) :
    match lowerFuncs k.context done decls with
    | .ok _ => (decls.flatMap fun f => missingBlock f.body) = []
    | .error e => Fails (decls.flatMap fun f => missingBlock f.body) e := by
  induction hdecls generalizing done with
  | nil => rfl
  | @cons d b decls bs hd _ ih =>
    obtain ⟨-, hlen, hnever, a, hbody, -⟩ := hd
    have hlacks : LowersBlock k b.2.result _ d.body a := .of_typed hbody
    rw [flatMap_cons]
    simp only [lowerFuncs, lowerFunc]
    cases hrun : (lowerBlock k.context d.name.text (paramEnv d.params) d.body).run
        (.start d.params.length) with
    | error e => exact ((hlacks.start hlen hnever hfuncs).error hrun).append _
    | ok r =>
      rw [((hlacks.start hlen hnever hfuncs).ok hrun).1]
      exact ih _

end Lowering

/-! ### Programs -/

variable {f : Func} {p : Program}

lemma Program.index?_of_mem (hnodup : (p.funcs.map Func.name).Nodup) (hf : f ∈ p.funcs) :
    ∃ k, p.index? f.name = some k ∧ p.funcs[k]? = some f := by
  have hsome : (p.index? f.name).isSome := by
    rw [index?, findIdx?_isSome]
    exact any_eq_true.mpr ⟨f, hf, by simp⟩
  obtain ⟨k, hk⟩ := Option.isSome_iff_exists.mp hsome
  obtain ⟨hlt, hname, -⟩ := findIdx?_eq_some_iff_getElem.mp hk
  have heq : p.funcs[k] = f :=
    inj_on_of_nodup_map hnodup (getElem_mem hlt) hf (of_decide_eq_true hname)
  exact ⟨k, hk, heq ▸ getElem?_eq_getElem hlt⟩

/-- **The code of a typed program is typed.** -/
theorem lowerWith_typed (hdecls : Forall₂ (Typing.DeclTyped c sig) decls bs)
    (hsig : ∀ {name g}, sig name g → (name, g) ∈ bs)
    (hlower : lowerWith (Lowering.Setting.ofDecls c sig decls).context decls = .ok p)
    (hnodup : (p.funcs.map Func.name).Nodup) : ∃ sigs, bs ⊆ sigs ∧ p.Typed c sigs := by
  rw [lowerWith] at hlower
  split at hlower
  · cases hlower
  rename_i fs hfs
  split at hlower
  · cases hlower
  rename_i hcheck
  cases hlower
  obtain ⟨sigs, hsigs, hprovided, hbs⟩ :=
    Lowering.lowerFuncs_typed hdecls (.ofDecls hdecls hsig) hfs
  refine ⟨sigs, hsigs, fun {name g} hmem => ?_, fun f hf i hi l hl =>
    mem_labelsOf.mp ((checkFuncs_eq_ok_iff.mp hcheck f hf).jumps i hi l hl)⟩
  obtain ⟨f, hf, hname, hkeeps⟩ : ∃ f ∈ fs, f.name = name ∧ Lowering.Keeps c sigs g f := by
    rcases hprovided hmem with hold | hfound
    · exact hbs (name, g) hold
    · exact hfound
  obtain ⟨k, hk, hkf⟩ := Program.index?_of_mem hnodup hf
  obtain ⟨V, hV, htyped⟩ := hkeeps sigs (Subset.refl _)
  exact ⟨k, f, V, hname ▸ hk, hkf, hV, htyped⟩

end Tac

end Minilang
