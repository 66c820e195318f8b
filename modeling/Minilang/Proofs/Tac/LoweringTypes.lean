import Minilang.Proofs.Tac.Missing
import Minilang.Proofs.Typing.Rules

/-!
# Typed trees become typed code

The lowering of a typed tree gives code that follows the rules for three-address code: an operand
holds a value of the type of its expression, and what follows an expression of type `never` is not
reached.  The lowering gives code if no value that it needs is missing, and otherwise fails at the
first expression that has none.

The types of the registers and the flows of the labels are found along with the lowering.  So the
statements are about a layout that fits the state of the lowering and only ever grows: whatever a
lowering comes to, some larger layout fits the state after it.
-/

namespace Minilang

open List

open Typing (ExprTyped EachTyped FieldsTyped BlockTyped StmtTyped StmtsTyped)

namespace Tac.Lowering

-- The rules below are about one equation of the lowering each.
attribute [local simp] lowerExpr lowerValues lowerFields lowerBlock lowerStmt lowerStmts

/-! ### Layouts and states -/

variable {S' S : Signatures} {c : Static} {g : Signature}

/-- A function has a signature, whatever functions there are besides the given ones. -/
def Keeps (c : Static) (S : Signatures) (g : Signature) (f : Func) : Prop :=
  ∀ sigs, S ⊆ sigs → ∃ V : Layout, V.sigs = sigs ∧ f.Typed c V g

lemma Keeps.mono {f : Func} (h : Keeps c S g f) (hS : S ⊆ S') : Keeps c S' g f :=
  fun sigs hsigs => h sigs (Subset.trans hS hsigs)

/-- Some of the functions have the signatures that are not in `S`. -/
def Provided (c : Static) (S S' : Signatures) (fs : List Func) : Prop :=
  ∀ ⦃name : Bytes⦄ ⦃g : Signature⦄, (name, g) ∈ S' →
    (name, g) ∈ S ∨ ∃ f ∈ fs, f.name = name ∧ Keeps c S' g f

/-- A layout that fits the state of a lowering.  The functions known at the start are in `base`, and
all others have been made from function literals. -/
structure Fits (c : Static) (base : Signatures) (W : Layout) (st : State) :
    Prop where
  regs : W.regs.length = st.numVars
  count : ∀ {l F}, (l, F) ∈ W.labels →
    ∃ stem k, k < st.labels.count ∧ l = Bytes.concat [stem, ".", Decimal.ofNat k]
  labels : ∀ {l F G}, (l, F) ∈ W.labels → (l, G) ∈ W.labels → F = G
  nested : Provided c base W.sigs st.nested

/-- A lowering succeeds if nothing is missing: then a larger layout fits the state after it, and its
result is as stated for this layout.  Otherwise it fails at the first of what is missing. -/
def Spec {β : Type} (c : Static) (base : Signatures) (W : Layout) (m : M β)
    (ys : List (Expr Note)) (Q : β → Layout → Prop) : Prop :=
  ∀ st, Fits c base W st →
    Ends m st (fun a st' => ys = [] ∧ ∃ V, W.Le V ∧ Fits c base V st' ∧ Q a V) (Fails ys)

variable {β γ : Type} {base : Signatures} {W V : Layout} {ys zs : List (Expr Note)}
  {Q : γ → Layout → Prop} {st : State}

namespace Spec

lemma pure {a : β} {Q : β → Layout → Prop} (h : Q a W) : Spec c base W (pure a) [] Q :=
  fun _ hst => .pure ⟨rfl, W, .refl W, hst, h⟩

variable {m : M β} {f : β → M γ} {P : β → Layout → Prop}

/-- What a lowering says of a layout, it says of any smaller one. -/
theorem ends {Q : β → Layout → Prop} (h : Spec c base V m ys Q) (hV : W.Le V)
    (hst : Fits c base V st) :
    Ends m st (fun a st' => ys = [] ∧ ∃ V', W.Le V' ∧ Fits c base V' st' ∧ Q a V') (Fails ys) := by
  refine (h st hst).mono ?_
  rintro a st' ⟨hnone, V', hV', hst', ha⟩
  exact ⟨hnone, V', hV.trans hV', hst', ha⟩

lemma bind (hm : Spec c base W m ys P) (hf : ∀ a V, W.Le V → P a V → Spec c base V (f a) zs Q) :
    Spec c base W (m >>= f) (ys ++ zs) Q := by
  intro st hst
  refine .bind ((hm st hst).imp ?_ fun e he => he.append zs)
  rintro a st' ⟨rfl, V, hV, hst', ha⟩
  exact (hf a V hV ha).ends hV hst'

lemma after (hm : Spec c base W m [] P) (hf : ∀ a V, W.Le V → P a V → Spec c base V (f a) zs Q) :
    Spec c base W (m >>= f) zs Q :=
  hm.bind hf

lemma last (hm : Spec c base W m ys P) (hf : ∀ a V, W.Le V → P a V → Spec c base V (f a) [] Q) :
    Spec c base W (m >>= f) ys Q := by
  have h := hm.bind hf
  rwa [append_nil] at h

lemma imp {Q : β → Layout → Prop} (hm : Spec c base W m ys P)
    (h : ∀ a V, W.Le V → P a V → Q a V) : Spec c base W m ys Q := by
  intro st hst
  refine (hm st hst).mono ?_
  rintro a st' ⟨hnone, V, hV, hst', ha⟩
  exact ⟨hnone, V, hV, hst', h a V hV ha⟩

lemma nextReg (t : Ty) :
    Spec c base W newReg [] fun d V => d = W.regs.length ∧ V.regs[d]? = some t := by
  intro st hst
  refine .newReg ⟨rfl, ⟨W.regs ++ [t], W.labels, W.sigs⟩, ⟨fun hr => ?_, Subset.refl _,
    Subset.refl _⟩, ⟨by simp [hst.regs], hst.count, hst.labels, hst.nested⟩, ?_⟩
  · rwa [getElem?_append_left (List.getElem?_eq_some_iff.mp hr).1]
  · show st.numVars = W.regs.length ∧ (W.regs ++ [t])[st.numVars]? = some t
    rw [← hst.regs, getElem?_concat_length]
    exact ⟨rfl, rfl⟩

lemma newReg (t : Ty) : Spec c base W newReg [] fun d V => V.regs[d]? = some t :=
  (nextReg t).imp fun _ _ _ h => h.2

/-- What follows may take a register that the lowering before it has mentioned. -/
theorem lastReg {P : Nat → β → Layout → Prop} (hm : ∀ d, Spec c base W m ys (P d))
    (hf : ∀ a V, W.Le V → P V.regs.length a V → Spec c base V (f a) [] Q) :
    Spec c base W (m >>= f) ys Q := by
  intro st hst
  refine .bind (.of_run (fun a st' hrun => ?_) fun e hrun => (hm 0 st hst).error hrun)
  obtain ⟨rfl, V, hV, hst', ha⟩ := (hm st'.numVars st hst).ok hrun
  exact (hf a V hV (hst'.regs.symm ▸ ha)).ends hV hst'

end Spec

/-! ### Labels -/

lemma Spec.newLabel (stem : Bytes) (F : Flow) :
    Spec c base W (newLabel stem) [] fun l V => (l, F) ∈ V.labels := by
  intro st hst
  have hnew : ∀ {G},
      (Bytes.concat [stem, ".", Decimal.ofNat st.labels.count], G) ∉ W.labels := by
    intro G hmem
    obtain ⟨stem', k, hk, heq⟩ := hst.count hmem
    exact absurd (freshName_injective heq) (by omega)
  refine .newLabel ⟨rfl, ⟨W.regs, (_, F) :: W.labels, W.sigs⟩, ⟨id, subset_cons_self _ _,
    Subset.refl _⟩, ⟨hst.regs, ?_, ?_, hst.nested⟩, mem_cons_self ..⟩
  · intro l G hmem
    rcases mem_cons.mp hmem with heq | hmem
    · cases heq
      exact ⟨stem, st.labels.count, Nat.lt_succ_self _, rfl⟩
    · obtain ⟨stem', k, hk, heq⟩ := hst.count hmem
      exact ⟨stem', k, Nat.lt_succ_of_lt hk, heq⟩
  · intro l G H hG hH
    rcases mem_cons.mp hG with heq | hG <;> rcases mem_cons.mp hH with heq' | hH
    · cases heq
      cases heq'
      rfl
    · cases heq
      exact (hnew hH).elim
    · cases heq'
      exact (hnew hG).elim
    · exact hst.labels hG hH

/-! ### Variables and functions in sight -/

/-- What the lowering of a checked program knows: the types, and the functions that can be named,
with their signatures. -/
structure Setting where
  types : Static
  sig : Bytes → Signature → Prop
  funcs : List Bytes

/-- The context of the lowering of a checked program. -/
abbrev Setting.context (k : Setting) : Context Note :=
  ⟨id, k.types.defs, k.funcs⟩

/-- The functions that can be named are known. -/
def Setting.Names (k : Setting) (S : Signatures) : Prop :=
  ∀ ⦃name g⦄, k.sig name g → name ∈ k.funcs ∧ (name, g) ∈ S

variable {k : Setting} {F F' : Flow} {R t u : Ty} {env : Env} {Γ : Typing.Env} {x : Bytes}

/-- The variables in sight are in registers of their types, and the functions that can be named are
known. -/
structure InScope (k : Setting) (W : Layout) (F : Flow) (env : Env) (Γ : Typing.Env) : Prop where
  funcs : k.Names W.sigs
  vars : List.Forall₂ (fun e g => e.1 = g.1 ∧ W.regs[e.2]? = some g.2 ∧
    (g.2 = .unit ∨ F.Has e.2) ∧ (g.2 = .never → F = .dead)) env Γ

section

variable (h : InScope k W F env Γ)

include h

lemma InScope.mono (hW : W.Le V) (hF : F.Le F') : InScope k V F' env Γ :=
  ⟨fun _ _ hsig => (h.funcs hsig).imp_right (hW.sigs ·), h.vars.imp fun _ _ he =>
    ⟨he.1, hW.regs he.2.1, he.2.2.1.imp_right fun hr => hr.mono hF,
      fun ht => Flow.Le.eq_dead (he.2.2.2 ht ▸ hF)⟩⟩

lemma InScope.push {r : Nat} (hr : W.regs[r]? = some t) (hF : t = .unit ∨ F.Has r)
    (hdead : t = .never → F = .dead) : InScope k W F ((x, r) :: env) ((x, t) :: Γ) :=
  ⟨h.funcs, .cons ⟨rfl, hr, hF, hdead⟩ h.vars⟩

lemma InScope.lookup (x : Bytes) :
    (∀ t, lookup x Γ = some t → ∃ r, env.lookup x = some r ∧ W.regs[r]? = some t ∧
      (t = .unit ∨ F.Has r) ∧ (t = .never → F = .dead)) ∧
    (lookup x Γ = none → env.lookup x = none) :=
  lookup_forall₂ h.vars x

end

/-! ### Lowered expressions -/

variable {span : Span} {code : Code} {l : Lowered} {n : Note} {m : M Lowered}
  {f : Code × Operand → M γ}

/-- What an expression of a type has become: code, and an operand of this type after it.  An
expression without an operand has no value. -/
structure LoweredTyped (c : Static) (W : Layout) (R : Ty) (F F' : Flow) (t : Ty) (l : Lowered) :
    Prop where
  le : F.Le F'
  dead : t = .never → F' = .dead
  code : CodeTyped c W R F l.code F'
  value : ∀ v, l.value? = some v → v.HasType W F' t
  noValue : l.value? = none → t = .unit ∨ t = .never

/-- The result of a lowering is of a type, whatever flow comes out, and it has an operand if `has`
says so. -/
abbrev Gives (c : Static) (R : Ty) (F : Flow) (t : Ty) (has : Bool) (l : Lowered) (W : Layout) :
    Prop :=
  l.value?.isSome = has ∧ ∃ F', LoweredTyped c W R F F' t l

lemma LoweredTyped.mono (h : LoweredTyped c W R F F' t l) (hW : W.Le V) :
    LoweredTyped c V R F F' t l :=
  ⟨h.le, h.dead, h.code.mono hW, fun v hv => (h.value v hv).mono hW (.refl _), h.noValue⟩

lemma Spec.value {func : Bytes} {x : Expr Note}
    (hm : Spec c base W m ys (Gives c R F t (hasValue x)))
    (hf : ∀ code v F' V, W.Le V → LoweredTyped c V R F F' t ⟨code, some v⟩ →
      Spec c base V (f (code, v)) zs Q) :
    Spec c base W (m >>= fun l => needValue func x l >>= f) (ys ++ lacking x ++ zs) Q := by
  rw [append_assoc]
  refine hm.bind fun l V hV hl => ?_
  obtain ⟨hhas, F', hl⟩ := hl
  obtain ⟨code, v?⟩ := l
  cases v? with
  | none =>
    have hlacking : lacking x = [x] := by
      simp [lacking, ← hhas]
    rw [hlacking]
    exact fun st hst => .bind (.throw ⟨x, zs, func, rfl, rfl⟩)
  | some v =>
    have hlacking : lacking x = [] := by
      simp [lacking, ← hhas]
    rw [hlacking]
    exact hf code v F' V hV hl

lemma Spec.lastValue {func : Bytes} {x : Expr Note}
    (hm : Spec c base W m ys (Gives c R F t (hasValue x)))
    (hf : ∀ code v F' V, W.Le V → LoweredTyped c V R F F' t ⟨code, some v⟩ →
      Spec c base V (f (code, v)) [] Q) :
    Spec c base W (m >>= fun l => needValue func x l >>= f) (ys ++ lacking x) Q := by
  have h : Spec c base W (m >>= fun l => needValue func x l >>= f) (ys ++ lacking x ++ []) Q :=
    hm.value hf
  rwa [append_nil] at h

lemma widen_spec (hn : n.Gives u t) (hl : LoweredTyped c W R F F' u l) :
    Spec c base W (widen k.context span n l) [] (Gives c R F t l.value?.isSome) := by
  obtain ⟨code, v?⟩ := l
  cases hn with
  | same hwiden =>
    have hpure : widen k.context span n ⟨code, v?⟩ = pure ⟨code, v?⟩ := by
      unfold widen
      simp [hwiden]
    rw [hpure]
    exact .pure ⟨rfl, F', hl⟩
  | widened hwiden =>
    cases v? with
    | none => rcases hl.noValue rfl with h | h <;> cases h
    | some v =>
      have hnew : widen k.context span n ⟨code, some v⟩ = do
          let d ← newReg
          return ⟨code ++ [⟨span, .unary d (.known .toFloat) v⟩], some (.reg d)⟩ := by
        unfold widen
        simp [hwiden]
      rw [hnew]
      refine (Spec.newReg .float).after fun d V hV hd => .pure ⟨rfl, F'.write d .float, ?_⟩
      have hv : v.HasType V F' .int := (hl.value v rfl).mono hV (.refl _)
      refine ⟨hl.le.trans (Flow.le_write ..), (fun h => by cases h),
        (hl.code.mono hV).append (.one (.unary hv rfl hd)), ?_, (fun h => by cases h)⟩
      rintro _ ⟨⟩
      exact .written F' hd

lemma Spec.result {instr : Nat → Instr} (hle : F.Le F') (hcode : CodeTyped c W R F code F')
    (hn : n.Gives u t)
    (hinstr : ∀ d V, W.Le V → V.regs[d]? = some u → (instr d).Typed c V R span F' (F'.write d u)) :
    Spec c base W (do
      let d ← Lowering.newReg
      widen k.context span n ⟨code ++ [⟨span, instr d⟩], some (.reg d)⟩)
      [] (Gives c R F t true) := by
  refine (newReg u).after fun d V hV hd => ?_
  have hl : LoweredTyped c V R F (F'.write d u) u ⟨code ++ [⟨span, instr d⟩], some (.reg d)⟩ := by
    refine ⟨hle.trans (Flow.le_write ..), ?_, (hcode.mono hV).append (.one (hinstr d V hV hd)), ?_,
      (fun h => by cases h)⟩
    · rintro rfl
      exact F'.write_never d
    · rintro _ ⟨⟩
      exact .written F' hd
  exact widen_spec hn hl

/-! ### Expressions, one rule at a time -/

section Rules

variable (k)

/-- The lowering of an expression gives code of the given type, if nothing is missing. -/
def LowersExpr (R : Ty) (Γ : Typing.Env) (x : Expr Note) (t : Ty) : Prop :=
  ∀ ⦃base W F func env⦄, InScope k W F env Γ →
    Spec k.types base W (lowerExpr k.context func env x) (missing x)
    (Gives k.types R F t (hasValue x))

/-- The lowering of a block gives code of the given type, if nothing is missing. -/
def LowersBlock (R : Ty) (Γ : Typing.Env) (b : Block Note) (t : Ty) : Prop :=
  ∀ ⦃base W F func env⦄, InScope k W F env Γ →
    Spec k.types base W (lowerBlock k.context func env b) (missingBlock b)
      (Gives k.types R F t (blockHasValue b))

variable {k} {s s' : Span} {n' : Note} {x y : Expr Note} {a b : Ty} {op : BinaryOp} {F1 : Flow}
  {d : Nat} {stop name : Bytes}

lemma LoweredTyped.operand {v : Operand} (hv : v.HasType W F t) (hdead : t = .never → F = .dead) :
    LoweredTyped c W R F F t ⟨[], some v⟩ :=
  ⟨.refl F, hdead, .nil, by rintro _ ⟨⟩; exact hv, by rintro ⟨⟩⟩

lemma LowersExpr.lit {v : Literal} (hn : n.Gives (Typing.literalType v) t) :
    LowersExpr k R Γ (.lit s n v) t := by
  intro base W F func env henv
  refine widen_spec hn (.operand ?_ ?_)
  · cases v with
    | int => exact .int
    | float => exact .float
    | string => exact .string
    | bool => exact .bool
  · cases v <;> rintro ⟨⟩

lemma LowersExpr.var (hx : lookup name Γ = some u) (hn : n.Gives u t) :
    LowersExpr k R Γ (.var s n name) t := by
  intro base W F func env henv
  obtain ⟨r, hr, hreg, hF, hdead⟩ := (henv.lookup _).1 _ hx
  have hname : Lowering.name k.context func env s name = pure (.reg r) := by
    simp [Lowering.name, hr]
  rw [lowerExpr, hname]
  exact widen_spec hn (.operand (.reg hreg hF) hdead)

lemma LowersExpr.func (hx : lookup name Γ = none) (hg : k.sig name g)
    (hn : n.Gives (.func g.params g.result) t) : LowersExpr k R Γ (.var s n name) t := by
  intro base W F func env henv
  obtain ⟨hmem, hsig⟩ := henv.funcs hg
  have hname : Lowering.name k.context func env s name = pure (.lit (.func name)) := by
    simp [Lowering.name, (henv.lookup _).2 hx, if_pos hmem]
  rw [lowerExpr, hname]
  exact widen_spec hn (.operand (.func hsig) (by rintro ⟨⟩))

lemma LowersExpr.arithmetic (hop : op.isLogical = false) (hx : LowersExpr k R Γ x a)
    (hy : LowersExpr k R Γ y b) (hu : Typing.binaryType? op a b = some u)
    (hn : n.Gives u t) : LowersExpr k R Γ (.binary s n op x y) t := by
  intro base W F func env henv
  refine Spec.value (hx henv) fun xc xv F1 V1 hV1 hx => ?_
  simp only [hop]
  refine Spec.lastValue (hy (henv.mono hV1 hx.le)) fun yc yv F2 V2 hV2 hy => ?_
  refine Spec.result (hx.le.trans hy.le) ((hx.code.mono hV2).append hy.code) hn fun d V hV hd => ?_
  exact .binary ((hx.value xv rfl).mono (hV2.trans hV) hy.le)
    ((hy.value yv rfl).mono hV (.refl _)) hu hd

/-- The second operand of `&&` or `||` is skipped, or its value replaces that of the first one. -/
theorem LowersExpr.second {H : Flow} {xc test : Code} {xv cond : Operand} {sx sy : Span}
    {func : Bytes} (henv : InScope k W F env Γ)
    (hx : LoweredTyped k.types W R F F1 .bool ⟨xc, some xv⟩) (hd : W.regs[d]? = some .bool)
    (hstop : (stop, F1.write d .bool) ∈ W.labels)
    (htest : CodeTyped k.types W R (F1.write d .bool) test H) (hle : (F1.write d .bool).Le H)
    (hcond : cond.HasType W H .bool) (hy : LowersExpr k R Γ y .bool)
    (hn : n.Gives .bool t) : Spec k.types base W (do
      let l ← lowerExpr k.context func env y
      let r ← needValue func y l
      widen k.context s n ⟨xc ++ [⟨sx, .assign d xv⟩] ++ test ++
        [⟨s, .jumpUnless cond stop⟩] ++ r.1 ++ [⟨sy, .assign d r.2⟩, ⟨s, .label stop⟩],
        some (.reg d)⟩) (missing y ++ lacking y) (Gives k.types R F t true) := by
  have hF : F.Le H := (hx.le.trans (Flow.le_write ..)).trans hle
  refine Spec.lastValue (hy (henv.mono (.refl W) hF)) fun yc yv F2 V hV hy => ?_
  have hstop' := hV.labels hstop
  refine widen_spec hn (?_ : LoweredTyped k.types V R F (F1.write d .bool) .bool _)
  refine ⟨hx.le.trans (Flow.le_write ..), (by rintro ⟨⟩), ?_, ?_, (by rintro ⟨⟩)⟩
  · refine (((((hx.code.mono hV).append (.one (.assign ?_ (hV.regs hd)))).append
      (htest.mono hV)).append (.one (.jumpUnless ?_ hstop' hle))).append hy.code).append
      (.cons (.assign (hy.value yv rfl) (hV.regs hd)) (.one (.label hstop' ?_)))
    · exact (hx.value xv rfl).mono hV (.refl _)
    · exact hcond.mono hV (.refl _)
    · exact Flow.write_le_write (((Flow.le_write ..).trans hle).trans hy.le) d .bool
  · rintro _ ⟨⟩
    exact .written F1 (hV.regs hd)

lemma LowersExpr.logical (hop : op.isLogical = true) (hx : LowersExpr k R Γ x .bool)
    (hy : LowersExpr k R Γ y .bool) (hn : n.Gives .bool t) :
    LowersExpr k R Γ (.binary s n op x y) t := by
  intro base W F func env henv
  refine Spec.value (hx henv) fun xc xv F1 V1 hV1 hx => ?_
  simp only [hop]
  refine (Spec.newReg .bool).after fun d V2 hV2 hd => ?_
  refine (Spec.newLabel "sc" (F1.write d .bool)).after fun stop V3 hV3 hstop => ?_
  have hV : V1.Le V3 := hV2.trans hV3
  have henv3 := henv.mono (hV1.trans hV) (.refl F)
  cases op with
  | and =>
    exact second henv3 (hx.mono hV) (hV3.regs hd) hstop .nil (.refl _)
      (.written F1 (hV3.regs hd)) hy hn
  | or =>
    refine (Spec.newReg .bool).after fun r V4 hV4 hr => ?_
    have hd4 := (hV3.trans hV4).regs hd
    exact second (henv3.mono hV4 (.refl F)) (hx.mono (hV.trans hV4)) hd4 (hV4.labels hstop)
      (.one (.unary (.written F1 hd4) rfl hr)) (Flow.le_write ..) (.written _ hr) hy hn
  | _ => cases hop

lemma LowersExpr.unary {op : UnaryOp} (hx : LowersExpr k R Γ x a)
    (hu : Typing.unaryType? op a = some u) (hn : n.Gives u t) :
    LowersExpr k R Γ (.unary s n op x) t := by
  intro base W F func env henv
  refine Spec.lastValue (hx henv) fun xc xv F1 V1 hV1 hx => ?_
  refine Spec.result hx.le hx.code hn fun d V hV hd => ?_
  refine .unary ((hx.value xv rfl).mono hV (.refl _)) ?_ hd
  cases op with
  | neg =>
    cases a with
    | int => exact hu
    | float => exact hu
    | _ => cases hu
  | not =>
    simp only [Typing.unaryType?] at hu
    split at hu
    · rename_i ha
      subst ha
      exact hu
    · cases hu

/-! ### Lists of operands -/

variable (k)

/-- The lowering of expressions gives operands of the given types. -/
def LowersEach (R : Ty) (Γ : Typing.Env) (xs : List (Expr Note)) (ts : List Ty) : Prop :=
  ∀ ⦃base W F F1 func env⦄ (code : List Code) (vs : List Operand) (ts0 : List Ty),
    InScope k W F1 env Γ →
    F.Le F1 → CodeTyped k.types W R F code.reverse.flatten F1 →
    List.Forall₂ (Operand.HasType W F1) vs.reverse ts0 →
    Spec k.types base W (lowerValues k.context func env code vs xs) (missingAll xs) fun r V =>
      ∃ F', F.Le F' ∧ CodeTyped k.types V R F r.1 F' ∧
        List.Forall₂ (Operand.HasType V F') r.2 (ts0 ++ ts)

variable {k} {ts : List Ty} {xs : List (Expr Note)}

lemma forall₂_mono {vs : List Operand} (h : Forall₂ (Operand.HasType W F) vs ts) (hW : W.Le V)
    (hF : F.Le F') : Forall₂ (Operand.HasType V F') vs ts :=
  h.imp fun _ _ hv => hv.mono hW hF

lemma flatten_reverse_cons {α : Type} (code : List α) (codes : List (List α)) :
    (code :: codes).reverse.flatten = codes.reverse.flatten ++ code := by
  simp

lemma LowersEach.nil : LowersEach k R Γ [] [] := by
  intro base W F F1 func env code vs ts0 henv hle hcode hvs
  rw [append_nil]
  exact .pure ⟨F1, hle, hcode, hvs⟩

lemma LowersEach.cons (hx : LowersExpr k R Γ x a) (hsub : a.Sub t)
    (hxs : LowersEach k R Γ xs ts) : LowersEach k R Γ (x :: xs) (t :: ts) := by
  intro base W F F1 func env code vs ts0 henv hle hcode hvs
  refine Spec.value (hx henv) fun xc xv F2 V hV hx => ?_
  rw [← singleton_append, ← append_assoc]
  refine hxs (xc :: code) (xv :: vs) (ts0 ++ [t]) (henv.mono hV hx.le) (hle.trans hx.le) ?_ ?_
  · rw [flatten_reverse_cons]
    exact (hcode.mono hV).append hx.code
  · rw [reverse_cons]
    exact rel_append (forall₂_mono hvs hV hx.le) (.cons (.sub (hx.value xv rfl) hsub) .nil)

lemma LowersEach.all (hxs : LowersEach k R Γ xs ts) {func : Bytes} (henv : InScope k W F env Γ) :
    Spec k.types base W (lowerValues k.context func env [] [] xs) (missingAll xs) fun r V =>
      ∃ F', F.Le F' ∧ CodeTyped k.types V R F r.1 F' ∧ Forall₂ (Operand.HasType V F') r.2 ts :=
  hxs [] [] [] henv (.refl F) .nil .nil

/-! ### Calls, arrays and selections -/

variable {v : Variant} {callee i : Expr Note} {args : List (Expr Note)} {f : Name} {r : Ty}

lemma LowersExpr.print (hrole : n.role = .builtin .print) (hx : LowersExpr k R Γ x a) :
    LowersExpr k R Γ (.call s n callee [x]) .unit := by
  intro base W F func env henv
  rw [lowerExpr, missing, hasValue]
  simp only [id, hrole]
  refine ((LowersEach.cons hx (.refl a) .nil).all henv).last ?_
  rintro ⟨code, vs⟩ V hV ⟨F', hle, hcode, hvs⟩
  obtain _ | ⟨hv, hvs⟩ := hvs
  exact .pure ⟨rfl, F', hle, (by rintro ⟨⟩), hcode.append (.one (.print hv)), (by rintro _ ⟨⟩),
    fun _ => .inl rfl⟩

lemma LowersExpr.len (hrole : n.role = .builtin .len) (hx : LowersExpr k R Γ x a)
    (ha : Primitive.len.type? a = some .int) (hn : n.Gives .int t) :
    LowersExpr k R Γ (.call s n callee [x]) t := by
  intro base W F func env henv
  rw [lowerExpr, missing, hasValue]
  simp only [id, hrole]
  refine ((LowersEach.cons hx (.refl a) .nil).all henv).last ?_
  rintro ⟨code, vs⟩ V hV ⟨F', hle, hcode, hvs⟩
  obtain _ | ⟨hv, hvs⟩ := hvs
  exact Spec.result hle hcode hn fun d V' hV' hd => .unary (hv.mono hV' (.refl _)) ha hd

lemma variantRecord_spec (hv : c.HasVariant v) {payload : List Operand} (hle : F.Le F')
    (hcode : CodeTyped c W R F code F')
    (hpayload : Forall₂ (Operand.HasType W F') payload v.payload) (hn : n.Gives (.named v.enum) t) :
    Spec c base W (variantRecord s v code payload >>= widen k.context s n)
      [] (Gives c R F t true) := by
  obtain ⟨variants, hdef, hmem⟩ := hv
  have hnames : (range payload.length).map Decimal.ofNat = v.fields.map Prod.fst := by
    rw [v.map_fst_fields, hpayload.length_eq]
  unfold variantRecord
  simp only [bind_assoc, hnames]
  refine Spec.result hle hcode hn fun d V hV hd => ?_
  exact .record (.variant hdef hmem) v.nodup_fields
    (v.map_snd_fields.symm ▸ forall₂_mono hpayload hV (.refl _)) hd

lemma LowersExpr.build (hrole : n.role = .variant v) (hv : k.types.HasVariant v)
    (hargs : LowersEach k R Γ args v.payload) (hn : n.Gives (.named v.enum) t) :
    LowersExpr k R Γ (.call s n callee args) t := by
  intro base W F func env henv
  rw [lowerExpr, missing, hasValue]
  simp only [id, hrole]
  refine (hargs.all henv).last ?_
  rintro ⟨code, vs⟩ V hV ⟨F', hle, hcode, hvs⟩
  exact variantRecord_spec hv hle hcode hvs hn

lemma LowersExpr.variant (hrole : n.role = .variant v) (hv : k.types.HasVariant v)
    (hpayload : v.payload = []) (hn : n.Gives (.named v.enum) t) :
    LowersExpr k R Γ (.field s n x f) t := by
  intro base W F func env henv
  rw [lowerExpr, missing]
  simp only [id, hrole]
  exact variantRecord_spec hv (.refl F) .nil (hpayload ▸ .nil) hn

lemma LowersExpr.call {params : List Ty} (hrole : n.role = .plain)
    (hf : LowersExpr k R Γ callee (.func params r))
    (hargs : LowersEach k R Γ args params) (hn : n.Gives r t) :
    LowersExpr k R Γ (.call s n callee args) t := by
  intro base W F func env henv
  rw [lowerExpr, missing, hasValue]
  simp only [id, hrole]
  refine Spec.value (hf henv) fun fc fv F1 V1 hV1 hf => ?_
  refine (hargs.all (henv.mono hV1 hf.le)).last ?_
  rintro ⟨code, vs⟩ V2 hV2 ⟨F2, hle, hcode, hvs⟩
  refine Spec.result (hf.le.trans hle) ((hf.code.mono hV2).append hcode) hn fun d V hV hd => ?_
  exact .call ((hf.value fv rfl).mono (hV2.trans hV) hle) (forall₂_mono hvs hV (.refl _)) hd

lemma LowersExpr.field {d : Ty} (hrole : n.role = .plain) (hx : LowersExpr k R Γ x d)
    (hselects : k.types.Selects s d f.text u) (hn : n.Gives u t) :
    LowersExpr k R Γ (.field s n x f) t := by
  intro base W F func env henv
  rw [lowerExpr, missing]
  simp only [id, hrole]
  refine Spec.lastValue (hx henv) fun xc xv F1 V1 hV1 hx => ?_
  exact Spec.result hx.le hx.code hn fun d V hV hd =>
    .field ((hx.value xv rfl).mono hV (.refl _)) hselects hd

lemma LowersExpr.array {es : List (Expr Note)} {len : Nat}
    (hes : LowersEach k R Γ es (replicate len u)) (hn : n.Gives (.array u) t) :
    LowersExpr k R Γ (.array s n es) t := by
  intro base W F func env henv
  refine (hes.all henv).last ?_
  rintro ⟨code, vs⟩ V1 hV1 ⟨F1, hle, hcode, hvs⟩
  refine Spec.result hle hcode hn fun d V hV hd => .array (fun v hv => ?_) hd
  obtain ⟨i, hi, rfl⟩ := getElem_of_mem hv
  have hlt : i < (replicate len u).length := hvs.length_eq ▸ hi
  have hvi := hvs.get hi hlt
  simp only [get_eq_getElem, getElem_replicate] at hvi
  exact hvi.mono hV (.refl _)

lemma LowersExpr.index (hx : LowersExpr k R Γ x (.array u))
    (hi : LowersExpr k R Γ i .int) (hn : n.Gives u t) :
    LowersExpr k R Γ (.index s n x i) t := by
  intro base W F func env henv
  refine Spec.value (hx henv) fun xc xv F1 V1 hV1 hx => ?_
  refine Spec.lastValue (hi (henv.mono hV1 hx.le)) fun ic iv F2 V2 hV2 hi => ?_
  refine Spec.result (hx.le.trans hi.le) ((hx.code.mono hV2).append hi.code) hn fun d V hV hd => ?_
  exact .index ((hx.value xv rfl).mono (hV2.trans hV) hi.le)
    ((hi.value iv rfl).mono hV (.refl _)) hd

/-! ### Conditionals -/

variable {test : Expr Note} {F2 F3 : Flow} {tc : Code} {tv : Operand} {other : Bytes}
  {t' e' : Lowered} {s2 s3 s4 : Span}

lemma LowersExpr.ifThen {b : Block Note} (htest : LowersExpr k R Γ test .bool)
    (hb : LowersBlock k R Γ b a) :
    LowersExpr k R Γ (.cond s n test b none) .unit := by
  intro base W F func env henv
  refine Spec.value (htest henv) fun tc tv F1 V1 hV1 ht => ?_
  refine (Spec.newLabel "end" F1).after fun stop V2 hV2 hstop => ?_
  refine (hb (henv.mono (hV1.trans hV2) ht.le)).last ?_
  rintro l V3 hV3 ⟨-, F2, hl⟩
  have hV := hV2.trans hV3
  refine .pure ⟨rfl, F1, ht.le, (by rintro ⟨⟩), ?_, (by rintro _ ⟨⟩), fun _ => .inl rfl⟩
  exact (((ht.code.mono hV).append (.one (.jumpUnless ((ht.value tv rfl).mono hV (.refl _))
    (hV3.labels hstop) (.refl _)))).append hl.code).append (.one (.label (hV3.labels hstop) hl.le))

lemma branch_typed (span : Span) (hl : LoweredTyped c W R F1 F2 a l) (hsub : a.Sub u)
    (hd : l.value? = none ∨ W.regs[d]? = some u) :
    ∃ F', CodeTyped c W R F1 (branch span d l) F' ∧ (F1.write d u).Le F' := by
  obtain ⟨code, v?⟩ := l
  cases v? with
  | none =>
    refine ⟨F2, hl.code, ?_⟩
    rcases hl.noValue rfl with rfl | rfl
    · rw [hsub.eq_of_unit, Flow.write_unit]
      exact hl.le
    · rw [hl.dead rfl]
      exact Flow.le_dead _
  | some v =>
    refine ⟨F2.write d u, hl.code.append (.one (.assign (.sub (hl.value v rfl) hsub) ?_)),
      Flow.write_le_write hl.le d u⟩
    exact hd.resolve_left nofun

lemma condCode_typed {s1 : Span} (ht : LoweredTyped c W R F F1 .bool ⟨tc, some tv⟩)
    (hother : (other, F1) ∈ W.labels) (hstop : (stop, F1.write d u) ∈ W.labels)
    (ht' : LoweredTyped c W R F1 F2 a t') (he' : LoweredTyped c W R F1 F3 b e') (ha : a.Sub u)
    (hb : b.Sub u) (hd : t'.value? = none ∧ e'.value? = none ∨ W.regs[d]? = some u) :
    CodeTyped c W R F (condCode s1 s2 s3 s4 tc tv other stop t' e' d) (F1.write d u) := by
  obtain ⟨F4, hthen, hle⟩ := branch_typed s3 ht' ha (hd.imp_left And.left)
  obtain ⟨F5, helse, hle'⟩ := branch_typed s4 he' hb (hd.imp_left And.right)
  have hjump :=
    ht.code.append (.one (i := ⟨s2, _⟩) (.jumpUnless (ht.value tv rfl) hother (.refl _)))
  exact (((hjump.append hthen).append (.cons (.jump hstop hle) (.one (.label hother
    (Flow.le_dead _))))).append helse).append (.one (.label hstop hle'))

/-- The flow at the end of a conditional mentions the register of its value, which is only taken
after both branches. -/
theorem finishCond_spec (ht : LoweredTyped c W R F F1 .bool ⟨tc, some tv⟩)
    (hother : (other, F1) ∈ W.labels) (hstop : (stop, F1.write W.regs.length u) ∈ W.labels)
    (ht' : LoweredTyped c W R F1 F2 a t') (he' : LoweredTyped c W R F1 F3 b e') (ha : a.Sub u)
    (hb : b.Sub u) (hnever : a = .never → b = .never → u = .never) (hn : n.Gives u t) :
    Spec c base W (finishCond k.context s n (condCode s s2 s3 s4 tc tv other stop t' e') t' e') []
      (Gives c R F t (t'.value?.isSome || e'.value?.isSome)) := by
  have hle : F.Le (F1.write W.regs.length u) := ht.le.trans (Flow.le_write ..)
  have hdead : u = .never → F1.write W.regs.length u = .dead := by
    rintro rfl
    exact Flow.write_never ..
  have hvalue : Spec c base W (do
      let d ← newReg
      widen k.context s n
        ⟨condCode s s2 s3 s4 tc tv other stop t' e' d, some (.reg d)⟩) []
      (Gives c R F t true) := by
    refine (Spec.nextReg u).after ?_
    rintro d V hV ⟨rfl, hd⟩
    refine widen_spec hn (?_ : LoweredTyped c V R F (F1.write W.regs.length u) u _)
    refine ⟨hle, hdead, ?_, ?_, (by rintro ⟨⟩)⟩
    · exact condCode_typed (ht.mono hV) (hV.labels hother) (hV.labels hstop) (ht'.mono hV)
        (he'.mono hV) ha hb (.inr hd)
    · rintro _ ⟨⟩
      exact .written F1 hd
  unfold finishCond
  split
  · rename_i htnone henone
    have hunit : u = .unit ∨ u = .never := by
      rcases ht'.noValue htnone with rfl | rfl
      · exact .inl ha.eq_of_unit
      · rcases he'.noValue henone with rfl | rfl
        · exact .inl hb.eq_of_unit
        · exact .inr (hnever rfl rfl)
    have hcode : CodeTyped c W R F (condCode s s2 s3 s4 tc tv other stop t' e' 0)
        (F1.write W.regs.length u) := by
      rw [condCode_of_none htnone henone 0 W.regs.length]
      exact condCode_typed ht hother hstop ht' he' ha hb (.inl ⟨htnone, henone⟩)
    cases hn with
    | same =>
      exact .pure ⟨by rw [htnone, henone]; rfl, _, hle, hdead, hcode, (by rintro _ ⟨⟩),
        fun _ => hunit⟩
    | widened => rcases hunit with h | h <;> cases h
  · rename_i hsome
    have hhas : (t'.value?.isSome || e'.value?.isSome) = true := by
      cases htv : t'.value? with
      | some v => rfl
      | none =>
        cases hev : e'.value? with
        | some v => rfl
        | none => exact (hsome htv hev).elim
    rw [hhas]
    exact hvalue

lemma LowersExpr.ifElse {e : Expr Note} {bl : Block Note} (htest : LowersExpr k R Γ test .bool)
    (hbl : LowersBlock k R Γ bl a) (he : LowersExpr k R Γ e b) (ha : a.Sub u) (hb : b.Sub u)
    (hnever : a = .never → b = .never → u = .never) (hn : n.Gives u t) :
    LowersExpr k R Γ (.cond s n test bl (some e)) t := by
  intro base W F func env henv
  rw [lowerExpr_ifElse, hasValue]
  refine Spec.value (htest henv) fun tc tv F1 V1 hV1 ht => ?_
  have henv1 := henv.mono hV1 ht.le
  refine Spec.lastReg (P := fun d r V => (r.1, F1) ∈ V.labels ∧ (r.2.1, F1.write d u) ∈ V.labels ∧
    r.2.2.1.value?.isSome = blockHasValue bl ∧ r.2.2.2.value?.isSome = hasValue e ∧ ∃ F2 F3,
    LoweredTyped k.types V R F1 F2 a r.2.2.1 ∧ LoweredTyped k.types V R F1 F3 b r.2.2.2) ?_ ?_
  · intro d
    refine (Spec.newLabel "else" F1).after fun other V2 hV2 hother => ?_
    refine (Spec.newLabel "end" (F1.write d u)).after fun stop V3 hV3 hstop => ?_
    refine (hbl (henv1.mono (hV2.trans hV3) (.refl _))).bind ?_
    rintro t' V4 hV4 ⟨hhas, F2, ht'⟩
    refine (he (henv1.mono ((hV2.trans hV3).trans hV4) (.refl _))).last ?_
    rintro e' V5 hV5 ⟨hhas', F3, he'⟩
    exact .pure ⟨(hV3.trans (hV4.trans hV5)).labels hother, (hV4.trans hV5).labels hstop, hhas,
      hhas', F2, F3, ht'.mono hV5, he'⟩
  · rintro ⟨other, stop, t', e'⟩ V hV ⟨hother, hstop, hhas, hhas', F2, F3, ht', he'⟩
    rw [← hhas, ← hhas']
    exact finishCond_spec (ht.mono hV) hother hstop ht' he' ha hb hnever hn

/-! ### Assignments -/

lemma LowersExpr.assignVar (hname : lookup name Γ = some u) (hy : LowersExpr k R Γ y a)
    (hsub : a.Sub u) : LowersExpr k R Γ (.assign s n (.var s' n' name) y) .unit := by
  intro base W F func env henv
  obtain ⟨r, hr, hreg, -⟩ := (henv.lookup _).1 _ hname
  have htarget : missingTarget (.var s' n' name) = [] := by simp
  rw [lowerExpr, missing]
  simp only [hr]
  refine Spec.lastValue (hy henv) fun yc yv F1 V1 hV1 hy => ?_
  refine .pure ⟨rfl, F1.write r u, hy.le.trans (Flow.le_write ..), (by rintro ⟨⟩), ?_,
    (by rintro _ ⟨⟩), fun _ => .inl rfl⟩
  exact hy.code.append (.one (.assign (.sub (hy.value yv rfl) hsub) (hV1.regs hreg)))

lemma LowersExpr.assignField {d : Ty} (hx : LowersExpr k R Γ x d)
    (hselects : k.types.Selects s d f.text u) (hy : LowersExpr k R Γ y a) (hsub : a.Sub u) :
    LowersExpr k R Γ (.assign s n (.field s' n' x f) y) .unit := by
  intro base W F func env henv
  refine Spec.value (hx henv) fun xc xv F1 V1 hV1 hx => ?_
  refine Spec.lastValue (hy (henv.mono hV1 hx.le)) fun yc yv F2 V2 hV2 hy => ?_
  refine .pure ⟨rfl, F2, hx.le.trans hy.le, (by rintro ⟨⟩), ?_, (by rintro _ ⟨⟩), fun _ => .inl rfl⟩
  exact ((hx.code.mono hV2).append hy.code).append (.one (.setField
    ((hx.value xv rfl).mono hV2 hy.le) hselects (.sub (hy.value yv rfl) hsub)))

lemma LowersExpr.assignIndex (hx : LowersExpr k R Γ x (.array u))
    (hi : LowersExpr k R Γ i .int) (hy : LowersExpr k R Γ y a)
    (hsub : a.Sub u) : LowersExpr k R Γ (.assign s n (.index s' n' x i) y) .unit := by
  intro base W F func env henv
  rw [missing, missingTarget, append_assoc]
  refine Spec.value (hx henv) fun xc xv F1 V1 hV1 hx => ?_
  refine Spec.value (hi (henv.mono hV1 hx.le)) fun ic iv F2 V2 hV2 hi => ?_
  refine Spec.lastValue (hy (henv.mono (hV1.trans hV2) (hx.le.trans hi.le)))
    fun yc yv F3 V3 hV3 hy => ?_
  refine .pure ⟨rfl, F3, (hx.le.trans hi.le).trans hy.le, (by rintro ⟨⟩), ?_, (by rintro _ ⟨⟩),
    fun _ => .inl rfl⟩
  refine (((hx.code.mono (hV2.trans hV3)).append (hi.code.mono hV3)).append hy.code).append
    (.one (.setIndex ?_ ?_ (.sub (hy.value yv rfl) hsub)))
  · exact (hx.value xv rfl).mono (hV2.trans hV3) (hi.le.trans hy.le)
  · exact (hi.value iv rfl).mono hV3 hy.le

/-! ### Structures -/

variable (k)

/-- The values of fields have the types of the fields. -/
def SetTyped (W : Layout) (F : Flow) (declared : List (Bytes × Ty)) (set : List (Bytes × Operand)) :
    Prop :=
  ∀ e ∈ set, ∃ t, declared.lookup e.1 = some t ∧ e.2.HasType W F t

/-- The lowering of field values gives operands for the fields. -/
def LowersFields (R : Ty) (Γ : Typing.Env) (declared : List (Bytes × Ty))
    (fs : List (FieldValue Note)) : Prop :=
  ∀ ⦃base W F F1 func env⦄ (code : List Code) (set : List (Bytes × Operand)),
    InScope k W F1 env Γ →
    F.Le F1 → CodeTyped k.types W R F code.reverse.flatten F1 → SetTyped W F1 declared set →
    Spec k.types base W (lowerFields k.context func env code set fs) (missingFields fs)
      fun r V =>
      ∃ F', F.Le F' ∧ CodeTyped k.types V R F r.1 F' ∧ SetTyped V F' declared r.2 ∧
        ∀ key, key ∈ fs.map FieldValue.key ∨ key ∈ set.map Prod.fst → key ∈ r.2.map Prod.fst

variable {k} {declared : List (Bytes × Ty)} {types : List Ty} {body : Block Note}

lemma LowersFields.nil : LowersFields k R Γ declared [] := by
  intro base W F F1 func env code set henv hle hcode hset
  refine .pure ⟨F1, hle, hcode, hset, ?_⟩
  rintro key (hkey | hkey)
  · cases hkey
  · exact hkey

lemma LowersFields.cons {name : Name} {fs : List (FieldValue Note)}
    (hname : declared.lookup name.text = some t) (hx : LowersExpr k R Γ x a)
    (hsub : a.Sub t) (hfs : LowersFields k R Γ declared fs) :
    LowersFields k R Γ declared (.mk s name x :: fs) := by
  intro base W F F1 func env code set henv hle hcode hset
  refine Spec.value (hx henv) fun xc xv F2 V hV hx => ?_
  refine (hfs (xc :: code) ((name.text, xv) :: set) (henv.mono hV hx.le) (hle.trans hx.le) ?_
    ?_).imp ?_
  · rw [flatten_reverse_cons]
    exact (hcode.mono hV).append hx.code
  · intro e he
    rcases mem_cons.mp he with rfl | he
    · exact ⟨t, hname, .sub (hx.value xv rfl) hsub⟩
    · obtain ⟨u, hu, hv⟩ := hset e he
      exact ⟨u, hu, hv.mono hV hx.le⟩
  · rintro r V' - ⟨F', hle', hcode', hset', hkeys⟩
    refine ⟨F', hle', hcode', hset', fun key hkey => hkeys key ?_⟩
    simp only [map_cons, mem_cons] at hkey ⊢
    tauto

lemma SetTyped.lookup {set : List (Bytes × Operand)} (hset : SetTyped W F declared set)
    (hnodup : (declared.map Prod.fst).Nodup) {d : Bytes × Ty} (hd : d ∈ declared)
    (hkey : d.1 ∈ set.map Prod.fst) : ((set.lookup d.1).getD .missing).HasType W F d.2 := by
  obtain ⟨e, he, hed⟩ := mem_map.mp hkey
  have hsome : (set.lookup d.1).isSome := lookup_isSome_iff.mpr ⟨e, he, by simp [hed]⟩
  obtain ⟨v, hv⟩ := Option.isSome_iff_exists.mp hsome
  obtain ⟨u, hu, hvu⟩ := hset (d.1, v) (mem_of_lookup hv)
  have hdu : d = (d.1, u) := inj_on_of_nodup_map hnodup hd (mem_of_lookup hu) rfl
  rw [hv, hdu]
  exact hvu

lemma LowersExpr.struct {type : Name} {fields : List (FieldValue Note)}
    (htype : n.type? = some (.named name))
    (hdef : TypeDef.find? k.types.defs name = some ⟨name, .struct declared⟩)
    (hnodup : (declared.map Prod.fst).Nodup) (hfields : LowersFields k R Γ declared fields)
    (hall : ∀ d ∈ declared, d.1 ∈ fields.map FieldValue.key) (hn : n.Gives (.named name) t) :
    LowersExpr k R Γ (.struct s n type fields) t := by
  intro base W F func env henv
  have hstruct : structOf k.context func s n =
      pure (name, declared.map Prod.fst) := by
    simp [structOf, htype, Ty.text, hdef]
  rw [lowerExpr, hstruct, pure_bind]
  refine (hfields [] [] henv (.refl F) .nil (by rintro _ ⟨⟩)).last ?_
  rintro ⟨code, set⟩ V1 hV1 ⟨F1, hle, hcode, hset, hkeys⟩
  refine Spec.result hle hcode hn fun d V hV hd => .record (.struct hdef) hnodup ?_ hd
  rw [map_map, forall₂_map_left_iff, forall₂_map_right_iff, forall₂_same]
  intro d hd
  exact (hset.lookup hnodup hd (hkeys d.1 (.inl (hall d hd)))).mono hV (.refl _)

/-! ### Functions -/

lemma InScope.params {params : List Param} (hlen : types.length = params.length)
    (hnever : .never ∉ types) (hregs : V.regs = types) (hfuncs : k.Names V.sigs) :
    InScope k V (.live {r | r < types.length}) (paramEnv params)
      (Typing.paramEnv params types) := by
  refine ⟨hfuncs, ?_⟩
  unfold paramEnv Typing.paramEnv
  rw [foldl_flip_cons_eq_append, append_nil, forall₂_reverse_iff, forall₂_iff_get]
  refine ⟨by simp [hlen], fun i hi hi' => ?_⟩
  have hlt : i < types.length := by
    simp only [length_map, length_zip] at hi'
    omega
  simp only [get_eq_getElem, getElem_map, getElem_zipIdx, getElem_zip,
    zero_add, hregs, getElem?_eq_getElem hlt, true_and]
  exact ⟨.inr hlt, fun ht => (hnever (ht ▸ getElem_mem hlt)).elim⟩

lemma LoweredTyped.func {params : List Param} (hst : Fits c base W st)
    (hregs : ∀ {i : Nat} {t : Ty}, types[i]? = some t → W.regs[i]? = some t)
    (hl : LoweredTyped c W r (.live {i | i < types.length}) F' a l) (hsub : a.Sub r)
    (hlen : types.length = params.length) : Keeps c W.sigs ⟨types, r⟩
      ⟨name, params.map fun p => p.name.text, st.numVars, l.code ++ [⟨span, .ret l.value?⟩]⟩ := by
  intro sigs hsigs
  have hle : W.Le ⟨W.regs, W.labels, sigs⟩ := ⟨id, Subset.refl _, hsigs⟩
  have hl' := hl.mono hle
  refine ⟨⟨W.regs, W.labels, sigs⟩, rfl, by simp [hlen], hregs, hst.labels, ?_⟩
  refine hl'.code.append (.one ?_)
  cases hv : l.value? with
  | some v => exact .ret (.sub (hl'.value v hv) hsub)
  | none =>
    rcases hl.noValue hv with rfl | rfl
    · exact .retNull hsub.eq_of_unit
    · rw [hl.dead rfl]
      exact .unreached rfl

/-- The lowering of the body of a function begins with its parameters. -/
theorem LowersBlock.start {params : List Param}
    (hbody : LowersBlock k r (Typing.paramEnv params types) body a)
    (hlen : types.length = params.length) (hnever : .never ∉ types) (hfuncs : k.Names S) :
    Ends (lowerBlock k.context name (paramEnv params) body) (.start params.length)
      (fun l st => missingBlock body = [] ∧ ∃ V : Layout, Layout.Le ⟨types, [], S⟩ V ∧
      Fits k.types S V st ∧
        Gives k.types r (.live {i | i < types.length}) a (blockHasValue body) l V)
      (Fails (missingBlock body)) :=
  hbody (InScope.params hlen hnever rfl hfuncs) _
    ⟨hlen, (by rintro _ _ ⟨⟩), (by rintro _ _ _ ⟨⟩), fun _ _ h => .inl h⟩

lemma LowersBlock.func {params : List Param}
    (hbody : LowersBlock k r (Typing.paramEnv params types) body a) (hsub : a.Sub r)
    (hlen : types.length = params.length) (hnever : .never ∉ types) (hfuncs : k.Names S)
    (span : Span) (hrun : (lowerBlock k.context name (paramEnv params) body).run
      (.start params.length) = .ok (l, st)) :
    missingBlock body = [] ∧ ∃ S', S ⊆ S' ∧ Provided k.types S S' (assemble name params span l st) ∧
      ∃ f ∈ assemble name params span l st, f.name = name ∧ Keeps k.types S' ⟨types, r⟩ f := by
  obtain ⟨hnone, V, hV, hst, -, F', hl⟩ := (hbody.start hlen hnever hfuncs).ok hrun
  refine ⟨hnone, V.sigs, hV.sigs, fun n g hmem => (hst.nested hmem).imp_right ?_, _,
    mem_cons_self .., rfl, hl.func hst hV.regs hsub hlen⟩
  rintro ⟨f, hf, hname, hkeeps⟩
  exact ⟨f, mem_cons_of_mem _ (mem_reverse.mpr hf), hname, hkeeps⟩

lemma Spec.newLambda (func : Bytes) : Spec c base W (newLambda func) [] fun _ _ => True :=
  fun _ hst => .newLambda ⟨rfl, W, .refl W, ⟨hst.regs, hst.count, hst.labels, hst.nested⟩, trivial⟩

lemma Spec.addNested {fs : List Func} (hS : W.sigs ⊆ S') (hfs : Provided c W.sigs S' fs) :
    Spec c base W (addNested fs) [] fun _ V => V.sigs = S' := by
  intro st hst
  refine .addNested ⟨rfl, ⟨W.regs, W.labels, S'⟩, ⟨id, Subset.refl _, hS⟩,
    ⟨hst.regs, hst.count, hst.labels, fun n g hmem => ?_⟩, rfl⟩
  rcases hfs hmem with hold | ⟨f, hf, hname, hkeeps⟩
  · refine (hst.nested hold).imp_right ?_
    rintro ⟨f, hf, hname, hkeeps⟩
    exact ⟨f, mem_append_right _ hf, hname, hkeeps.mono hS⟩
  · exact .inr ⟨f, mem_append_left _ (mem_reverse.mpr hf), hname, hkeeps⟩

lemma LowersExpr.lambda {params : List Param} {result : Option TypeExpr}
    (hlen : types.length = params.length) (hnever : .never ∉ types)
    (hbody : LowersBlock k r (Typing.paramEnv params types) body a) (hsub : a.Sub r)
    (hn : n.Gives (.func types r) t) :
    LowersExpr k R Γ (.lambda s n params result body) t := by
  intro base W F func env henv
  rw [missing]
  refine (Spec.newLambda func).after fun name V hV _ st hst => ?_
  have henv' := henv.mono hV (.refl F)
  refine .lift (fun r hrun => ?_) fun e hrun => (hbody.start hlen hnever henv'.funcs).error hrun
  obtain ⟨l, st'⟩ := r
  obtain ⟨hnone, S, hS, hfs, f, hf, hname, hkeeps⟩ :=
    hbody.func hsub hlen hnever henv'.funcs body.span hrun
  have hfs' : Provided k.types V.sigs ((name, ⟨types, r⟩) :: S)
      (assemble name params body.span l st') := by
    rintro n g (_ | ⟨_, hmem⟩)
    · exact .inr ⟨f, hf, hname, hkeeps.mono (subset_cons_self _ _)⟩
    · refine (hfs hmem).imp_right ?_
      rintro ⟨f, hf, hname, hkeeps⟩
      exact ⟨f, hf, hname, hkeeps.mono (subset_cons_self _ _)⟩
  rw [hnone]
  refine (Spec.addNested (subset_cons_of_subset _ hS) hfs').after (fun _ V' hV' hsigs => ?_) st hst
  have hmem : (name, ⟨types, r⟩) ∈ V'.sigs := hsigs ▸ mem_cons_self ..
  exact widen_spec hn (.operand (.func hmem) (by rintro ⟨⟩))

end Rules

end Tac.Lowering

end Minilang
