import Minilang.Proofs.Collection.OrderedMap
import Minilang.Proofs.Typing.Checks
import Minilang.Tree.Parser

/-!
# What the checker accepts is typed

The check of a tree gives the tree that was read, with notes, which follows the typing rules and has
the type that the check finds.  There is one lemma for each kind of tree, which says so if it is so
for the parts, and the result follows by induction.  A function is checked at most once, when its
result type is needed or in its turn, and after the check of a program every function is typed.
-/

namespace Minilang

open List

namespace Typing

open Tac (Signature Signatures)

attribute [local simp] checkExpr checkTarget checkEach checkElems checkFields checkBlock checkStmt
  checkStmts

/-! ### Expressions -/

variable {name : Bytes}

section Rules

variable (C : Checker) (Γ : Env)

/-- The check of a target gives one that values of its type can be assigned to. -/
def TargetChecks (x : Expr Unit) : Prop :=
  Checks C.context (checkTarget C.context C.infer C.site Γ x)
    (fun r => r.2.source = x ∧ ∀ y ∈ r.2.targetParts, Checked C Γ y)
    (TargetSound C Γ)

/-- An expression is typed and can be used as a value of a type. -/
def ElemSound (t : Ty) (v : Walk) (x : Expr Note) : Prop :=
  ∃ a, ExprSound C Γ (a, x) v ∧ a.assignable t ≠ .no

/-- A field value is one of the type of its field. -/
def FieldSound (declared : List (Bytes × Ty)) (v : Walk) : FieldValue Note → Prop
  | .mk _ name x => ∃ t, declared.lookup name.text = some t ∧ UseSound C Γ v x t

/-- The check of a field's value gives a typed one. -/
def FieldChecks : FieldValue Unit → Prop
  | .mk _ _ x => ExprChecks C Γ x

variable {C Γ} {s : Span} {u : Unit} {x y : Expr Unit}

lemma ExprChecks.lit {l : Literal} : ExprChecks C Γ (.lit s u l) := by
  exact .pure (.of_parts rfl rfl rfl (forall_mem_nil _)) fun _ =>
    ⟨rfl, rfl, fun _ _ => .lit (.same rfl)⟩

lemma ExprChecks.var (hinfer : InferSound C.context C.infer) : ExprChecks C Γ (.var s u name) := by
  exact (nameType_checks hinfer).bind fun t _ =>
    .pure (.of_parts rfl rfl rfl (forall_mem_nil _)) fun _ ht => ht

lemma ExprChecks.binary {op : BinaryOp} (hx : ExprChecks C Γ x)
    (hy : ExprChecks C Γ y) : ExprChecks C Γ (.binary s u op x y) := by
  refine hx.bind fun xt x' hx' => hy.bind fun yt y' hy' => ?_
  simp only
  split
  · rename_i t ht
    refine .pure (.of_parts rfl (by simp [hx'.source, hy'.source]) rfl
      (by simp [Expr.parts, hx'.checked, hy'.checked])) fun v hy hx =>
      ⟨rfl, rfl, fun sel hsel => ?_⟩
    exact .binary (hx.typed sel hsel.left) (hy.typed sel hsel.right) ht (.same rfl)
  · exact .error

lemma ExprChecks.unary {op : UnaryOp} (hx : ExprChecks C Γ x) :
    ExprChecks C Γ (.unary s u op x) := by
  refine hx.bind fun xt x' hx' => ?_
  simp only
  split
  · rename_i t ht
    exact .pure (.of_parts rfl (by simp [hx'.source]) rfl (by simp [Expr.parts, hx'.checked]))
      fun v hx => ⟨rfl, rfl, fun sel hsel => .unary (hx.typed sel hsel) ht (.same rfl)⟩
  · exact .error

/-! ### Lists -/

variable {xs : List (Expr Unit)} {done : List (Expr Note)} {ts : List Ty} {t : Ty}
  {fs : List (FieldValue Unit)} {declared : List (Bytes × Ty)} {v : Walk}
  {sel : Span → Bytes → Prop}

lemma checkEach_checks (hxs : ∀ x ∈ xs, ExprChecks C Γ x) {context : Bytes}
    (hlen : xs.length = ts.length) :
    Checks C.context (checkEach C.context C.infer C.site Γ context done ts xs)
      (fun ys => ∃ xs', ys = done.reverse ++ xs' ∧ Listed C Γ xs xs') fun ys v =>
      ∀ ts0, Forall₂ (UseSound C Γ v) done.reverse ts0 →
        Forall₂ (UseSound C Γ v) ys (ts0 ++ ts) := by
  induction xs generalizing done ts with
  | nil =>
    cases ts with
    | nil =>
      rw [checkEach]
      · exact .pure ⟨[], by simp, rfl, nofun⟩ fun v ts0 hdone => by rwa [append_nil]
      · nofun
    | cons => cases hlen
  | cons x xs ih =>
    cases ts with
    | nil => cases hlen
    | cons t ts =>
      refine (hxs x mem_cons_self).bind fun a x' hx' => (coerce_checks C Γ).bind ?_
      rintro _ rfl
      refine (ih (fun x hx => hxs x (mem_cons_of_mem _ hx)) (Nat.succ.inj hlen)).imp ?_
        fun ys v _ hys hy hx ts0 hdone => ?_
      · rintro ys ⟨xs', hys, hxs'⟩
        exact ⟨useAs t x' :: xs', by simpa using hys,
          .cons ((source_useAs t x').trans hx'.source) (hx'.checked.useAs t) hxs'⟩
      rw [← singleton_append, ← append_assoc]
      refine hys _ ?_
      rw [reverse_cons]
      exact rel_append hdone (.cons (hy hx) .nil)

lemma checkElems_checks (hxs : ∀ x ∈ xs, ExprChecks C Γ x) :
    Checks C.context (checkElems C.context C.infer C.site Γ t done xs)
      (fun r => ∃ xs', r.2 = done.reverse ++ xs' ∧ Listed C Γ xs xs') fun r v =>
      (∀ x ∈ done, ElemSound C Γ t v x) → ∀ x ∈ r.2, ElemSound C Γ r.1 v x := by
  induction xs generalizing t done with
  | nil =>
    exact .pure ⟨[], by simp, rfl, nofun⟩ fun v hdone x hx => hdone x (mem_reverse.mp hx)
  | cons x xs ih =>
    refine (hxs x mem_cons_self).bind fun a x' hx' => ?_
    simp only
    split
    · exact .error
    · rename_i j hj
      obtain ⟨ht, ha⟩ := Ty.assignable_join hj
      refine (ih fun x hx => hxs x (mem_cons_of_mem _ hx)).imp ?_ fun r v _ hr hx hdone => hr ?_
      · rintro r ⟨xs', hr, hxs'⟩
        exact ⟨x' :: xs', by simpa using hr, .cons hx'.source hx'.checked hxs'⟩
      rintro y (_ | ⟨_, hy⟩)
      · exact ⟨a, hx, ha⟩
      · obtain ⟨b, hb, hbt⟩ := hdone y hy
        exact ⟨b, hb, Ty.assignable_trans hbt ht⟩

lemma checkFields_checks (hfs : ∀ f ∈ fs, FieldChecks C Γ f) {struct : Bytes}
    {set : List Bytes} {done : List (FieldValue Note)} :
    Checks C.context (checkFields C.context C.infer C.site Γ struct declared set done fs)
      (fun r => ∃ fs', r = done.reverse ++ fs' ∧ FieldValue.listMapNotes (fun _ => ()) fs' = fs ∧
        ∀ x ∈ fs'.map FieldValue.value, Checked C Γ x) fun r v =>
      (∀ f ∈ done, FieldSound C Γ declared v f) →
        ∀ f ∈ r, FieldSound C Γ declared v f := by
  induction fs generalizing set done with
  | nil =>
    exact .pure ⟨[], by simp, rfl, nofun⟩ fun v hdone f hf => hdone f (mem_reverse.mp hf)
  | cons f fs ih =>
    obtain ⟨s, name, x⟩ := f
    rw [checkFields]
    split
    · exact .error
    · rename_i t ht
      split
      · exact .error
      · have hx : ExprChecks C Γ x := hfs _ mem_cons_self
        refine hx.bind fun a x' hx' => (coerce_checks C Γ).bind ?_
        rintro _ rfl
        refine (ih fun f hf => hfs f (mem_cons_of_mem _ hf)).imp ?_ fun r v _ hr hy hx hdone =>
          hr ?_
        · rintro r ⟨fs', hr, hsource, hfs'⟩
          refine ⟨.mk s name (useAs t x') :: fs', by simpa using hr, ?_, ?_⟩
          · simp [source_useAs, hx'.source, hsource]
          · exact forall_mem_cons.mpr ⟨hx'.checked.useAs t, hfs'⟩
        rintro f (_ | ⟨_, hf⟩)
        · exact ⟨t, ht, hy hx⟩
        · exact hdone f hf

lemma EachTyped.of_forall₂ {xs : List (Expr Note)} (h : Forall₂ (UseSound C Γ v) xs ts)
    (hsel : Covers sel (selectorsAll C.defs xs)) :
    EachTyped ⟨C.defs, sel⟩ (C.sig v) (C.returns v) Γ xs ts := by
  induction h with
  | nil => exact .nil
  | cons hx _ ih =>
    obtain ⟨a, hx, hsub⟩ := hx sel hsel.left
    exact .cons hx hsub (ih hsel.right)

lemma FieldsTyped.of_forall {fs : List (FieldValue Note)}
    (h : ∀ f ∈ fs, FieldSound C Γ declared v f) (hsel : Covers sel (selectorsFields C.defs fs)) :
    FieldsTyped ⟨C.defs, sel⟩ (C.sig v) (C.returns v) Γ declared fs := by
  induction fs with
  | nil => exact .nil
  | cons f fs ih =>
    obtain ⟨s, name, x⟩ := f
    obtain ⟨t, ht, hx⟩ := h _ (mem_cons_self ..)
    obtain ⟨a, hx, hsub⟩ := hx sel hsel.left
    exact .cons ht hx hsub (ih (fun f hf => h f (mem_cons_of_mem _ hf)) hsel.right)

/-! ### Calls -/

variable {callee : Expr Unit} {b : Builtin} {callee' : Expr Note}

lemma builtinCall?_source (h : builtinCall? C.context Γ callee = some (b, callee')) :
    callee'.source = callee := by
  unfold builtinCall? at h
  split at h
  · split at h
    · cases h
    · obtain ⟨_, -, ⟨⟩⟩ := Option.map_eq_some_iff.mp h
      rfl
  · cases h

lemma ExprChecks.builtin {arg : Expr Unit}
    (hb : builtinCall? C.context Γ callee = some (b, callee')) (harg : ExprChecks C Γ arg) :
    ExprChecks C Γ (.call s u callee [arg]) := by
  rw [ExprChecks, Checker.expr, checkExpr]
  simp only [hb]
  refine harg.bind fun a x hx' => ?_
  have hnoted : ∀ t, Noted C Γ (.call s u callee [arg])
      (t, .call s ⟨some t, false, .builtin b⟩ callee' [x]) := fun t =>
    .of_parts rfl (by simp [builtinCall?_source hb, hx'.source]) rfl
      (by simp [Expr.parts, hx'.checked])
  cases b with
  | print =>
    simp only [builtinType]
    split
    · exact .error_bind
    · rw [pure_bind]
      exact .pure (hnoted _) fun v hx =>
        ⟨rfl, rfl, fun sel hsel => .print rfl (hx.typed sel hsel.right.left)⟩
  | len =>
    have hlen : ∀ {a}, Primitive.len.type? a = some .int → ∀ v, ExprSound C Γ (a, x) v →
        ExprSound C Γ (.int, .call s ⟨some .int, false, .builtin .len⟩ callee' [x]) v :=
      fun ha v hx => ⟨rfl, rfl, fun sel hsel => .len rfl (hx.typed sel hsel.right.left)
        ha (.same rfl)⟩
    cases a with
    | array => exact .pure (hnoted _) fun v hx => hlen rfl v hx
    | string => exact .pure (hnoted _) fun v hx => hlen rfl v hx
    | _ =>
      exact .error_bind

lemma Checks.requireCount {β : Type} {args params : Nat} {f : Unit → M β} {R : β → Prop}
    {Q : β → Walk → Prop} (hf : args = params → Checks C.context (f ()) R Q) :
    Checks C.context (requireCount s name args params >>= f) R Q := by
  unfold Typing.requireCount
  split
  · rw [pure_bind]
    exact hf ‹_›
  · exact .error_bind

lemma ExprChecks.call (hc : C.context.Valid) {args : List (Expr Unit)}
    (hcallee : ExprChecks C Γ callee) (hargs : ∀ x ∈ args, ExprChecks C Γ x) :
    ExprChecks C Γ (.call s u callee args) := by
  cases hb : builtinCall? C.context Γ callee with
  | some r =>
    match args with
    | [arg] => exact builtin hb (hargs arg (mem_cons_self ..))
    | [] | _ :: _ :: _ =>
      rw [ExprChecks, Checker.expr, checkExpr]
      simp only [hb]
      exact .error
  | none =>
    rw [ExprChecks, Checker.expr, checkExpr]
    simp only [hb]
    refine (variant?_finds hc).find fun r hr => ?_
    cases r with
    | some r =>
      obtain ⟨w, named⟩ := r
      obtain ⟨hvariant, hsource, -⟩ := hr w named rfl
      simp only
      split
      · exact .error
      · refine .requireCount fun hlen => (checkEach_checks hargs hlen).bind ?_
        rintro _ ⟨args', rfl, hargs'⟩
        refine .pure (.of_parts rfl (by simp [hsource, hargs'.source]) rfl
          (by simpa [Expr.parts] using hargs'.checked)) fun v hargs' =>
          ⟨rfl, rfl, fun sel hsel => ?_⟩
        exact .build rfl (hvariant sel) (.of_forall₂ (hargs' [] .nil) hsel.right) (.same rfl)
    | none =>
      refine hcallee.bind fun ft f hf' => ?_
      simp only
      split
      · refine .requireCount fun hlen => (checkEach_checks hargs hlen).bind ?_
        rintro _ ⟨args', rfl, hargs'⟩
        refine .pure (.of_parts rfl (by simp [hf'.source, hargs'.source]) rfl
          (forall_mem_cons.mpr ⟨hf'.checked, hargs'.checked⟩)) fun v hargs' hf =>
            ⟨rfl, rfl, fun sel hsel => ?_⟩
        exact .call rfl (hf.typed sel hsel.left)
          (.of_forall₂ (hargs' [] .nil) hsel.right) (.same rfl)
      · exact .error

/-! ### Other expressions -/

variable {b body : Block Unit} {i : Expr Unit} {params : List Param} {result : Option TypeExpr}

lemma ExprChecks.ifThen (hx : ExprChecks C Γ x) (hb : BlockChecks C Γ b) :
    ExprChecks C Γ (.cond s u x b none) := by
  refine hx.bind fun xt x' hx' => ?_
  split
  · exact .error
  · rename_i hbool
    obtain rfl := not_not.mp hbool
    refine hb.bind fun bt b' hbs hb' => .pure (.of_parts rfl (by simp [hx'.source, hbs]) rfl
      (by simp [Expr.parts, hx'.checked, hb'])) fun v hb hx => ⟨rfl, rfl, fun sel hsel => ?_⟩
    exact .ifThen (hx.typed sel hsel.left.left) (hb.typed sel hsel.left.right)

lemma ExprChecks.ifElse (hx : ExprChecks C Γ x) (hb : BlockChecks C Γ b)
    (hy : ExprChecks C Γ y) : ExprChecks C Γ (.cond s u x b (some y)) := by
  refine hx.bind fun xt x' hx' => ?_
  simp only
  split
  · exact .error
  · rename_i hbool
    obtain rfl := not_not.mp hbool
    refine hb.bind fun bt b' hbs hb' => hy.bind fun yt y' hy' => ?_
    split
    · exact .error
    · rename_i j hj
      obtain ⟨hbj, hyj⟩ := Ty.assignable_join hj
      have hb'' : Checked C Γ (.block (b'.modifyNote (useNote j))) := hb'.useAs j
      have hbs' : (b'.modifyNote (useNote j)).source = b'.source :=
        Expr.block.inj (source_useAs j (.block b'))
      refine .pure (.of_parts rfl (by simp [hx'.source, hbs', hbs, source_useAs, hy'.source]) rfl
        (by simp [Expr.parts, hx'.checked, hb'', hy'.checked.useAs j])) fun v hy hb hx =>
          ⟨rfl, rfl, fun sel hsel => ?_⟩
      have hselb := hsel.left.right
      have hsely := hsel.right
      rw [selectorsBlock_modifyNote] at hselb
      rw [useAs, selectors_modifyNote] at hsely
      obtain ⟨a, hb', ha, hbt⟩ := (hb.typed sel hselb).useAs hb.type hbj
      obtain ⟨a', hy', ha', hyt⟩ := (hy.typed sel hsely).useAs hy.type hyj
      refine .ifElse (hx.typed sel hsel.left.left) hb' hy' ha ha' (fun h h' => ?_) (.same rfl)
      obtain rfl : bt = .never := hbt h
      obtain rfl : yt = .never := hyt h'
      exact (Option.some.inj hj).symm

lemma ExprChecks.block (hb : BlockChecks C Γ b) : ExprChecks C Γ (.block b) := by
  exact Checks.bind hb fun r hr => .pure hr fun v hb =>
    ⟨hb.type, hb.widen, fun sel hsel => .block (hb.typed sel hsel)⟩

lemma ExprChecks.assign (hx : TargetChecks C Γ x) (hy : ExprChecks C Γ y) :
    ExprChecks C Γ (.assign s u x y) := by
  refine Checks.bind hx ?_
  rintro r ⟨hsource, hparts⟩
  refine hy.bind fun yt y' hy' => (coerce_checks C Γ).bind ?_
  rintro _ rfl
  refine .pure (.of_parts rfl (by simp [hsource, source_useAs, hy'.source]) rfl ?_)
    fun v hyt hy hx => ⟨rfl, rfl, fun sel hsel => ?_⟩
  · rw [Expr.parts, forall_mem_append]
    exact ⟨hparts, by simpa using hy'.checked.useAs _⟩
  · obtain ⟨a, ha, hsub⟩ := hyt hy sel hsel.right
    exact hx s _ _ a sel hsel.left ha hsub

lemma ExprChecks.field (hc : C.context.Valid) {name : Name} (hx : ExprChecks C Γ x) :
    ExprChecks C Γ (.field s u x name) := by
  refine (selectField_checks hc hx).imp ?_ fun _ _ _ h => h.expr
  rintro ⟨t, _⟩ ⟨m, x', rfl, htype, hsource, hx'⟩
  refine .of_parts htype (by simp [hsource]) rfl fun y hy => ?_
  simp only [Expr.parts] at hy
  split at hy
  · cases hy
  · rename_i hrole
    cases mem_singleton.mp hy
    exact hx' hrole

lemma ExprChecks.index (hx : ExprChecks C Γ x) (hi : ExprChecks C Γ i) :
    ExprChecks C Γ (.index s u x i) := by
  refine (indexArray_checks hx hi).imp ?_ fun _ _ _ h => h.expr
  rintro ⟨t, _⟩ ⟨m, x', i', rfl, htype, hxs, his, hx', hi'⟩
  exact .of_parts htype (by simp [hxs, his]) rfl (by simp [Expr.parts, hx', hi'])

lemma ExprChecks.array (hxs : ∀ x ∈ xs, ExprChecks C Γ x) : ExprChecks C Γ (.array s u xs) := by
  refine (checkElems_checks hxs).bind ?_
  rintro ⟨t, ys⟩ ⟨_, rfl, hlisted⟩
  have hlisted' : Listed C Γ xs (ys.map (useAs t)) := hlisted.useAs t
  refine .pure (.of_parts rfl (by simp [hlisted'.source]) rfl hlisted'.checked) fun v hys =>
    ⟨rfl, rfl, fun sel hsel => ?_⟩
  have hall : Forall₂ (UseSound C Γ v) (ys.map (useAs t)) (.replicate ys.length t) := by
    refine forall₂_iff_get.mpr ⟨by simp, fun i hi hi' => ?_⟩
    simp only [get_eq_getElem, getElem_map, getElem_replicate]
    obtain ⟨a, hy, ha⟩ := hys nofun _ (getElem_mem (by simpa using hi))
    exact hy.useAs ha
  exact .array (.of_forall₂ hall hsel) (.same rfl)

lemma BodyChecked.source {body : Block Note} (h : BodyChecked C Γ b body)
    (hb : BlockChecks C Γ b) : body.source = b := by
  obtain ⟨w, t, b', w', hrun, hbare⟩ := h
  have hbare' : (Expr.block body).bare = (Expr.block b').bare := congrArg Expr.block hbare.symm
  exact Expr.block.inj ((Expr.source_congr hbare').trans (hb hrun).1.source)

lemma lambda_checks (hbody : ∀ site Γ, BlockChecks { C with site } Γ body) :
    Checks C.context (C.expr Γ (.lambda s u params result body)) (fun r => ∃ m b ps result?,
      r.2 = .lambda s m params result b ∧ m.type? = some r.1 ∧
      signature C.context.names params result = .ok (ps, result?) ∧
      BodyChecked { C with site := ⟨result?, Γ⟩ } (paramEnv params ps) body b) (ExprSound C Γ) := by
  refine .lift fun ⟨ps, result?⟩ hsig => ?_
  have hown := (body_checks (hbody ⟨result?, Γ⟩ _) (signature_spec hsig)).imp (fun _ h => h)
    fun _ _ _ h => h.2
  refine (withOwnReturns_checks (P := fun r p => BodySound C.context p params ⟨ps, r.1⟩ r.2)
    hown).bind
    fun r hr => .pure ⟨_, _, ps, result?, rfl, rfl, hsig, hr⟩ fun v hb =>
      ⟨rfl, rfl, fun sel hsel => ?_⟩
  obtain ⟨hlen, hnever, a, ha, hsub⟩ := hb sel hsel
  exact .lambda hlen hnever ha hsub (.same rfl)

lemma ExprChecks.lambda (hbody : ∀ site Γ, BlockChecks { C with site } Γ body) :
    ExprChecks C Γ (.lambda s u params result body) := by
  refine (lambda_checks hbody).mono ?_
  rintro ⟨t, _⟩ ⟨m, b, ps, result?, rfl, htype, -, hb⟩
  exact .of_parts htype (by simp [hb.source (hbody _ _)]) rfl (forall_mem_nil _)

lemma ExprChecks.struct (hc : C.context.Valid) {type : Name} (hfs : ∀ f ∈ fs, FieldChecks C Γ f) :
    ExprChecks C Γ (.struct s u type fs) := by
  refine (structOf_finds hc).find fun r hdef => (checkFields_checks hfs).bind ?_
  rintro _ ⟨fields, rfl, hsource, hchecked⟩
  simp only
  split
  · exact .error
  · rename_i hnone
    refine .pure (.of_parts rfl (by simp [hsource]) rfl hchecked) fun v hfields =>
      ⟨rfl, rfl, fun sel hsel => ?_⟩
    refine .struct rfl hdef.1 hdef.2 (.of_forall (hfields (forall_mem_nil _)) hsel)
      (fun d hd => ?_) (.same rfl)
    have hset := find?_eq_none.mp hnone d hd
    rw [decide_eq_true_eq, not_not] at hset
    obtain ⟨f, hf, hname⟩ := mem_map.mp hset
    exact mem_map.mpr ⟨f, hf, by cases f; exact hname⟩

/-! ### Targets -/

lemma TargetChecks.var : TargetChecks C Γ (.var s u name) := by
  rw [TargetChecks, checkTarget]
  unfold Context.binding?
  cases hx : lookup name Γ with
  | some t =>
    exact .pure ⟨rfl, forall_mem_nil _⟩ fun v s n y a sel _ hy hsub => .assignVar hx hy hsub
  | none =>
    cases C.context.func? name with
    | none => exact .error
    | some f => exact .error

lemma TargetChecks.field (hc : C.context.Valid) {name : Name} (hx : ExprChecks C Γ x) :
    TargetChecks C Γ (.field s u x name) := by
  refine (selectField_checks hc hx).bind ?_
  rintro ⟨t, _⟩ ⟨m, x', rfl, -, hsource, hx'⟩
  simp only
  split
  · exact .error
  · rename_i hrole
    exact .pure ⟨by simp [hsource], by simpa [Expr.targetParts] using hx' hrole⟩ fun v h =>
      h.target hrole

lemma TargetChecks.index (hx : ExprChecks C Γ x) (hi : ExprChecks C Γ i) :
    TargetChecks C Γ (.index s u x i) := by
  refine (indexArray_checks hx hi).imp ?_ fun _ _ _ h => h.target
  rintro ⟨t, _⟩ ⟨m, x', i', rfl, -, hxs, his, hx', hi'⟩
  exact ⟨by simp [hxs, his], by simp [Expr.targetParts, hx', hi']⟩

/-! ### Statements -/

variable (C Γ)

/-- The check of a statement gives a typed one. -/
def StmtChecks (x : Stmt Unit) : Prop :=
  Checks C.context (checkStmt C.context C.infer C.site Γ x) (StmtNoted C Γ x) (StmtSound C Γ)

variable {C Γ} {name : Name} {b : Block Unit} {type : Option TypeExpr}

lemma declare_checks {y : Expr Note} (hsource : y.source = x) (hy : Checked C Γ y)
    (hgives : GivesType C.context (.value type y) t) :
    Checks C.context (if t = .unit ∨ t = .never then error y.span (.usedAsValue y.text t)
      else if t.isEmptyArray then error s (.cannotInfer name.text)
      else pure ((name.text, t) :: Γ, false, Stmt.letVar s name type y) :
        M (Env × Bool × Stmt Note)) (StmtNoted C Γ (.letVar s name type x))
      fun r v => UseSound C Γ v y t → StmtSound C Γ r v := by
  split
  · exact .error
  · split
    · exact .error
    · refine .pure ⟨by simp [hsource], t, fun k bound Γ0 own hown henv => ?_⟩
        fun v hy sel hsel => ?_
      · have ht : own (k + 1) = t := hown _ (by omega) (by simp [Stmt.items])
        subst henv ht
        exact ⟨.cons hy (.cons hgives .nil), rfl⟩
      · obtain ⟨b, hb, hsub⟩ := hy sel hsel
        exact .letVar hb hsub

section

variable (hx : ExprChecks C Γ x)

include hx

lemma StmtChecks.letVar : StmtChecks C Γ (.letVar s name type x) := by
  refine hx.bind fun a x' hx' => ?_
  cases type with
  | none =>
    have hgives : GivesType C.context (.value none x') a := hx'.type
    exact (declare_checks hx'.source hx'.checked hgives).imp (fun _ h => h)
      fun r v _ hr hx => hr fun sel hsel => ⟨a, hx.typed sel hsel, .refl a⟩
  | some type =>
    refine .lift fun t ht => (coerce_checks C Γ).bind ?_
    rintro _ rfl
    have hgives : GivesType C.context (.value (some type) (useAs t x')) t := ht
    exact (declare_checks ((source_useAs t x').trans hx'.source) (hx'.checked.useAs t) hgives).imp
      (fun _ h => h) fun r v _ hr hy hx => hr (hy hx)

omit hx in
lemma StmtChecks.retNone : StmtChecks C Γ (.ret s none) := by
  have hnoted : StmtNoted C Γ (.ret s none) (Γ, true, .ret s none) :=
    .of_parts rfl [] (fun _ _ => rfl) (fun _ => rfl) nofun
  rw [StmtChecks, checkStmt]
  cases hres : C.site.result? with
  | none =>
    refine Checks.addReturn.bind fun _ _ => .pure hnoted fun v hmem sel _ => .retNone ?_
    simp only [Site.returns, hres]
    exact ⟨rfl, rfl, hmem⟩
  | some r =>
    simp only
    split
    · rename_i hr
      refine .pure hnoted fun v sel _ => .retNone ?_
      simp only [Site.returns, hres, hr]
      exact Ty.Sub.refl _
    · exact .error

lemma StmtChecks.ret : StmtChecks C Γ (.ret s (some x)) := by
  have hnoted : ∀ v, v.source = x → Checked C Γ v →
      StmtNoted C Γ (.ret s (some x)) (Γ, true, .ret s (some v)) := fun v hsource hv =>
    .of_parts (by simp [hsource]) [v] (fun _ _ => rfl) (fun _ => rfl) (by simpa using hv)
  refine hx.bind fun t x' hx' => ?_
  cases hres : C.site.result? with
  | none =>
    refine Checks.addReturn.bind fun _ _ => .pure (hnoted x' hx'.source hx'.checked)
      fun v hmem hx sel hsel => .ret (hx.typed sel hsel) ?_
    simp only [Site.returns, hres]
    exact ⟨hx.type, hx.widen, hmem⟩
  | some r =>
    refine (coerce_checks C Γ).bind ?_
    rintro _ rfl
    refine .pure (hnoted _ ((source_useAs r x').trans hx'.source) (hx'.checked.useAs r))
      fun v hy hx sel hsel => ?_
    obtain ⟨a, ha, hsub⟩ := hy hx sel hsel
    refine .ret ha ?_
    simp only [Site.returns, hres]
    exact hsub

lemma StmtChecks.loop (hb : BlockChecks C Γ b) : StmtChecks C Γ (.loop s x b) := by
  refine hx.bind fun t x' hx' => ?_
  simp only
  split
  · exact .error
  · rename_i hbool
    obtain rfl := not_not.mp hbool
    exact hb.bind fun _ b' hbs hb' => .pure (.of_parts (by simp [hx'.source, hbs]) [x', .block b']
      (fun _ _ => rfl) (fun _ => rfl) (by simp [hx'.checked, hb'])) fun v hb hx sel hsel =>
        .loop (hx.typed sel hsel.left) (hb.typed sel hsel.right)

lemma StmtChecks.forRange (hy : ExprChecks C Γ y) (hb : BlockChecks C ((name.text, .int) :: Γ) b) :
    StmtChecks C Γ (.forRange s name x y b) := by
  refine hx.bind fun xt x' hx' => hy.bind fun yt y' hy' => ?_
  simp only
  split
  · rename_i hint
    obtain ⟨rfl, rfl⟩ := hint
    refine hb.bind fun _ b' hbs hb' => .pure ⟨by simp [hx'.source, hy'.source, hbs], .int,
      fun k bound Γ0 own hown henv => ?_⟩ fun v hb hy hx sel hsel => ?_
    · have ht : own (k + 2) = .int := hown _ (by omega) (by simp [Stmt.items])
      subst henv
      rw [← ht] at hb'
      exact ⟨.cons hx'.checked (.cons hy'.checked (.cons ht (.cons hb' .nil))), rfl⟩
    · exact .forRange (hx.typed sel hsel.left.left) (hy.typed sel hsel.left.right)
        (hb.typed sel hsel.right)
  · exact .error

lemma StmtChecks.forEach (hb : ∀ Γ, BlockChecks C Γ b) : StmtChecks C Γ (.forEach s name x b) := by
  refine hx.bind fun t x' hx' => ?_
  simp only
  split
  · rename_i elem
    refine (hb _).bind fun _ b' hbs hb' => .pure ⟨by simp [hx'.source, hbs], elem,
      fun k bound Γ0 own hown henv => ?_⟩ fun v hb hx sel hsel => ?_
    · have ht : own (k + 1) = elem := hown _ (by omega) (by simp [Stmt.items])
      subst henv ht
      exact ⟨.cons hx'.checked (.cons hx'.type (.cons hb' .nil)), rfl⟩
    · exact .forEach (hx.typed sel hsel.left) (hb.typed sel hsel.right)
  · exact .error

lemma StmtChecks.expr : StmtChecks C Γ (.expr x) := by
  exact hx.bind fun t x' hx' => .pure (.of_parts (by simp [hx'.source]) [x'] (fun _ _ => rfl)
    (fun _ => rfl) (by simpa using hx'.checked)) fun v hx sel hsel => .expr (hx.typed sel hsel)

end

/-! ### Blocks -/

variable {stmts : List (Stmt Unit)}

lemma StmtsTyped.concat {static : Static} {sig : Bytes → Signature → Prop} {R : Returns}
    {Γ Γ' Γ'' : Env} {d d' d'' : Bool} {x : Stmt Note} {xs : List (Stmt Note)} :
    StmtsTyped static sig R Γ d xs Γ' d' → StmtTyped static sig R Γ' x Γ'' d'' →
      StmtsTyped static sig R Γ d (xs ++ [x]) Γ'' d''
  | .nil, hx => .cons hx .nil
  | .cons hy hys, hx => .cons hy (hys.concat hx)

lemma selectorsStmts_append (defs : List TypeDef) (xs ys : List (Stmt Note)) :
    selectorsStmts defs (xs ++ ys) = selectorsStmts defs xs ++ selectorsStmts defs ys := by
  induction xs with
  | nil => rfl
  | cons x xs ih =>
    rw [cons_append, selectorsStmts, ih, selectorsStmts, append_assoc]

lemma checkStmts_checks {xs : List (Stmt Unit)}
    (hxs : ∀ x ∈ xs, ∀ Γ, StmtChecks C Γ x) {Γ : Env} {diverges : Bool} {done : List (Stmt Note)} :
    Checks C.context (checkStmts C.context C.infer C.site Γ diverges done xs) (fun r => ∃ xs',
      r.2.2 = done.reverse ++ xs' ∧ Stmt.listMapNotes (fun _ => ()) xs' = xs ∧
      ∀ k bound Γ0, ∃ types : Nat → Ty, ∀ own : Nat → Ty, (∀ i, k ≤ i → own i = types i) →
        Γ = extend own bound Γ0 → ItemsChecked C Γ0 own k (stmtsItems k bound xs') ∧
          r.1 = extend own (boundAfter k bound xs') Γ0) fun r v =>
      ∀ Γ0, StmtsSound C Γ0 (Γ, diverges, done.reverse) v → StmtsSound C Γ0 r v := by
  induction xs generalizing Γ diverges done with
  | nil =>
    exact .pure ⟨[], by simp, rfl, fun k bound Γ0 =>
      ⟨fun _ => .unit, fun own _ henv => ⟨.nil, henv⟩⟩⟩
      fun v Γ0 hdone => hdone
  | cons x xs ih =>
    refine Checks.bind (hxs x mem_cons_self Γ) ?_
    rintro ⟨Γ', d, x'⟩ ⟨hsource, t, hitems⟩
    refine (ih fun x hx => hxs x (mem_cons_of_mem _ hx)).imp ?_ fun r v _ hr hx Γ0 hdone =>
      hr Γ0 fun sel hsel => ?_
    · rintro r ⟨xs', hr, hsource', hitems'⟩
      refine ⟨x' :: xs', by simpa using hr, by simp [hsource, hsource'], fun k bound Γ0 => ?_⟩
      obtain ⟨types, htypes⟩ := hitems' (k + (x'.items k bound).length) (x'.binds k ++ bound) Γ0
      -- The variable of the first statement comes before those of the others.
      refine ⟨fun i => if i < k + (x'.items k bound).length then t else types i,
        fun own hown henv => ?_⟩
      obtain ⟨hfirst, henv'⟩ := hitems k bound Γ0 own
        (fun i hi hlt => (hown i hi).trans (if_pos hlt)) henv
      obtain ⟨hrest, henv''⟩ := htypes own
        (fun i hi => (hown i (by omega)).trans (if_neg (by omega))) henv'
      exact ⟨hfirst.append hrest, henv''⟩
    · simp only [reverse_cons, selectorsStmts_append] at hsel ⊢
      exact (hdone sel hsel.left).concat (hx sel hsel.right.left)

lemma BlockChecks.value (hstmts : ∀ x ∈ stmts, ∀ Γ, StmtChecks C Γ x) (hx : ∀ Γ, ExprChecks C Γ x) :
    BlockChecks C Γ (.mk s u stmts (some x)) := by
  refine (checkStmts_checks hstmts).bind ?_
  rintro ⟨Γ', d, stmts'⟩ ⟨_, rfl, hsource, hitems⟩
  obtain ⟨own, hown⟩ := hitems 0 [] Γ
  obtain ⟨hitems', henv⟩ := hown own (fun _ _ => rfl) rfl
  obtain rfl : Γ' = extend own (boundAfter 0 [] stmts') Γ := henv
  refine (hx _).bind fun t x' hx' => .pure ⟨rfl, by simp [hsource, hx'.source], own,
    hitems'.append (.cons hx'.checked .nil)⟩ fun v hx hstmts => ⟨rfl, rfl, fun sel hsel => ?_⟩
  exact .value (hstmts Γ (fun _ _ => .nil) sel hsel.left) (hx.typed sel hsel.right) (.same rfl)

lemma BlockChecks.unit (hstmts : ∀ x ∈ stmts, ∀ Γ, StmtChecks C Γ x) :
    BlockChecks C Γ (.mk s u stmts none) := by
  refine (checkStmts_checks hstmts).bind ?_
  rintro ⟨Γ', d, _⟩ ⟨stmts', rfl, hsource, hitems⟩
  obtain ⟨own, hown⟩ := hitems 0 [] Γ
  obtain ⟨hitems', -⟩ := hown own (fun _ _ => rfl) rfl
  refine .pure ⟨rfl, by simp [hsource], own, by simpa [Expr.items] using hitems'⟩ fun v hstmts =>
    ⟨rfl, rfl, fun sel hsel => ?_⟩
  exact .unit (hstmts Γ (fun _ _ => .nil) sel hsel.left)

/-! ### Trees -/

/-- The declarations are valid, and so is what is found out about the functions. -/
structure Reliable (C : Checker) : Prop where
  valid : C.context.Valid
  infer : InferSound C.context C.infer

lemma Reliable.atSite (h : Reliable C) (site : Site) : Reliable { C with site } :=
  ⟨h.valid, h.infer⟩

-- One case for each kind of tree.
mutual

/-- **The check of an expression gives a typed one.** -/
theorem Reliable.expr {C : Checker} (h : Reliable C) {Γ : Env} :
    ∀ x, ExprChecks C Γ x
  | .lit _ _ _ => .lit
  | .var _ _ _ => .var h.infer
  | .binary _ _ _ x y => .binary (h.expr x) (h.expr y)
  | .unary _ _ _ x => .unary (h.expr x)
  | .call _ _ callee args => .call h.valid (h.expr callee) (h.exprs args)
  | .cond _ _ x b none => .ifThen (h.expr x) (h.block b)
  | .cond _ _ x b (some y) => .ifElse (h.expr x) (h.block b) (h.expr y)
  | .block b => .block (h.block b)
  | .assign _ _ x y => .assign (h.target x) (h.expr y)
  | .field _ _ x _ => .field h.valid (h.expr x)
  | .array _ _ xs => .array (h.exprs xs)
  | .index _ _ x i => .index (h.expr x) (h.expr i)
  | .lambda _ _ _ _ body => .lambda fun site _ => (h.atSite site).block body
  | .struct _ _ _ fs => .struct h.valid (h.fields fs)

theorem Reliable.target {C : Checker} (h : Reliable C) {Γ : Env} :
    ∀ x, TargetChecks C Γ x
  | .var _ _ _ => .var
  | .field _ _ x _ => .field h.valid (h.expr x)
  | .index _ _ x i => .index (h.expr x) (h.expr i)
  | .lit _ _ _ | .binary _ _ _ _ _ | .unary _ _ _ _ | .call _ _ _ _ | .cond _ _ _ _ _ | .block _
  | .assign _ _ _ _ | .array _ _ _ | .lambda _ _ _ _ _ | .struct _ _ _ _ => Checks.error

theorem Reliable.exprs {C : Checker} (h : Reliable C) {Γ : Env} :
    ∀ xs : List (Expr Unit), ∀ x ∈ xs, ExprChecks C Γ x
  | [], _, hx => nomatch hx
  | x :: _, _, .head _ => h.expr x
  | _ :: xs, x, .tail _ hx => h.exprs xs x hx

theorem Reliable.fields {C : Checker} (h : Reliable C) {Γ : Env} :
    ∀ fs : List (FieldValue Unit), ∀ f ∈ fs, FieldChecks C Γ f
  | [], _, hf => nomatch hf
  | .mk _ _ x :: _, _, .head _ => h.expr x
  | _ :: fs, f, .tail _ hf => h.fields fs f hf

theorem Reliable.block {C : Checker} (h : Reliable C) {Γ : Env} :
    ∀ b, BlockChecks C Γ b
  | .mk _ _ stmts none => .unit (h.eachStmt stmts)
  | .mk _ _ stmts (some x) => .value (h.eachStmt stmts) fun _ => h.expr x

theorem Reliable.stmt {C : Checker} (h : Reliable C) {Γ : Env} :
    ∀ x, StmtChecks C Γ x
  | .letVar _ _ _ x => .letVar (h.expr x)
  | .ret _ none => .retNone
  | .ret _ (some x) => .ret (h.expr x)
  | .loop _ x b => .loop (h.expr x) (h.block b)
  | .forRange _ _ x y b => .forRange (h.expr x) (h.expr y) (h.block b)
  | .forEach _ _ x b => .forEach (h.expr x) fun _ => h.block b
  | .expr x => .expr (h.expr x)

theorem Reliable.eachStmt {C : Checker} (h : Reliable C) :
    ∀ xs : List (Stmt Unit), ∀ x ∈ xs, ∀ Γ, StmtChecks C Γ x
  | [], _, hx, _ => nomatch hx
  | x :: _, _, .head _, _ => h.stmt x
  | _ :: xs, x, .tail _ hx, Γ => h.eachStmt xs x hx Γ

end

end Rules

/-! ### Functions -/

variable {p q : Progress} {status : Status} {c : Context}

lemma lookup_cons_of_ne {name' : Bytes} (h : name ≠ name') :
    lookup name ((name', status) :: p) = p.lookup name := by
  rw [lookup_cons, beq_false_of_ne h]

lemma eq_or_lookup {n : Bytes} {s : Status} (h : lookup n ((name, status) :: p) = some s) :
    n = name ∧ status = s ∨ n ≠ name ∧ p.lookup n = some s := by
  rcases eq_or_ne n name with rfl | hne
  · rw [lookup_cons_self] at h
    exact .inl ⟨rfl, Option.some.inj h⟩
  · rw [lookup_cons_of_ne hne] at h
    exact .inr ⟨hne, h⟩

lemma Progress.Le.cons (h : ∀ b, p.lookup name ≠ some (.checked b)) :
    p.Le ((name, status) :: p) := by
  intro n b hb
  rwa [lookup_cons_of_ne]
  rintro rfl
  exact h b hb

lemma Progress.Le.trans {r : Progress} (h : p.Le q) (h' : q.Le r) : p.Le r :=
  fun _ _ hb => h' (h hb)

lemma Sound.checking (hp : Sound c p) (hname : p.lookup name = none) :
    Sound c ((name, .checking) :: p) := by
  have hle : p.Le ((name, .checking) :: p) := .cons (by simp [hname])
  intro n b hb
  obtain ⟨-, ⟨⟩⟩ | ⟨-, hb⟩ := eq_or_lookup hb
  obtain ⟨f, hf, hresult, hbody⟩ := hp hb
  exact ⟨f, hf, hresult, fun q hq => hbody q (hle.trans hq)⟩

lemma Progress.Grows.checked {b : CheckedBody} (h : Grows ((name, .checking) :: p) q)
    (hnone : p.lookup name = none) : p.Grows ((name, .checked b) :: q) := by
  have hne : ∀ {n s}, p.lookup n = some s → n ≠ name := by
    rintro n s hs rfl
    rw [hnone] at hs
    cases hs
  refine ⟨fun {n s} hs => ?_, fun {n} hs => ?_⟩
  · rw [lookup_cons_of_ne (hne hs)]
    exact h.keeps (by rwa [lookup_cons_of_ne (hne hs)])
  · obtain ⟨-, ⟨⟩⟩ | ⟨hn, hs⟩ := eq_or_lookup hs
    have hs' := h.opens hs
    rwa [lookup_cons_of_ne hn] at hs'

/-- **The check of a function keeps all functions typed.**  The induction is on the number of
functions that are not being checked. -/
theorem checkFunc_sound (hc : c.Valid) (depth : Nat) : InferSound c (checkFunc c depth) := by
  induction depth with
  | zero =>
    intro f p _ _ _ r q hrun
    cases hrun
  | succ depth ih =>
    intro f p hf hnone hp r q hrun
    have hsig := signature_spec (hc.funcs f (mem_of_find?_eq_some hf))
    have hblock : BlockChecks ⟨c, _, f.result?, []⟩ (paramEnv f.decl.params f.params) f.decl.body :=
      Reliable.block ⟨hc, ih⟩ _
    have hcheck := body_checks hblock hsig
    obtain ⟨⟨⟨r, body⟩, w⟩, hresult, ⟨⟩⟩ := bind_ok hrun
    obtain ⟨hw, hgrows, hbody⟩ := (hcheck hresult).2 (hp.checking hnone)
    have hchecking : w.progress.lookup f.name = some .checking :=
      hgrows.progress.keeps lookup_cons_self
    have hle : w.progress.Le ((f.name, .checked ⟨r, body⟩) :: w.progress) :=
      .cons (by simp [hchecking])
    refine ⟨fun n b hb => ?_, hgrows.progress.checked hnone, _, lookup_cons_self, rfl⟩
    obtain ⟨rfl, ⟨⟩⟩ | ⟨-, hb⟩ := eq_or_lookup hb
    · have hbody' : ∀ q, w.progress.Le q → _ := fun q hq =>
        hbody ⟨q, w.returns⟩ ⟨hq, Subset.refl _⟩
      exact ⟨f, hf, (hbody' _ fun _ _ hb => hb).1, fun q hq => (hbody' q (hle.trans hq)).2⟩
    · obtain ⟨g, hg, hresult, htyped⟩ := hw hb
      exact ⟨g, hg, hresult, fun q hq => htyped q (hle.trans hq)⟩

/-- What the check of one function keeps holds after the check of functions; all of them have been
checked, and none is left open. -/
theorem checkFuncs_keeps {P : Progress → Prop} (hP : InferKeeps P c (checkFunc c c.funcs.length))
    {fs : List FuncInfo} (hfs : ∀ f ∈ fs, c.func? f.name = some f)
    (hrun : checkFuncs c p fs = .ok q) (hp : P p) (hopen : ∀ name, p.lookup name ≠ some .checking) :
    P q ∧ p.Grows q ∧ ∀ f ∈ fs, ∃ b, q.lookup f.name = some (.checked b) := by
  induction fs generalizing p with
  | nil =>
    cases hrun
    exact ⟨hp, .refl _, fun _ hf => by cases hf⟩
  | cons f fs ih =>
    have hrest : ∀ {p' b}, P p' → p.Grows p' →
        p'.lookup f.name = some (.checked b) → checkFuncs c p' fs = .ok q →
        P q ∧ p.Grows q ∧ ∀ g ∈ f :: fs, ∃ b, q.lookup g.name = some (.checked b) := by
      intro p' b hp' hgrows hf hrun
      obtain ⟨hq, hgrows', hall⟩ := ih (fun g hg => hfs g (mem_cons_of_mem _ hg)) hrun hp'
        fun name h => hopen name (hgrows.opens h)
      refine ⟨hq, hgrows.trans hgrows', ?_⟩
      rintro g (_ | ⟨_, hg⟩)
      · exact ⟨b, hgrows'.keeps hf⟩
      · exact hall g hg
    rw [checkFuncs] at hrun
    split at hrun
    · rename_i status hf
      cases status with
      | checking => exact (hopen _ hf).elim
      | checked b => exact hrest hp (.refl p) hf hrun
    · rename_i hnone
      obtain ⟨r, hr, hrun⟩ := bind_ok hrun
      obtain ⟨hp', hgrows, b, hf, -⟩ := hP (hfs f (mem_cons_self ..)) hnone hp hr
      exact hrest hp' hgrows hf hrun

/-! ### Programs -/

variable {package : Package}

/-- A declared function with what the check found out about it. -/
def annotateFunc (p : Progress) (f : FuncDecl Unit) : Option (FuncDecl Note) :=
  match p.lookup f.name.text with
  | some (.checked b) => some ⟨f.span, f.name, f.params, f.result, b.body⟩
  | _ => none

lemma funcs_annotate (p : Progress) (span : Span) (decls : List (Decl Unit)) :
    (Program.mk span (decls.filterMap (annotate p))).funcs =
      (Program.mk span decls).funcs.filterMap (annotateFunc p) := by
  simp only [Program.funcs, filterMap_filterMap]
  refine filterMap_congr fun d _ => ?_
  match d with
  | .func f =>
    simp only [annotate, annotateFunc, Option.bind_some]
    cases p.lookup f.name.text with
    | none => rfl
    | some status => cases status <;> rfl
  | .struct _ _ _ => rfl
  | .enum _ _ _ => rfl
  | .alias _ _ _ => rfl

lemma Context.func?_of_mem (hnodup : (c.funcs.map FuncInfo.name).Nodup) {f : FuncInfo}
    (hf : f ∈ c.funcs) : c.func? f.name = some f :=
  (find?_eq_some_iff hnodup).mpr ⟨hf, rfl⟩

/-- What the check of a program goes through. -/
structure Passes (p : Program Unit) (c : Context) (q : Progress) : Prop where
  names : declareTypes [] p.decls = .ok c.names
  defs : resolveDecls c.names [] p.decls = .ok c.defs
  funcs : declareFuncs c.names [] p.funcs = .ok c.funcs
  main : requireMain p.span c = .ok ()
  progress : checkFuncs c [] c.funcs = .ok q

/-- The checked program of what is known in the end. -/
def packageOf (p : Program Unit) (c : Context) (q : Progress) : Package where
  program := ⟨p.span, p.decls.filterMap (annotate q)⟩
  defs := c.defs
  signatures := c.funcs.filterMap (checkedType q)

lemma checkProgram_iff {p : Program Unit} :
    checkProgram p = .ok package ↔ ∃ c q, Passes p c q ∧ package = packageOf p c q := by
  constructor
  · intro h
    obtain ⟨names, hnames, h⟩ := bind_ok h
    obtain ⟨defs, hdefs, h⟩ := bind_ok h
    obtain ⟨funcs, hfuncs, h⟩ := bind_ok h
    obtain ⟨_, hmain, h⟩ := bind_ok h
    obtain ⟨q, hq, ⟨⟩⟩ := bind_ok h
    exact ⟨⟨names, defs, funcs⟩, q, ⟨hnames, hdefs, hfuncs, hmain, hq⟩, rfl⟩
  · rintro ⟨c, q, h, rfl⟩
    simp only [checkProgram, h.names, h.defs, h.funcs, h.main, h.progress, bind, Except.bind]
    rfl

lemma Passes.valid {p : Program Unit} (h : Passes p c q) : c.Valid :=
  ⟨resolveDecls_valid h.defs, (declareFuncs_spec h.funcs).2.1⟩

/-- What is known after the check of a program: all its functions have been checked and are typed.
-/
theorem checkProgram_spec {p : Program Unit} (h : checkProgram p = .ok package) :
    ∃ (c : Context) (q : Progress) (body : FuncInfo → CheckedBody),
      c.defs = package.defs ∧ (c.funcs.map FuncInfo.name).Nodup ∧
      (∃ f ∈ c.funcs, f.name = "main" ∧ f.params = []) ∧ Sound c q ∧
      (∀ f ∈ c.funcs, q.lookup f.name = some (.checked (body f))) ∧
      package.program.funcs = (c.funcs.map FuncInfo.decl).filterMap (annotateFunc q) ∧
      package.signatures = c.funcs.filterMap (checkedType q) := by
  obtain ⟨c, q, hpass, rfl⟩ := checkProgram_iff.mp h
  obtain ⟨hdecls, -, hnodup⟩ := declareFuncs_spec hpass.funcs
  obtain ⟨hsound, -, hall⟩ := checkFuncs_keeps (checkFunc_sound hpass.valid _)
    (fun f hf => Context.func?_of_mem hnodup hf) hpass.progress nofun nofun
  have : Nonempty CheckedBody := ⟨⟨.unit, .mk .none .blank [] none⟩⟩
  choose! body hbody using hall
  refine ⟨c, q, body, rfl, hnodup, ?_, hsound, hbody, ?_, rfl⟩
  · have hmain := hpass.main
    rw [requireMain] at hmain
    split at hmain
    · cases hmain
    · rename_i f hf
      split at hmain
      · exact ⟨f, mem_of_find?_eq_some hf, Context.func?_name hf, isEmpty_iff.mp ‹_›⟩
      · cases hmain
  · rw [hdecls]
    exact funcs_annotate q p.span p.decls

/-- **The functions of a checked program are typed.** -/
theorem checkProgram_typed {p : Program Unit} (h : checkProgram p = .ok package) :
    ∃ (bs : Signatures) (sig : Bytes → Signature → Prop),
      (∀ {name : Bytes} {g : Signature}, sig name g → (name, g) ∈ bs) ∧
      package.signatures = bs.map (fun b => (b.1, .func b.2.params b.2.result)) ∧
      (bs.map Prod.fst).Nodup ∧ (∃ r, (Bytes.ofString "main", ⟨[], r⟩) ∈ bs) ∧
      ∀ sel, Covers sel package.selectors →
        Forall₂ (DeclTyped ⟨package.defs, sel⟩ sig) package.program.funcs bs := by
  obtain ⟨c, q, body, hdefs, hnodup, hmain, hsound, hbody, hprogram, hsignatures⟩ :=
    checkProgram_spec h
  have hprogram' : package.program.funcs = c.funcs.map fun f =>
      ⟨f.decl.span, f.decl.name, f.decl.params, f.decl.result, (body f).body⟩ := by
    rw [hprogram, filterMap_map, ← filterMap_eq_map]
    refine filterMap_congr fun f hf => ?_
    simp [annotateFunc, hbody f hf]
  have hsignatures' : package.signatures = c.funcs.map fun f =>
      (f.name, .func f.params (body f).result) := by
    rw [hsignatures, ← filterMap_eq_map]
    refine filterMap_congr fun f hf => ?_
    simp [checkedType, hbody f hf]
  refine ⟨c.funcs.map fun f => (f.name, ⟨f.params, (body f).result⟩), c.sig q, ?_, ?_, ?_, ?_, ?_⟩
  · rintro name ⟨params, result⟩ ⟨f, hf, rfl, hresult⟩
    have hmem := mem_of_find?_eq_some hf
    obtain rfl := Context.func?_name hf
    refine mem_map.mpr ⟨f, hmem, ?_⟩
    rcases hresult with hdeclared | ⟨-, b, hb, hb'⟩
    · obtain ⟨g, hg, hresult, -⟩ := hsound (hbody f hmem)
      cases hf.symm.trans hg
      rw [hresult _ hdeclared]
    · rw [hbody f hmem] at hb
      cases hb
      rw [hb']
  · rw [hsignatures', map_map]
    rfl
  · rw [map_map]
    exact hnodup
  · obtain ⟨f, hf, hname, hparams⟩ := hmain
    exact ⟨(body f).result, mem_map.mpr ⟨f, hf, by rw [hname, hparams]⟩⟩
  · intro sel hsel
    rw [hprogram', forall₂_map_left_iff, forall₂_map_right_iff, forall₂_same]
    intro f hf
    obtain ⟨g, hg, -, htyped⟩ := hsound (hbody f hf)
    cases (Context.func?_of_mem hnodup hf).symm.trans hg
    refine ⟨rfl, hdefs ▸ htyped q (fun _ _ hb => hb) sel (hsel.mono ?_)⟩
    intro e he
    rw [Package.selectors, hprogram', mem_flatMap]
    exact ⟨_, mem_map.mpr ⟨f, hf, rfl⟩, hdefs ▸ he⟩

end Typing

/-- The checked program of a text. -/
def Package.ofText? (src : Bytes) : Option Package :=
  (parse src).toOption.bind fun tree => (Typing.checkProgram tree).toOption

lemma Package.of_any_ofText? {src : Bytes} {test : Package → Bool}
    (h : (ofText? src).any test = true) :
    ∃ tree package, parse src = .ok tree ∧ Typing.checkProgram tree = .ok package ∧
      test package = true := by
  unfold ofText? at h
  cases htree : parse src with
  | error e => simp [htree, Except.toOption] at h
  | ok tree =>
    cases hcheck : Typing.checkProgram tree with
    | error e => simp [htree, hcheck, Except.toOption] at h
    | ok package =>
      simpa [htree, hcheck, Except.toOption] using h

end Minilang
