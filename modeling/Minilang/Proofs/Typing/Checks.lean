import Minilang.Proofs.Typing.Items
import Minilang.Proofs.Typing.Joins
import Minilang.Proofs.Typing.Selectors

/-!
# The steps of a check

What the check of a body does, step by step, and what can be stated of the trees it gives.

The signatures of functions are found out along the way, and so are the types of the returned
values of a function without a result type.  What is stated of a checked tree therefore holds for
every later state of the check: the functions checked by then keep their signatures, and the list of
returned values only grows.
-/

namespace Minilang.Typing

open List

open Tac (Signature)

/-! ### States of a check -/

variable {sel : Span → Bytes → Prop} {l l' : List (Span × Bytes)} {w w' v : Walk} {s : Span}
  {t : Ty} {β : Type}

/-- The functions that have been checked in `p` have been checked in `q`, with the same outcome. -/
def Progress.Le (p q : Progress) : Prop :=
  ∀ ⦃name : Bytes⦄ ⦃b : CheckedBody⦄,
    p.lookup name = some (.checked b) → q.lookup name = some (.checked b)

/-- All functions are as far in `q` as in `p`, and those that `q` has besides have been checked to
the end. -/
structure Progress.Grows (p q : Progress) : Prop where
  keeps : ∀ {name s}, p.lookup name = some s → q.lookup name = some s
  opens : ∀ {name}, q.lookup name = some .checking → p.lookup name = some .checking

lemma Progress.Grows.refl (p : Progress) : p.Grows p :=
  ⟨id, id⟩

lemma Progress.Grows.trans {p q r : Progress} (h : p.Grows q) (h' : q.Grows r) : p.Grows r :=
  ⟨fun hp => h'.keeps (h.keeps hp), fun hr => h.opens (h'.opens hr)⟩

/-- The signature of a function, as far as it has been found out. -/
def Context.sig (c : Context) (p : Progress) (name : Bytes) (g : Signature) : Prop :=
  ∃ f, c.func? name = some f ∧ g.params = f.params ∧
    (f.result? = some g.result ∨
      f.result? = none ∧ ∃ b, p.lookup name = some (.checked b) ∧ b.result = g.result)

/-- All selectors are at places where a component may be missing. -/
def Covers (sel : Span → Bytes → Prop) (selectors : List (Span × Bytes)) : Prop :=
  ∀ s ∈ selectors, sel s.1 s.2

lemma Covers.mono (h : Covers sel l') (hl : l ⊆ l') : Covers sel l :=
  fun s hs => h s (hl hs)

lemma Covers.left (h : Covers sel (l ++ l')) : Covers sel l :=
  h.mono (subset_append_left _ _)

lemma Covers.right (h : Covers sel (l ++ l')) : Covers sel l' :=
  h.mono (subset_append_right _ _)

/-- The body of a function is typed with what has been found out. -/
def BodySound (c : Context) (p : Progress) (params : List Param) (g : Signature)
    (body : Block Note) : Prop :=
  ∀ sel, Covers sel (selectorsBlock c.defs body) →
    BodyTyped ⟨c.defs, sel⟩ (c.sig p) params g body

/-- The functions that have been checked are typed, whatever else is found out. -/
def Sound (c : Context) (p : Progress) : Prop :=
  ∀ ⦃name : Bytes⦄ ⦃b : CheckedBody⦄, p.lookup name = some (.checked b) →
    ∃ f, c.func? name = some f ∧ (∀ r, f.result? = some r → b.result = r) ∧
      ∀ q : Progress, p.Le q → BodySound c q f.decl.params ⟨f.params, b.result⟩ b.body

/-- The state of a check after some more of it. -/
structure Walk.Grows (w w' : Walk) : Prop where
  progress : w.progress.Grows w'.progress
  returns : w.returns ⊆ w'.returns

/-- A state that knows at least as much, in which other functions may be open. -/
structure Walk.Within (w v : Walk) : Prop where
  progress : w.progress.Le v.progress
  returns : w.returns ⊆ v.returns

lemma Walk.Grows.within (h : w.Grows w') (hv : w'.Within v) : w.Within v :=
  ⟨fun _ _ hb => hv.progress (h.progress.keeps hb), Subset.trans h.returns hv.returns⟩

/-- All results of a check are as `R` states.  A check keeps the functions typed, and then what `Q`
states of its result holds in all later states. -/
def Checks {β : Type} (c : Context) (m : M β) (R : β → Prop) (Q : β → Walk → Prop) : Prop :=
  ∀ ⦃w : Walk⦄ ⦃a : β⦄ ⦃w' : Walk⦄, m.run w = .ok (a, w') → R a ∧ (Sound c w.progress →
    Sound c w'.progress ∧ w.Grows w' ∧ ∀ v, w'.Within v → Q a v)

/-- All results of a check that keeps the functions typed are as stated. -/
abbrev Finds {β : Type} (c : Context) (m : M β) (R : β → Prop) : Prop :=
  Checks c m R fun _ _ => True

namespace Checks

variable {γ : Type} {c : Context} {m : M β} {f : β → M γ} {P S : β → Prop} {R : γ → Prop}
  {P' : β → Walk → Prop} {Q : γ → Walk → Prop} {span : Span} {e : TypeError}

lemma pure {a : β} (h : P a) (h' : ∀ v, P' a v) : Checks c (pure a) P P' := by
  intro w b w' hrun
  cases hrun
  exact ⟨h, fun hw => ⟨hw, ⟨.refl _, Subset.refl _⟩, fun v _ => h' v⟩⟩

/-- What holds of the first result in all later states holds in those after the second step. -/
theorem bind (hm : Checks c m P P') (hf : ∀ a, P a → Checks c (f a) R fun b v => P' a v → Q b v) :
    Checks c (m >>= f) R Q := by
  intro w b w'' hrun
  obtain ⟨a, w', ham, hfb⟩ := run_bind_ok hrun
  obtain ⟨ha, hm'⟩ := hm ham
  obtain ⟨hb, hf'⟩ := hf a ha hfb
  refine ⟨hb, fun hw => ?_⟩
  obtain ⟨hw', hgrows, ha'⟩ := hm' hw
  obtain ⟨hw'', hgrows', hb'⟩ := hf' hw'
  refine ⟨hw'', ⟨hgrows.progress.trans hgrows'.progress,
    Subset.trans hgrows.returns hgrows'.returns⟩, fun v hv => ?_⟩
  exact hb' v hv (ha' v (hgrows'.within hv))

lemma error : Checks c (error span e) P P' := by
  intro w b w' hrun
  cases hrun

lemma error_bind : Checks c (Typing.error span e >>= f) R Q := by
  intro w b w' hrun
  cases hrun

lemma lift {m : Check β} (hf : ∀ a, m = .ok a → Checks c (f a) R Q) :
    Checks c (liftM m >>= f) R Q := by
  intro w b w' hrun
  cases hm : m with
  | error e =>
    rw [hm] at hrun
    cases hrun
  | ok a =>
    rw [hm] at hrun
    exact hf a hm hrun

lemma imp {S' : β → Walk → Prop} (hm : Checks c m P P') (h : ∀ a, P a → S a)
    (h' : ∀ a v, P a → P' a v → S' a v) : Checks c m S S' := by
  intro w a w' hrun
  obtain ⟨ha, hm'⟩ := hm hrun
  refine ⟨h a ha, fun hw => ?_⟩
  obtain ⟨hw', hgrows, ha'⟩ := hm' hw
  exact ⟨hw', hgrows, fun v hv => h' a v ha (ha' v hv)⟩

lemma mono (hm : Checks c m P P') (h : ∀ a, P a → S a) : Checks c m S P' :=
  hm.imp h fun _ _ _ ha => ha

lemma find (hm : Finds c m P) (hf : ∀ a, P a → Checks c (f a) R Q) : Checks c (m >>= f) R Q :=
  hm.bind fun a ha => (hf a ha).imp (fun _ hb => hb) fun _ _ _ hb _ => hb

lemma ran (hm : Checks c m P P') : Checks c m (fun a => P a ∧ ∃ w w', m.run w = .ok (a, w')) P' :=
  fun w _ w' hrun => ⟨⟨(hm hrun).1, w, w', hrun⟩, (hm hrun).2⟩

lemma addReturn :
    Checks c (modify fun w => { w with returns := (s, t) :: w.returns }) (fun _ => True)
      fun _ v => t ∈ v.returns.map Prod.snd := by
  intro w u w' hrun
  cases hrun
  refine ⟨trivial, fun hw => ⟨hw, ⟨.refl _, subset_cons_self _ _⟩, fun v hv => ?_⟩⟩
  exact mem_map.mpr ⟨(s, t), hv.returns (mem_cons_self ..), rfl⟩

end Checks

/-! ### What is stated of checked trees -/

/-- What the check of bodies relies on. -/
structure Context.Valid (c : Context) : Prop where
  defs : ∀ d ∈ c.defs, d.Valid
  funcs : ∀ f ∈ c.funcs, f.Valid c.names

/-- What the current function may return in a state. -/
def Site.returns (site : Site) (v : Walk) : Returns :=
  match site.result? with
  | some r => .of r
  | none => .among v.returns

namespace Checker

variable (C : Checker)

/-- The types in sight. -/
abbrev defs : List TypeDef := C.context.defs

/-- The signatures that have been found out. -/
abbrev sig (v : Walk) : Bytes → Signature → Prop := C.context.sig v.progress

/-- What a function may return. -/
abbrev returns (v : Walk) : Returns := C.site.returns v

/-- The check of a block. -/
abbrev block (Γ : Env) (b : Block Unit) : M (Ty × Block Note) :=
  checkBlock C.context C.infer C.site Γ b

end Checker

section Statements

variable (C : Checker) (Γ : Env)

/-- An expression is typed in a state, its note has its type, and it has not been converted. -/
structure ExprSound (r : Ty × Expr Note) (v : Walk) : Prop where
  type : r.2.note.type? = some r.1
  widen : r.2.note.widen = false
  typed : ∀ sel, Covers sel (selectors C.defs r.2) →
    ExprTyped ⟨C.defs, sel⟩ (C.sig v) (C.returns v) Γ r.2 r.1

/-- An expression is a value of a type in a state. -/
def UseSound (v : Walk) (x : Expr Note) (t : Ty) : Prop :=
  ∀ sel, Covers sel (selectors C.defs x) →
    ∃ a, ExprTyped ⟨C.defs, sel⟩ (C.sig v) (C.returns v) Γ x a ∧ a.Sub t

/-- A block is typed in a state, its note has its type, and it has not been converted. -/
structure BlockSound (r : Ty × Block Note) (v : Walk) : Prop where
  type : r.2.note.type? = some r.1
  widen : r.2.note.widen = false
  typed : ∀ sel, Covers sel (selectorsBlock C.defs r.2) →
    BlockTyped ⟨C.defs, sel⟩ (C.sig v) (C.returns v) Γ r.2 r.1

/-- Values of a type can be assigned to a target in a state. -/
def TargetSound (r : Ty × Expr Note) (v : Walk) : Prop :=
  ∀ (s : Span) (n : Note) (y : Expr Note) (a : Ty) (sel : Span → Bytes → Prop),
    Covers sel (selectorsTarget C.defs s r.2) →
    ExprTyped ⟨C.defs, sel⟩ (C.sig v) (C.returns v) Γ y a → a.Sub r.1 →
    ExprTyped ⟨C.defs, sel⟩ (C.sig v) (C.returns v) Γ (.assign s n r.2 y) .unit

/-- The statement is typed by the rules. -/
def StmtSound (r : Env × Bool × Stmt Note) (v : Walk) : Prop :=
  ∀ sel, Covers sel (selectorsStmt C.defs r.2.2) →
    StmtTyped ⟨C.defs, sel⟩ (C.sig v) (C.returns v) Γ r.2.2 r.1 r.2.1

/-- The statements are typed by the rules. -/
def StmtsSound (r : Env × Bool × List (Stmt Note)) (v : Walk) : Prop :=
  ∀ sel, Covers sel (selectorsStmts C.defs r.2.2) →
    StmtsTyped ⟨C.defs, sel⟩ (C.sig v) (C.returns v) Γ false r.2.2 r.1 r.2.1

/-- The check of an expression gives a typed one, with the items that it has been checked by. -/
def ExprChecks (x : Expr Unit) : Prop :=
  Checks C.context (C.expr Γ x) (Noted C Γ x) (ExprSound C Γ)

/-- The check of a block gives a typed one. -/
def BlockChecks (b : Block Unit) : Prop :=
  Checks C.context (C.block Γ b)
    (fun r => Noted C Γ (.block b) (r.1, .block r.2))
    (BlockSound C Γ)

end Statements

variable {C : Checker} {c : Context} {infer : Infer} {Γ Γ' : Env} {u : Ty} {x y : Expr Note}

section Bind

variable {R : β → Prop} {Q : β → Walk → Prop} {x : Expr Unit} {b : Block Unit}

lemma ExprChecks.bind (hx : ExprChecks C Γ x) {f : Ty × Expr Note → M β}
    (hf : ∀ t x', Passed C Γ x t x' →
      Checks C.context (f (t, x')) R fun b v => ExprSound C Γ (t, x') v → Q b v) :
    Checks C.context (C.expr Γ x >>= f) R Q := by
  refine Checks.bind (Checks.ran hx) ?_
  rintro ⟨t, x'⟩ ⟨hx', w, w', hrun⟩
  exact hf t x' ⟨hx'.type, hx'.source, w, t, x', w', by rw [hx'.source]; exact hrun, rfl⟩

lemma run_checkBlock {r : Ty × Block Note} (h : (C.block Γ b).run w = .ok (r, w')) :
    (C.expr Γ (.block b)).run w = .ok ((r.1, .block r.2), w') := by
  rw [Checker.expr, checkExpr, StateT.run_bind, h]
  rfl

lemma BlockChecks.bind (hb : BlockChecks C Γ b) {f : Ty × Block Note → M β}
    (hf : ∀ t b', b'.source = b → Checked C Γ (.block b') →
      Checks C.context (f (t, b')) R fun a v => BlockSound C Γ (t, b') v → Q a v) :
    Checks C.context (C.block Γ b >>= f) R Q := by
  refine Checks.bind (Checks.ran hb) ?_
  rintro ⟨t, b'⟩ ⟨hb', w, w', hrun⟩
  refine hf t b' (Expr.block.inj hb'.source) ⟨w, t, .block b', w', ?_, rfl⟩
  rw [hb'.source]
  exact run_checkBlock hrun

end Bind

/-! ### Use of values -/

lemma ExprSound.useAs (h : ExprSound C Γ (t, x) v) (ht : t.assignable u ≠ .no) :
    UseSound C Γ v (useAs u x) u := by
  intro sel hsel
  rw [Typing.useAs, selectors_modifyNote] at hsel
  obtain ⟨a, hx, hsub, -⟩ := (h.typed sel hsel).useAs h.type ht
  exact ⟨a, hx, hsub⟩

lemma coerce_checks (C : Checker) (Γ : Env) {context : Bytes} :
    Checks c (coerce context u t x) (· = useAs u x) fun y v =>
      ExprSound C Γ (t, x) v → UseSound C Γ v y u := by
  unfold coerce
  split
  · exact .error
  · exact .pure rfl fun v hx => hx.useAs ‹_›

/-! ### Names -/

variable {name : Bytes} {f : FuncInfo}

/-- A way to find out the result types of functions that keeps what holds of the functions so far,
and that ends with the function checked. -/
def InferKeeps (P : Progress → Prop) (c : Context) (infer : Infer) : Prop :=
  ∀ ⦃f : FuncInfo⦄ ⦃p : Progress⦄, c.func? f.name = some f → p.lookup f.name = none → P p →
    ∀ ⦃r : Ty⦄ ⦃q : Progress⦄, infer f p = .ok (r, q) →
      P q ∧ p.Grows q ∧ ∃ b, q.lookup f.name = some (.checked b) ∧ b.result = r

/-- A way to find out the result types of functions that keeps all functions typed. -/
abbrev InferSound (c : Context) (infer : Infer) : Prop :=
  InferKeeps (Sound c) c infer

lemma Context.func?_name (h : c.func? name = some f) : f.name = name := by
  simpa using find?_some h

lemma funcType_checks (hinfer : InferSound c infer) {ref : Span} (hf : c.func? f.name = some f) :
    Checks c (funcType infer ref f) (fun _ => True) fun t v =>
      ∃ r, t = .func f.params r ∧ c.sig v.progress f.name ⟨f.params, r⟩ := by
  intro w t w' hrun
  refine ⟨trivial, fun hw => ?_⟩
  simp only [funcType] at hrun
  cases hres : f.result? with
  | some r =>
    rw [hres] at hrun
    cases hrun
    exact ⟨hw, ⟨.refl _, Subset.refl _⟩, fun v _ => ⟨r, rfl, f, hf, rfl, .inl hres⟩⟩
  | none =>
    simp only [hres] at hrun
    rw [run_get_bind] at hrun
    split at hrun
    · rename_i b hb
      cases hrun
      exact ⟨hw, ⟨.refl _, Subset.refl _⟩,
        fun v hv => ⟨b.result, rfl, f, hf, rfl, .inr ⟨hres, b, hv.progress hb, rfl⟩⟩⟩
    · cases hrun
    · rename_i hnone
      cases hi : infer f w.progress with
      | error e =>
        rw [hi] at hrun
        cases hrun
      | ok r =>
        rw [hi] at hrun
        cases hrun
        obtain ⟨hsound, hgrows, b, hb, hresult⟩ := hinfer hf hnone hw hi
        exact ⟨hsound, ⟨hgrows, Subset.refl _⟩,
          fun v hv => ⟨r.1, rfl, f, hf, rfl, .inr ⟨hres, b, hv.progress hb, hresult⟩⟩⟩

lemma nameType_checks (hinfer : InferSound C.context C.infer) :
    Checks C.context (nameType C.context C.infer C.site Γ s name) (fun _ => True) fun t v =>
      ExprSound C Γ (t, .var s (.ofType t) name) v := by
  unfold nameType Context.binding?
  cases hx : lookup name Γ with
  | some t => exact .pure trivial fun v => ⟨rfl, rfl, fun _ _ => .var hx (.same rfl)⟩
  | none =>
    cases hf : C.context.func? name with
    | none => exact .error
    | some f =>
      obtain rfl := Context.func?_name hf
      refine (funcType_checks hinfer hf).imp (fun _ h => h) ?_
      rintro _ v - ⟨r, rfl, hsig⟩
      exact ⟨rfl, rfl, fun _ _ => .func hx hsig (.same rfl)⟩

/-! ### Fields and variants -/

variable {r : Ty × Expr Note} {field : Name}

lemma Context.def?_spec {d : TypeDef} (h : c.def? name = some d) :
    TypeDef.find? c.defs name = some ⟨name, d.body⟩ := by
  obtain ⟨-, rfl⟩ := TypeDef.find?_spec h
  exact h

lemma variant?_finds (hc : c.Valid) {x : Expr Unit} :
    Finds c (variant? c Γ x) fun r => ∀ v named, r = some (v, named) →
      (∀ sel, Static.HasVariant ⟨c.defs, sel⟩ v) ∧ named.source = x ∧
        ∃ s x field, named = .field s .blank x field := by
  unfold variant?
  split
  · split
    · exact .pure nofun fun _ => trivial
    · split
      · exact .pure nofun fun _ => trivial
      · rename_i d hd
        split
        · rename_i variants hbody
          split
          · rename_i v hv
            refine .pure ?_ fun _ => trivial
            rintro _ _ ⟨⟩
            obtain ⟨hmem, hname⟩ := TypeDef.find?_spec hd
            have hv' := mem_of_find?_eq_some hv
            have hvalid := hc.defs d hmem
            simp only [TypeDef.Valid, hbody] at hvalid
            refine ⟨fun sel => ⟨variants, ?_, hv'⟩, rfl, _, _, _, rfl⟩
            rw [hvalid v hv', hname, ← hbody]
            exact Context.def?_spec hd
          · exact .error
        · exact .error
  · exact .pure nofun fun _ => trivial

lemma payloadType_finds {enum : Bytes} {position : Int} {found : Option Ty}
    {variants : List Variant} : Finds c (payloadType enum field position found variants) fun t =>
      (∀ u, found = some u → u = t) ∧
        ∀ v ∈ variants, ∀ u, v.payload[position.toNat]? = some u → u = t := by
  induction variants generalizing found with
  | nil =>
    cases found with
    | none => exact .error
    | some u => exact .pure ⟨by rintro _ ⟨⟩; rfl, nofun⟩ fun _ => trivial
  | cons v variants ih =>
    unfold payloadType
    split
    · rename_i hnone
      refine ih.mono fun t ht => ⟨ht.1, ?_⟩
      rintro w (_ | ⟨_, hw⟩) u hu
      · rw [hnone] at hu
        cases hu
      · exact ht.2 w hw u hu
    · rename_i t' ht'
      refine ih.mono fun t ht => ⟨nofun, ?_⟩
      rintro w (_ | ⟨_, hw⟩) u hu
      · rw [ht'] at hu
        exact ht.1 u hu
      · exact ht.2 w hw u hu
    · rename_i t' t'' ht'
      split
      · rename_i heq
        refine ih.mono fun t ht => ⟨ht.1, ?_⟩
        rintro w (_ | ⟨_, hw⟩) u hu
        · rw [ht', ← heq] at hu
          exact ht.1 u hu
        · exact ht.2 w hw u hu
      · exact .error

lemma fieldType_finds {xt : Ty} (htype : x.note.type? = some xt) :
    Finds c (fieldType c s x xt field) fun t => ∀ span sel,
      Covers sel (payloadSelector c.defs span x field) →
        Static.Selects ⟨c.defs, sel⟩ span xt field.text t := by
  unfold fieldType
  split
  · rename_i n
    split
    · rename_i variants hvariants
      obtain ⟨d, hd, hbody⟩ := Option.map_eq_some_iff.mp hvariants
      have hdef := Context.def?_spec hd
      rw [hbody] at hdef
      split
      · exact .error
      · rename_i position hposition
        refine payloadType_finds.mono fun t ht span sel hsel => .payload hdef ?_ ?_
        · intro v hv u hu
          obtain ⟨i, hi, hu⟩ := Variant.lookup_fields hu
          rw [hi] at hposition
          obtain rfl := Decimal.eq_of_readInt?_ofNat hposition
          exact ht.2 v hv u hu
        · refine hsel (span, field.text) ?_
          simp [payloadSelector, htype, hdef, hposition]
    · rename_i fields hfields
      obtain ⟨d, hd, hbody⟩ := Option.map_eq_some_iff.mp hfields
      have hdef := Context.def?_spec hd
      rw [hbody] at hdef
      split
      · rename_i ft hft
        exact .pure (fun _ _ _ => .field hdef hft) fun _ => trivial
      · exact .error
    · exact .error
  · exact .error

lemma structOf_finds (hc : c.Valid) {name : Name} :
    Finds c (structOf c name) fun r =>
      TypeDef.find? c.defs r.1 = some ⟨r.1, .struct r.2⟩ ∧ (r.2.map Prod.fst).Nodup := by
  unfold structOf
  split
  · exact .error
  · rename_i d hd
    simp only
    split
    · rename_i n fields htarget
      refine .pure ?_ fun _ => trivial
      have hfind : TypeDef.find? c.defs n = some ⟨n, .struct fields⟩ := by
        split at htarget
        · obtain rfl : n = _ := (TypeDef.find?_spec htarget).2
          exact htarget
        · cases htarget
          obtain rfl : n = _ := (TypeDef.find?_spec hd).2
          exact hd
      exact ⟨hfind, hc.defs _ (TypeDef.find?_spec hfind).1⟩
    · exact .error

/-- The selection of a field, or a variant without a payload. -/
inductive SelectSound (C : Checker) (Γ : Env) : Ty × Expr Note → Walk → Prop
  | variant {s n x name t w v} : n.role = .variant w → ExprSound C Γ (t, .field s n x name) v →
      SelectSound C Γ (t, .field s n x name) v
  | field {s x name t xt v} : ExprSound C Γ (xt, x) v →
      (∀ span sel, Covers sel (payloadSelector C.defs span x name) →
        Static.Selects ⟨C.defs, sel⟩ span xt name.text t) →
      SelectSound C Γ (t, .field s (.ofType t) x name) v

lemma selectField_checks (hc : C.context.Valid) {x : Expr Unit} {name : Name}
    (hx : ExprChecks C Γ x) :
    Checks C.context (selectField C.context Γ s x name (C.expr Γ x)) (fun r => ∃ m x',
      r.2 = .field s m x' name ∧ m.type? = some r.1 ∧ x'.source = x ∧
        ((∀ v, m.role ≠ .variant v) → Checked C Γ x')) (SelectSound C Γ) := by
  refine (variant?_finds hc).find fun r hr => ?_
  cases r with
  | some r =>
    obtain ⟨w, named⟩ := r
    simp only
    split
    · rename_i hpayload
      obtain ⟨hvariant, hsource, s', x', field, rfl⟩ := hr w named rfl
      obtain ⟨rfl, -, hx', rfl⟩ := Expr.field.inj hsource
      refine .pure ⟨_, _, rfl, rfl, hx', fun hrole => absurd rfl (hrole w)⟩ fun v => ?_
      refine .variant rfl ⟨rfl, rfl, fun sel _ => ?_⟩
      exact .variant rfl (hvariant sel) (isEmpty_iff.mp hpayload) (.same rfl)
    · exact .error
  | none =>
    exact hx.bind fun xt x' hx' => (fieldType_finds hx'.type).find fun t ht =>
      .pure ⟨_, x', rfl, rfl, hx'.source, fun _ => hx'.checked⟩ fun v hx => .field hx ht

lemma SelectSound.expr (h : SelectSound C Γ r v) : ExprSound C Γ r v := by
  cases h with
  | variant _ hw => exact hw
  | field hx hfield =>
    refine ⟨rfl, rfl, fun sel hsel => ?_⟩
    exact .field rfl (hx.typed sel hsel.right) (hfield _ sel hsel.left) (.same rfl)

lemma SelectSound.target (h : SelectSound C Γ r v)
    (hrole : ∀ w, r.2.note.role ≠ .variant w) : TargetSound C Γ r v := by
  cases h with
  | variant hw _ => exact (hrole _ hw).elim
  | field hx hfield =>
    intro s n y a sel hsel hy hsub
    exact .assignField (hx.typed sel hsel.right) (hfield s sel hsel.left) hy hsub

/-- An element of an array. -/
inductive IndexSound (C : Checker) (Γ : Env) : Ty × Expr Note → Walk → Prop
  | mk {s : Span} {x i : Expr Note} {t : Ty} {v : Walk} : ExprSound C Γ (.array t, x) v →
      ExprSound C Γ (.int, i) v → IndexSound C Γ (t, .index s (.ofType t) x i) v

lemma indexArray_checks {x i : Expr Unit} (hx : ExprChecks C Γ x) (hi : ExprChecks C Γ i) :
    Checks C.context (indexArray s (C.expr Γ x) (C.expr Γ i)) (fun r =>
      ∃ m x' i', r.2 = .index s m x' i' ∧ m.type? = some r.1 ∧ x'.source = x ∧ i'.source = i ∧
        Checked C Γ x' ∧ Checked C Γ i') (IndexSound C Γ) := by
  refine hx.bind fun xt x' hx' => ?_
  simp only
  split
  · refine hi.bind fun it i' hi' => ?_
    split
    · rename_i elem hint
      subst hint
      exact .pure ⟨_, x', i', rfl, rfl, hx'.source, hi'.source, hx'.checked, hi'.checked⟩
        fun v hi hx => .mk hx hi
    · exact .error
  · exact .error

lemma IndexSound.expr (h : IndexSound C Γ r v) : ExprSound C Γ r v := by
  obtain ⟨hx, hi⟩ := h
  refine ⟨rfl, rfl, fun sel hsel => ?_⟩
  exact .index (hx.typed sel hsel.left) (hi.typed sel hsel.right) (.same rfl)

lemma IndexSound.target (h : IndexSound C Γ r v) : TargetSound C Γ r v := by
  obtain ⟨hx, hi⟩ := h
  intro s n y a sel hsel hy hsub
  exact .assignIndex (hx.typed sel hsel.left) (hi.typed sel hsel.right) hy hsub

/-! ### Function results -/

variable {p : Ty × Block Note} {j : Ty} {b : Block Note}

lemma conclude_some {r : Ty} (hr : r ≠ .unit) (h : (conclude (some r) t b).run w = .ok (p, w')) :
    w' = w ∧ t.assignable r ≠ .no ∧ p = (r, b.modifyNote (useNote r)) := by
  have hconclude : conclude (some r) t b = (do
      let b ← (if t.assignable r = .no then
          error b.span (.cannotUse b.text t r "function result")
        else pure (b.modifyNote (useNote r)) : M (Block Note))
      return (r, b)) := by
    cases r with
    | unit => exact (hr rfl).elim
    | _ => rfl
  rw [hconclude] at h
  split at h
  · cases h
  · cases h
    exact ⟨rfl, ‹_›, rfl⟩

lemma withOwnReturns_checks {m : M β} {R : β → Prop} {P : β → Progress → Prop}
    (hm : Checks c m R fun a v => P a v.progress) :
    Checks c (withOwnReturns m) R fun a v => P a v.progress := by
  intro w a w' hrun
  have hrun' : (m >>= fun r => do
      modify fun v => { v with returns := w.returns }
      return r : M β).run { w with returns := [] } = .ok (a, w') := hrun
  obtain ⟨a', w1, hm', hrest⟩ := run_bind_ok hrun'
  cases hrest
  obtain ⟨ha, hkeeps⟩ := hm hm'
  refine ⟨ha, fun hw => ?_⟩
  obtain ⟨hsound, hgrows, ha'⟩ := hkeeps hw
  refine ⟨hsound, ⟨hgrows.progress, Subset.refl _⟩, fun v hv => ?_⟩
  exact ha' ⟨v.progress, w1.returns⟩ ⟨hv.progress, Subset.refl _⟩

/-- The body of a function comes from the check of a block. -/
def BodyChecked (C : Checker) (Γ : Env) (b : Block Unit) (body : Block Note) : Prop :=
  ∃ w t b' w', (C.block Γ b).run w = .ok ((t, b'), w') ∧ b'.bare = body.bare

/-- **The check of the body of a function.** -/
theorem body_checks {result? : Option Ty} {outer : Env} {params : List Param} {ps : List Ty}
    {body : Block Unit} (hbody : BlockChecks ⟨c, infer, result?, outer⟩ (paramEnv params ps) body)
    (hsig : ps.length = params.length ∧ .never ∉ ps ∧ result? ≠ some .unit) :
    Checks c (do
      let (t, body) ← checkBlock c infer ⟨result?, outer⟩ (paramEnv params ps) body
      conclude result? t body)
      (fun r => BodyChecked ⟨c, infer, result?, outer⟩ (paramEnv params ps) body r.2) fun r v =>
        (∀ r', result? = some r' → r.1 = r') ∧ BodySound c v.progress params ⟨ps, r.1⟩ r.2 := by
  obtain ⟨hlen, hnever, hunit⟩ := hsig
  intro w r w' hrun
  obtain ⟨⟨t, b⟩, w1, hp, hconclude⟩ := run_bind_ok hrun
  -- The values on the list are those that this body returns.
  have hblock : Sound c w.progress → Sound c w1.progress ∧ w.Grows w1 ∧ ∀ {v}, w1.Within v → _ :=
    fun hw => ((hbody hp).2 hw).imp_right fun h => h.imp_right fun hb {v} hv =>
      hb ⟨v.progress, w1.returns⟩ ⟨hv.progress, Subset.refl _⟩
  cases result? with
  | some r' =>
    obtain ⟨rfl, ht, rfl⟩ := conclude_some (fun h => hunit (congrArg some h)) hconclude
    refine ⟨⟨w, t, b, w', hp, (bare_modifyNoteBlock r' b).symm⟩, fun hw => ?_⟩
    obtain ⟨hsound, hgrows, hb⟩ := hblock hw
    refine ⟨hsound, hgrows, fun v hv => ⟨by rintro _ ⟨⟩; rfl, fun sel hsel => ⟨hlen, hnever, ?_⟩⟩⟩
    rw [selectorsBlock_modifyNote] at hsel
    obtain ⟨a, ha, hsub, -⟩ := ((hb hv).typed sel hsel).useAs (hb hv).type ht
    exact ⟨a, ha, hsub⟩
  | none =>
    obtain ⟨rfl, ht, hreturns, hr⟩ := conclude_none hconclude
    refine ⟨⟨w, t, b, w', hp, ?_⟩, fun hw => ?_⟩
    · rw [hr, bare_useReturnsBlock, bare_modifyNoteBlock]
    obtain ⟨hsound, hgrows, hb⟩ := hblock hw
    refine ⟨hsound, hgrows, fun v hv => ⟨nofun, fun sel hsel => ⟨hlen, hnever, ?_⟩⟩⟩
    rw [hr, selectorsBlock_useReturns, selectorsBlock_modifyNote] at hsel
    obtain ⟨a, ha, hsub, -⟩ := ((hb hv).typed sel hsel).useAs (hb hv).type ht
    exact ⟨a, hr ▸ ha.useReturns hreturns, hsub⟩

end Minilang.Typing
