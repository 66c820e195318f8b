import Minilang.Proofs.Typing.Rules

/-!
# Changes of notes

Two changes are made to a tree that has been checked.  An expression that is used as a value of
another type gets a note of the conversion, and once the result type of a function is known, so do
the returned values.  Both keep the tree typed.
-/

namespace Minilang

variable {α : Type} {f g : α → α} {n : Note}

/-! ### Notes -/

lemma Block.modifyNote_congr {b : Block α} (h : f b.note = g b.note) :
    b.modifyNote f = b.modifyNote g := by
  cases b with
  | mk s n stmts value => exact congrArg (mk s · stmts value) h

lemma Block.modifyNote_id (b : Block α) : b.modifyNote id = b := by
  cases b with
  | mk => rfl

lemma Expr.modifyNote_congr {x : Expr α} (h : f x.note = g x.note) :
    x.modifyNote f = x.modifyNote g := by
  cases x with
  | block b => exact congrArg block (Block.modifyNote_congr h)
  | _ =>
    simp only [note] at h
    simp [modifyNote, h]

lemma Expr.modifyNote_id (x : Expr α) : x.modifyNote id = x := by
  cases x with
  | block b => exact congrArg block b.modifyNote_id
  | _ =>
    rfl

lemma Note.Gives.convert {u : Ty} (h : n.Gives u .int) : n.widened.Gives u .float := by
  cases h with
  | same => exact .widened rfl

namespace Typing

open Tac (Signature)

variable {c : Static} {sig : Bytes → Signature → Prop} {R : Returns} {Γ : Env} {x : Expr Note}
  {b : Block Note} {t target : Ty}

lemma useNote_of_sub (hn : n.type? = some t) (h : t.Sub target) : useNote target n = n := by
  simp only [useNote, hn]
  rw [if_neg]
  rw [h]
  decide

lemma useNote_of_widened (hn : n.type? = some t) (h : t.assignable target = .widened) :
    useNote target n = n.widened := by
  simp [useNote, hn, h]

lemma sub_of_unit_assignable (h : Ty.assignable .unit target ≠ .no) : Ty.Sub .unit target := by
  cases hassign : Ty.assignable .unit target with
  | no => exact (h hassign).elim
  | yes => exact hassign
  | widened => cases (Ty.assignable_eq_widened.mp hassign).1

/-! ### Use of values -/

lemma BlockTyped.convert (h : BlockTyped c sig R Γ b t) (ht : t = .int) :
    BlockTyped c sig R Γ (b.modifyNote Note.widened) .float := by
  cases h with
  | value hstmts hx hn =>
    subst ht
    exact .value hstmts hx hn.convert
  | unit => split at ht <;> cases ht

lemma ExprTyped.convert (h : ExprTyped c sig R Γ x .int) :
    ExprTyped c sig R Γ (x.modifyNote Note.widened) .float := by
  cases h with
  | lit hn => exact .lit hn.convert
  | var hx hn => exact .var hx hn.convert
  | func hx hg hn => exact .func hx hg hn.convert
  | binary hx hy hu hn => exact .binary hx hy hu hn.convert
  | unary hx hu hn => exact .unary hx hu hn.convert
  | len hrole hx ha hn => exact .len hrole hx ha hn.convert
  | build hrole hv hargs hn => exact .build hrole hv hargs hn.convert
  | call hrole hf hargs hn => exact .call hrole hf hargs hn.convert
  | ifElse hx hb he ha ha' hnever hn => exact .ifElse hx hb he ha ha' hnever hn.convert
  | block hb => exact .block (hb.convert rfl)
  | variant hrole hv hpayload hn => exact .variant hrole hv hpayload hn.convert
  | field hrole hx hs hn => exact .field hrole hx hs hn.convert
  | array hes hn => exact .array hes hn.convert
  | index hx hi hn => exact .index hx hi hn.convert
  | lambda hlen hnever hb hsub hn => exact .lambda hlen hnever hb hsub hn.convert
  | struct htype hdef hnodup hfs hall hn => exact .struct htype hdef hnodup hfs hall hn.convert

lemma ExprTyped.useAs (h : ExprTyped c sig R Γ x t) (ht : x.note.type? = some t)
    (htarget : t.assignable target ≠ .no) :
    ∃ a, ExprTyped c sig R Γ (useAs target x) a ∧ a.Sub target ∧ (a = .never → t = .never) := by
  cases hassign : t.assignable target with
  | no => exact (htarget hassign).elim
  | yes =>
    refine ⟨t, ?_, hassign, id⟩
    have hx : Typing.useAs target x = x :=
      (Expr.modifyNote_congr (useNote_of_sub ht hassign)).trans x.modifyNote_id
    rwa [hx]
  | widened =>
    obtain ⟨rfl, rfl⟩ := Ty.assignable_eq_widened.mp hassign
    refine ⟨.float, ?_, .refl _, nofun⟩
    have hx : useAs .float x = x.modifyNote Note.widened :=
      Expr.modifyNote_congr (useNote_of_widened ht hassign)
    rw [hx]
    exact h.convert

lemma BlockTyped.useAs (h : BlockTyped c sig R Γ b t) (ht : b.note.type? = some t)
    (htarget : t.assignable target ≠ .no) :
    ∃ a, BlockTyped c sig R Γ (b.modifyNote (useNote target)) a ∧ a.Sub target ∧
      (a = .never → t = .never) := by
  obtain ⟨a, hb, ha⟩ := (ExprTyped.block h).useAs ht htarget
  cases hb with
  | block hb => exact ⟨a, hb, ha⟩

/-! ### Returned values -/

lemma note_useReturnsBlock (r : Ty) (b : Block Note) : (useReturnsBlock r b).note = b.note := by
  cases b with
  | mk s n stmts value => cases value <;> rfl

lemma note_useReturns (r : Ty) (x : Expr Note) : (useReturns r x).note = x.note := by
  cases x with
  | block b => exact note_useReturnsBlock r b
  | cond s n test t e => cases e <;> rfl
  | _ => rfl

lemma map_key_useReturnsFields (r : Ty) (fs : List (FieldValue Note)) :
    (useReturnsFields r fs).map FieldValue.key = fs.map FieldValue.key := by
  induction fs with
  | nil => rfl
  | cons f fs ih =>
    cases f with
    | mk s name x =>
      rw [useReturnsFields, List.map_cons, ih]
      rfl

section UseReturns

/-- Values of all the types can be used as values of one. -/
def Usable (types : List (Span × Ty)) (r : Ty) : Prop :=
  ∀ u ∈ types.map Prod.snd, u.assignable r ≠ .no

variable {types : List (Span × Ty)} {r : Ty}

-- One case for each rule.  Only a return statement changes, and function literals stay as they are.
mutual

/-- **Returned values used as values of a type that all of them are assignable to are of this
type.** -/
theorem ExprTyped.useReturns (hr : Usable types r) {Γ : Env} {x : Expr Note} {t : Ty} :
    ExprTyped c sig (.among types) Γ x t → ExprTyped c sig (.of r) Γ (useReturns r x) t
  | .lit hn => .lit hn
  | .var hx hn => .var hx hn
  | .func hx hg hn => .func hx hg hn
  | .binary hx hy hu hn => .binary (hx.useReturns hr) (hy.useReturns hr) hu hn
  | .unary hx hu hn => .unary (hx.useReturns hr) hu hn
  | .print hrole hx => .print hrole (hx.useReturns hr)
  | .len hrole hx ha hn => .len hrole (hx.useReturns hr) ha hn
  | .build hrole hv hargs hn => .build hrole hv (hargs.useReturns hr) hn
  | .call hrole hf hargs hn => .call hrole (hf.useReturns hr) (hargs.useReturns hr) hn
  | .ifThen hx hb => .ifThen (hx.useReturns hr) (hb.useReturns hr)
  | .ifElse hx hb he ha ha' hnever hn =>
    .ifElse (hx.useReturns hr) (hb.useReturns hr) (he.useReturns hr) ha ha' hnever hn
  | .block hb => .block (hb.useReturns hr)
  | .assignVar hx hv hsub => .assignVar hx (hv.useReturns hr) hsub
  | .assignField hx hs hv hsub =>
    .assignField (hx.useReturns hr) hs (hv.useReturns hr) hsub
  | .assignIndex hx hi hv hsub =>
    .assignIndex (hx.useReturns hr) (hi.useReturns hr) (hv.useReturns hr) hsub
  | .variant hrole hv hpayload hn => .variant hrole hv hpayload hn
  | .field hrole hx hs hn => .field hrole (hx.useReturns hr) hs hn
  | .array hes hn => .array (hes.useReturns hr) hn
  | .index hx hi hn => .index (hx.useReturns hr) (hi.useReturns hr) hn
  | .lambda hlen hnever hb hsub hn => .lambda hlen hnever hb hsub hn
  | .struct htype hdef hnodup hfs hall hn =>
    .struct htype hdef hnodup (hfs.useReturns hr)
      (fun d hd => (map_key_useReturnsFields r _).symm ▸ hall d hd) hn

theorem EachTyped.useReturns (hr : Usable types r) {Γ : Env} {xs : List (Expr Note)}
    {ts : List Ty} :
    EachTyped c sig (.among types) Γ xs ts → EachTyped c sig (.of r) Γ (useReturnsAll r xs) ts
  | .nil => .nil
  | .cons hx hsub hxs => .cons (hx.useReturns hr) hsub (hxs.useReturns hr)

theorem FieldsTyped.useReturns (hr : Usable types r) {Γ : Env} {declared : List (Bytes × Ty)}
    {fs : List (FieldValue Note)} : FieldsTyped c sig (.among types) Γ declared fs →
      FieldsTyped c sig (.of r) Γ declared (useReturnsFields r fs)
  | .nil => .nil
  | .cons ht hx hsub hfs => .cons ht (hx.useReturns hr) hsub (hfs.useReturns hr)

theorem BlockTyped.useReturns (hr : Usable types r) {Γ : Env} {b : Block Note} {t : Ty} :
    BlockTyped c sig (.among types) Γ b t → BlockTyped c sig (.of r) Γ (useReturnsBlock r b) t
  | .value hstmts hx hn => .value (hstmts.useReturns hr) (hx.useReturns hr) hn
  | .unit hstmts => .unit (hstmts.useReturns hr)

theorem StmtTyped.useReturns (hr : Usable types r) {Γ Γ' : Env} {x : Stmt Note} {ends : Bool} :
    StmtTyped c sig (.among types) Γ x Γ' ends →
      StmtTyped c sig (.of r) Γ (useReturnsStmt r x) Γ' ends
  | .letVar hv hsub => .letVar (hv.useReturns hr) hsub
  | .retNone ⟨_, _, hmem⟩ => .retNone (sub_of_unit_assignable (hr _ hmem))
  | .ret hx ⟨htype, _, hmem⟩ => by
    obtain ⟨a, hx', hsub, -⟩ :=
      (hx.useReturns hr).useAs (by rw [note_useReturns]; exact htype) (hr _ hmem)
    exact .ret hx' hsub
  | .loop hx hb => .loop (hx.useReturns hr) (hb.useReturns hr)
  | .forRange hx hy hb =>
    .forRange (hx.useReturns hr) (hy.useReturns hr) (hb.useReturns hr)
  | .forEach hx hb => .forEach (hx.useReturns hr) (hb.useReturns hr)
  | .expr hx => .expr (hx.useReturns hr)

theorem StmtsTyped.useReturns (hr : Usable types r) {Γ Γ' : Env} {xs : List (Stmt Note)}
    {ends ends' : Bool} : StmtsTyped c sig (.among types) Γ ends xs Γ' ends' →
      StmtsTyped c sig (.of r) Γ ends (useReturnsStmts r xs) Γ' ends'
  | .nil => .nil
  | .cons hx hxs => .cons (hx.useReturns hr) (hxs.useReturns hr)

end

end UseReturns

end Typing

end Minilang
