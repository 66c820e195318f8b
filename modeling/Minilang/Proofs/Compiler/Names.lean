import Minilang.Proofs.Tac.Registers
import Minilang.Proofs.Typing.Resolution

/-!
# Names mean the same in both passes

The check and the lowering go through a program on their own, and each keeps its own environment:
the types of the variables in sight, and their registers.  Both environments come from the same
declarations, those that the tree tells (`Stands`), at every expression of every function.  So a
name that the check takes for a variable becomes the register of the declaration that gave it the
type, and different declarations of a function have different registers, whatever their names
(`names_resolved_alike`).
-/

namespace Minilang

open Tac.Lowering (lowerExpr lowerFuncs Uses)

open Typing (Checked GivesType Passes checkFunc packageOf)

/-- What a name stands for, in the check and after the lowering: a declaration in sight, or else a
declared function.  `n` is the note of the name. -/
inductive StandsFor (c : Typing.Context) (S : Sight) (type : Declaration → Ty)
    (reg : Declaration → Nat) (n : Note) (x : Bytes) : Tac.Operand → Prop where
  | variable {d : Declaration} (hx : S.lookup x = some d)
    (hc : c.binding? (S.env type) x = some (.var (type d))) (hn : n.type? = some (type d)) :
    StandsFor c S type reg n x (.reg (reg d))
  | function {f : Typing.FuncInfo} {r : Ty} (hx : S.lookup x = none)
    (hc : c.binding? (S.env type) x = some (.func f)) (hname : f.decl.name.text = x)
    (hn : n.type? = some (.func f.params r)) : StandsFor c S type reg n x (.lit (.func x))

/-- An expression with the declarations `S` in sight is checked with the types of these declarations
and lowered with their registers. -/
structure SeenAlike (c : Typing.Context) (infer : Typing.Infer) (site : Typing.Site)
    (low : Tac.Lowering.Context Note) (g : Tac.Func) (type : Declaration → Ty)
    (reg : Declaration → Nat) (S : Sight) (z : Expr Note) : Prop where
  checked : Checked ⟨c, infer, site⟩ (S.env type) z
  lowered : ∃ func st l st', (lowerExpr low func (S.env reg) z).run st = .ok (l, st') ∧
    l.code <:+: g.body ∧ ∀ s n x, z = .var s n x → ∃ v, StandsFor c S type reg n x v ∧ Uses s v l
  assigned : ∀ s n ts tn x v, z = .assign s n (.var ts tn x) v → ∃ d, S.lookup x = some d ∧
    tn.type? = some (type d) ∧ ∃ w, ⟨s, .assign (reg d) w⟩ ∈ g.body

/-- The declarations of a function have types and registers: the types are those that they give, and
each register belongs to one declaration.  Every expression of the function is checked and lowered
with the declarations in sight of it. -/
structure FunctionAlike (c : Typing.Context) (infer : Typing.Infer) (site : Typing.Site)
    (low : Tac.Lowering.Context Note) (name? : Option Bytes) (params : List Param)
    (body : Block Note)
    (g : Tac.Func) (type : Declaration → Ty) (reg : Declaration → Nat) : Prop where
  name : ∀ x, name? = some x → g.name = x
  names : g.params = params.map fun p => p.name.text
  gives : ∀ {d span x binder}, Declares (functionItems params body) d span x binder →
    GivesType c binder (type d)
  param : ∀ j < params.length, reg ⟨[], j⟩ = j
  written : ∀ {d span x binder}, Declares (functionItems params body) d span x binder →
    d.inside ≠ [] → ∃ i, ⟨span, i⟩ ∈ g.body ∧ i.dst? = some (reg d)
  distinct : Set.InjOn reg {d | Declared (functionItems params body) d}
  declared : ∀ {S z x d}, Stands (functionItems params body) S z → S.lookup x = some d →
    ∃ span binder, Declares (functionItems params body) d span x binder
  seen : ∀ {S z}, Stands (functionItems params body) S z →
    SeenAlike c infer site low g type reg S z

/-! ### Names -/

variable {c : Typing.Context} {low : Tac.Lowering.Context Note}

section Names

variable {infer : Typing.Infer} {site : Typing.Site} {func x : Bytes} {type : Declaration → Ty}
  {reg : Declaration → Nat} {S : Sight} {st st' : Tac.Lowering.State} {l : Tac.Lowered} {s : Span}
  {n : Note}

lemma standsFor_var (hc : Checked ⟨c, infer, site⟩ (S.env type) (.var s n x))
    (hl : (lowerExpr low func (S.env reg) (.var s n x)).run st = .ok (l, st')) :
    ∃ v, StandsFor c S type reg n x v ∧ Uses s v l := by
  have hchecked := hc.var
  have hlowered := Tac.Lowering.lowerExpr_var.ok hl
  rw [Sight.lookup_env] at hchecked hlowered
  cases hx : S.lookup x with
  | some d =>
    rw [hx] at hchecked hlowered
    refine ⟨.reg (reg d), .variable hx ?_ hchecked, hlowered⟩
    rw [Typing.Context.binding?, Sight.lookup_env, hx]
    rfl
  | none =>
    rw [hx] at hchecked hlowered
    obtain ⟨f, r, hf, hn⟩ := hchecked
    refine ⟨.lit (.func x), .function hx ?_ (Typing.Context.func?_name hf) hn, hlowered.2⟩
    rw [Typing.Context.binding?, Sight.lookup_env, hx]
    exact congrArg (Option.map Typing.Binding.func) hf

lemma assigned_var {ts : Span} {tn : Note} {v : Expr Note}
    (hc : Checked ⟨c, infer, site⟩ (S.env type) (.assign s n (.var ts tn x) v))
    (hl : (lowerExpr low func (S.env reg) (.assign s n (.var ts tn x) v)).run st = .ok (l, st')) :
    ∃ d, S.lookup x = some d ∧ tn.type? = some (type d) ∧ ∃ w, ⟨s, .assign (reg d) w⟩ ∈ l.code := by
  obtain ⟨t, ht, htn⟩ := hc.assignVar
  obtain ⟨r, hr, hcode⟩ := Tac.Lowering.lowerExpr_assignVar.ok hl
  rw [Sight.lookup_env, Option.map_eq_some_iff] at ht hr
  obtain ⟨d, hd, rfl⟩ := ht
  obtain ⟨d', hd', rfl⟩ := hr
  cases hd.symm.trans hd'
  exact ⟨d, hd, htn, hcode⟩

end Names

/-! ### Functions -/

variable {tree : Program Unit}

lemma FunctionOf.alike {q : Typing.Progress} (hpass : Passes tree c q) (hlow : low.note = id)
    {fs : List Tac.Func} (hfs : lowerFuncs low [] (packageOf tree c q).program.funcs = .ok fs)
    {name? : Option Bytes} {params : List Param} {body : Block Note}
    (hf : FunctionOf (packageOf tree c q).program name? params body) :
    ∃ depth site type, ∃ g ∈ fs, ∃ reg,
      FunctionAlike c (checkFunc c depth) site low name? params body g type reg := by
  obtain ⟨depth, site, ps, hparams, hbody⟩ := Typing.FunctionOf.checked hpass hf
  obtain ⟨type, htype⟩ := hbody.functionTypes (hpass.reliable depth site) hparams
  obtain ⟨name, l, st, hname, hrun, hsub⟩ := Tac.Lowering.FunctionOf.lowered hlow hfs hf
  obtain ⟨reg, hreg⟩ := Tac.Lowering.lowerBlock_registers hlow hrun
  have hcode : l.code <:+: l.code ++ [⟨body.span, Tac.Instr.ret l.value?⟩] :=
    (List.prefix_append _ _).isInfix
  refine ⟨depth, site, type, _, hsub List.mem_cons_self, reg, hname, rfl, htype.gives, hreg.param,
    ?_, hreg.distinct, ?_, ?_⟩
  · intro d span x binder hd hne
    obtain ⟨i, hi, hdst⟩ := hreg.written hd hne
    exact ⟨i, hcode.subset hi, hdst⟩
  · intro S z x d hz hx
    exact hz.declares (fun _ _ => named_functionItems) (mem_of_lookup hx)
  · intro S z hz
    have hchecked := htype.checked hz
    rw [List.append_nil] at hchecked
    obtain ⟨st1, l1, st2, -, -, hrun1, -, hl1⟩ := hreg.within hz
    refine ⟨hchecked, ⟨name, st1, l1, st2, hrun1, hl1.trans hcode, ?_⟩, ?_⟩
    · rintro s n x rfl
      exact standsFor_var hchecked hrun1
    · rintro s n ts tn x v rfl
      obtain ⟨d, hd, htn, w, hw⟩ := assigned_var hchecked hrun1
      exact ⟨d, hd, htn, w, (hl1.trans hcode).subset hw⟩

end Minilang
