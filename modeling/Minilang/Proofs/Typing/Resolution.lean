import Minilang.Proofs.Typing.Reordering

/-!
# The environments of a check

A check of a function goes through the same items as the tree tells, and gives every declaration its
type: every expression has been checked in the environment of the declarations in sight of it.
-/

namespace Minilang.Typing

open List

variable {C : Checker} {c : Context} {infer : Infer} {Γ : Env} {own : Nat → Ty} {ps : List Ty}
  {params : List Param} {body : Block Note} {result : Option TypeExpr}

/-! ### Names -/

variable {f : FuncInfo} {ref s : Span} {n : Note} {x : Bytes}

lemma funcType_eq {t : Ty} {w w' : Walk} (h : (funcType infer ref f).run w = .ok (t, w')) :
    ∃ r, t = .func f.params r := by
  unfold funcType at h
  split at h
  · cases h
    exact ⟨_, rfl⟩
  · rw [run_get_bind] at h
    split at h
    · cases h
      exact ⟨_, rfl⟩
    · cases h
    · obtain ⟨_, _, -, hrest⟩ := run_bind_ok h
      cases hrest
      exact ⟨_, rfl⟩

/-- The type of a name is that of the innermost variable of that name, or else of a function. -/
theorem Checked.var (h : Checked C Γ (.var s n x)) : match Γ.lookup x with
    | some t => n.type? = some t
    | none => ∃ f r, C.context.func? x = some f ∧ n.type? = some (.func f.params r) := by
  obtain ⟨w, t, x', w', hrun, hbare⟩ := h
  obtain ⟨u, w1, hname, hpure⟩ := run_bind_ok hrun
  cases hpure
  have hn : n.type? = some t := (Expr.type?_congr hbare).symm
  unfold nameType Context.binding? at hname
  cases hx : Γ.lookup x with
  | some u =>
    rw [hx] at hname
    cases hname
    exact hn
  | none =>
    rw [hx] at hname
    cases hf : C.context.func? x with
    | none =>
      rw [hf] at hname
      cases hname
    | some f =>
      rw [hf] at hname
      obtain ⟨r, rfl⟩ := funcType_eq hname
      exact ⟨f, r, rfl, hn⟩

lemma Checked.assignVar {ts : Span} {tn : Note} {v : Expr Note}
    (h : Checked C Γ (.assign s n (.var ts tn x) v)) :
    ∃ t, Γ.lookup x = some t ∧ tn.type? = some t := by
  obtain ⟨w, t, x', w', hrun, hbare⟩ := h
  obtain ⟨r, w1, htarget, hrest⟩ := run_bind_ok hrun
  obtain ⟨_, _, -, hrest⟩ := run_bind_ok hrest
  obtain ⟨_, _, -, hpure⟩ := run_bind_ok hrest
  cases hpure
  have htn : tn.type? = r.2.note.type? := (Expr.type?_congr (Expr.assign.inj hbare).2.2.1).symm
  rw [Expr.mapNotes, checkTarget] at htarget
  unfold Context.binding? at htarget
  cases hx : Γ.lookup x with
  | some u =>
    rw [hx] at htarget
    cases htarget
    exact ⟨u, rfl, htn⟩
  | none =>
    rw [hx] at htarget
    cases hf : C.context.func? x with
    | none | some f =>
      rw [hf] at htarget
      cases htarget

/-! ### The types of all declarations -/

/-- All declarations of items have their types, and every expression has been checked in the
environment of these types. -/
structure Types (C : Checker) (Γ : Env) (items : List Item) (type : Declaration → Ty) :
    Prop where
  checked : ∀ {S : Sight} {z : Expr Note}, Stands items S z →
    Checked C (S.env type ++ Γ) z
  gives : ∀ {d span name binder}, Declares items d span name binder →
    GivesType C.context binder (type d)

lemma ItemsChecked.types {items : List Item} (h : ItemsChecked C Γ own 0 items)
    (hparts : ∀ bound y, .part bound y ∈ items → ∀ {Γ}, Checked C Γ y →
      ∃ type, Types C Γ y.items type) :
    ∃ type, Types C Γ items type := by
  have hinner : ∀ k : Nat, ∃ type, ∀ bound y, items[k]? = some (.part bound y) →
      Types C (extend own bound Γ) y.items type := by
    intro k
    cases hk : items[k]? with
    | none => exact ⟨fun _ => .unit, nofun⟩
    | some item =>
      cases item with
      | decl => exact ⟨fun _ => .unit, nofun⟩
      | part bound y =>
        obtain ⟨type, htype⟩ := hparts bound y (mem_of_getElem? hk) (h k _ hk)
        exact ⟨type, by rintro _ _ ⟨⟩; exact htype⟩
  choose inner hinner using hinner
  refine ⟨joined own inner, fun hz => ?_, fun hd => ?_⟩
  · cases hz with
    | part hk =>
      rw [Sight.env_own]
      exact h _ _ hk
    | inside hk hz =>
      rw [Sight.env_append, Sight.env_under, Sight.env_own, append_assoc]
      exact (hinner _ _ _ hk).checked hz
  · cases hd with
    | own hk =>
      have := h _ _ hk
      rwa [zero_add] at this
    | inside hk hd => exact (hinner _ _ _ hk).gives hd

/-- **An expression has been checked with a type for each of its declarations.** -/
theorem Checked.types (hC : Reliable C) (x : Expr Note) :
    ∀ {Γ}, Checked C Γ x → ∃ type, Types C Γ x.items type := by
  induction x using Expr.induction_parts with
  | h x ih =>
    rintro Γ ⟨w, t, x', w', hrun, hbare⟩
    obtain ⟨own, hown⟩ := (hC.expr x.source hrun).1.items
    exact (hown.congr hbare).types ih

/-! ### Functions -/

variable {names : TypeNames} {p : Program Unit} {q : Progress}

lemma extend_params (h : params.length = ps.length) :
    extend (fun i => ps.getD i .unit) (params.zipIdx.map fun (p, i) => (p.name.text, i)).reverse
      [] = paramEnv params ps := by
  unfold extend paramEnv
  rw [foldl_flip_cons_eq_append, append_nil, append_nil, map_reverse]
  congr 1
  refine ext_getElem (by simp [h]) fun i hi hi' => ?_
  simp only [length_map, length_zip] at hi'
  simp [show i < ps.length by omega]

/-- **A function has been checked with a type for each of its declarations.** -/
theorem Checked.functionTypes (hC : Reliable C)
    (hparams : Forall₂ (fun p t => resolve C.context.names p.type = .ok t) params ps)
    (hbody : Checked C (paramEnv params ps) (.block body)) :
    ∃ type, Types C [] (functionItems params body) type := by
  have hitems : ItemsChecked C [] (fun i => ps.getD i .unit) 0
      (functionItems params body) := by
    intro i item hi
    rw [zero_add]
    obtain ⟨p, hp, rfl⟩ | ⟨-, rfl⟩ := getElem?_functionItems hi
    · obtain ⟨hlt, rfl⟩ := List.getElem?_eq_some_iff.mp hp
      have hlt' : i < ps.length := hparams.length_eq ▸ hlt
      rw [ItemChecked, getD_eq_getElem?_getD, getElem?_eq_getElem hlt']
      exact hparams.get hlt hlt'
    · rw [← extend_params hparams.length_eq] at hbody
      exact hbody
  exact hitems.types fun _ y _ => types hC y

lemma BodyChecked.checked (h : BodyChecked C Γ body.source body) : Checked C Γ (.block body) := by
  obtain ⟨w, t, b', w', hrun, hbare⟩ := h
  exact ⟨w, t, .block b', w', run_checkBlock hrun, congrArg Expr.block hbare⟩

lemma Passes.reliable (h : Passes p c q) (depth : Nat)
    (site : Site) : Reliable ⟨c, checkFunc c depth, site⟩ :=
  ⟨h.valid, checkFunc_sound h.valid depth⟩

/-- **Every function of a checked program has been checked**, be it declared or a function literal,
from its parameters on. -/
theorem FunctionOf.checked (h : Passes p c q)
    {name? : Option Bytes} (hf : FunctionOf (packageOf p c q).program name? params body) :
    ∃ depth site ps, Forall₂ (fun p t => resolve c.names p.type = .ok t) params ps ∧
      Checked ⟨c, checkFunc c depth, site⟩ (paramEnv params ps) (.block body) := by
  obtain ⟨hq, -⟩ := checkFuncs_keeps (checkFunc_logged c _)
    (fun f hf => Context.func?_of_mem h.nodup_funcs hf) h.progress (.empty c) nofun
  induction hf with
  | @declared f hf =>
    rw [packageOf, funcs_annotate] at hf
    obtain ⟨f0, hf0, hf⟩ := mem_filterMap.mp hf
    obtain ⟨ps, r?, hsig, hmem⟩ := h.mem_funcs hf0
    rw [annotateFunc] at hf
    split at hf
    · rename_i b hb
      cases hf
      obtain ⟨g, depth, _, _, hg, hrun⟩ := hq.traced hb
      cases (Context.func?_of_mem h.nodup_funcs hmem).symm.trans hg
      have hblock := (h.reliable depth ⟨r?, []⟩).block (Γ := paramEnv f0.params ps) f0.body
      have hbody := (body_checks hblock (signature_spec hsig) hrun).1
      rw [← hbody.source hblock] at hbody
      exact ⟨depth, _, ps, (signature_types hsig).1, hbody.checked⟩
    · cases hf
  | @literal _ params ps body b S s n result _ hz ih =>
    obtain ⟨depth, site, ts, hts, hbody⟩ := ih
    obtain ⟨type, htype⟩ := hbody.functionTypes (h.reliable depth site) hts
    obtain ⟨w, t, z', w', hrun, hbare⟩ := htype.checked hz
    obtain ⟨m, b', ts', result?, rfl, -, hsig, w1, t1, b'', w2, hrun', hbare'⟩ :=
      (lambda_checks (fun s _ => (h.reliable depth s).block _) hrun).1
    have hb : b'.bare = b.bare := (Expr.lambda.inj hbare).2.2.2.2
    exact ⟨depth, _, ts', (signature_types hsig).1, BodyChecked.checked
      ⟨w1, t1, b'', w2, hrun', hbare'.trans hb⟩⟩

end Minilang.Typing
