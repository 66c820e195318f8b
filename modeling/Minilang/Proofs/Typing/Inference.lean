import Minilang.Proofs.Typing.Checked
import Minilang.Proofs.Typing.Lockstep
import Minilang.Proofs.Value.Contents

/-!
# Inference on demand

The check of a program keeps a log of the functions whose check it has begun and ended.  A log of a
check that went well is a solution (`Solves`): a list of the functions with their checked bodies in
which every body can be checked with nothing but the result types of the functions further down the
list.  Solutions do not depend on the order in which the functions are taken up: a check of
functions that have a solution comes to the bodies of the solution, whatever it begins with.

The functions that are being checked are those further up the list, so a check never comes back to
one of them, and it never goes deeper than there are functions.
-/

namespace Minilang.Typing

open List

/-! ### Tables -/

variable {name : Bytes} {b : CheckedBody} {c : Context} {T S : Table}

/-- Checked bodies, by the names of their functions. -/
abbrev Table := List (Bytes × CheckedBody)

/-- The results of the functions in a table. -/
def known (T : Table) : Infer := fun f p =>
  match T.lookup f.name with
  | some b => .ok (b.result, p)
  | none => .error ⟨f.decl.name.span, .recursiveFunc f.name⟩

/-- A table in which every body is checked with the result types of the functions below it. -/
inductive Solves (c : Context) : Table → Prop where
  | nil : Solves c []
  | cons {T name f b w} (hT : Solves c T) (hf : c.func? name = some f) (hnew : T.lookup name = none)
      (hbody : (checkBody c (known T) f).run ⟨[], []⟩ = .ok ((b.result, b.body), w)) :
      Solves c ((name, b) :: T)

namespace Solves

variable (hT : Solves c T)

include hT

lemma suffix (hS : S <:+ T) : Solves c S := by
  induction hT with
  | nil => rw [suffix_nil.mp hS]; exact .nil
  | cons hT hf hnew hbody ih =>
    rcases suffix_cons_iff.mp hS with rfl | hS
    · exact .cons hT hf hnew hbody
    · exact ih hS

lemma nodup : (T.map Prod.fst).Nodup := by
  induction hT with
  | nil => exact nodup_nil
  | cons hT hf hnew hbody ih =>
    refine nodup_cons.mpr ⟨fun hmem => ?_, ih⟩
    obtain ⟨⟨name, b⟩, he, rfl⟩ := mem_map.mp hmem
    rw [lookup_of_mem ih he] at hnew
    cases hnew

lemma func (h : (name, b) ∈ T) : ∃ f, c.func? name = some f := by
  induction hT with
  | nil => cases h
  | cons hT hf hnew hbody ih =>
    rcases mem_cons.mp h with heq | h
    · cases heq
      exact ⟨_, hf⟩
    · exact ih h

lemma split (h : T.lookup name = some b) : ∃ S, (name, b) :: S <:+ T ∧ S.length < T.length := by
  obtain ⟨l1, S, rfl, -⟩ := lookup_eq_some_iff.mp h
  refine ⟨S, suffix_append l1 _, ?_⟩
  rw [length_append, length_cons]
  omega

end Solves

/-! ### Logs -/

variable {f : FuncInfo} {p : Progress} {depth : Nat}

namespace Progress

variable (p : Progress)

/-- The functions whose check has ended, the latest first. -/
def done : Table :=
  p.filterMap fun
    | (name, .checked b) => some (name, b)
    | (_, .checking) => none

/-- The functions whose check has been begun, the latest first. -/
def begun : List Bytes :=
  p.filterMap fun
    | (name, .checking) => some name
    | (_, .checked _) => none

/-- All functions that have been checked are those of a table. -/
def Within (T : Table) : Prop :=
  ∀ ⦃name : Bytes⦄ ⦃b : CheckedBody⦄, p.lookup name = some (.checked b) → T.lookup name = some b

end Progress

/-- The log of a check that has gone well so far: what has been checked is a solution and comes from
checks of functions, and no check has been begun twice. -/
structure Logged (c : Context) (p : Progress) : Prop where
  solves : Solves c p.done
  lookup : ∀ name b, p.done.lookup name = some b ↔ p.lookup name = some (.checked b)
  once : p.begun.Nodup
  begun : ∀ name, name ∈ p.begun ↔ p.lookup name ≠ none
  traced : ∀ {name b}, p.lookup name = some (.checked b) → ∃ f depth w w', c.func? name = some f ∧
    (checkBody c (checkFunc c depth) f).run w = .ok ((b.result, b.body), w')

namespace Logged

lemma empty (c : Context) : Logged c [] where
  solves := .nil
  lookup name b := by simp [Progress.done]
  once := nodup_nil
  begun name := by simp [Progress.begun]
  traced := nofun

lemma within (h : Logged c p) : p.Within p.done :=
  fun name b hb => (h.lookup name b).mpr hb

lemma checking (h : Logged c p) (hnone : p.lookup name = none) :
    Logged c ((name, .checking) :: p) where
  solves := h.solves
  lookup n b := by
    refine (h.lookup n b).trans ?_
    rcases eq_or_ne n name with rfl | hne
    · simp [hnone]
    · rw [lookup_cons_of_ne hne]
  once := by
    refine nodup_cons.mpr ⟨fun hmem => ?_, h.once⟩
    exact (h.begun name).mp hmem hnone
  begun n := by
    have hcons : n ∈ Progress.begun ((name, .checking) :: p) ↔ n = name ∨ n ∈ p.begun :=
      mem_cons
    rw [hcons, h.begun]
    rcases eq_or_ne n name with rfl | hne
    · simp
    · simp [hne]
  traced hb := by
    obtain ⟨-, ⟨⟩⟩ | ⟨-, hb⟩ := eq_or_lookup hb
    exact h.traced hb

lemma checked (h : Logged c p) {w v v' : Walk}
    (hopen : p.lookup name = some .checking) (hf : c.func? name = some f)
    (hrun : (checkBody c (checkFunc c depth) f).run v = .ok ((b.result, b.body), v'))
    (hbody : (checkBody c (known p.done) f).run ⟨[], []⟩ = .ok ((b.result, b.body), w)) :
    Logged c ((name, .checked b) :: p) where
  solves := by
    refine .cons h.solves hf ?_ hbody
    rw [Option.eq_none_iff_forall_ne_some]
    intro b' hb'
    have hchecked := (h.lookup name b').mp hb'
    rw [hopen] at hchecked
    cases hchecked
  lookup n b' := by
    have hcons : Progress.done ((name, .checked b) :: p) = (name, b) :: p.done := rfl
    rw [hcons]
    rcases eq_or_ne n name with rfl | hne
    · simp
    · rw [lookup_cons_of_ne hne, lookup_cons, beq_false_of_ne hne]
      exact h.lookup n b'
  once := h.once
  begun n := by
    refine (h.begun n).trans ?_
    rcases eq_or_ne n name with rfl | hne
    · simp [hopen]
    · rw [lookup_cons_of_ne hne]
  traced hb := by
    obtain ⟨rfl, ⟨⟩⟩ | ⟨-, hb⟩ := eq_or_lookup hb
    · exact ⟨f, depth, v, v', hf, hrun⟩
    · exact h.traced hb

end Logged

/-! ### Checks that went well -/

variable {q : Progress} {ref : Span} {infer : Infer} {β γ : Type} {m m' : M β} {f' : β → M γ}

section Tabled

/-- A check that keeps the log, and that can be made with a table if all that is known in the end is
in the table. -/
def Tabled (c : Context) (T : Table) (β : Type) (m m' : M β) : Prop :=
  ∀ ⦃w : Walk⦄, Logged c w.progress → ∀ ⦃a : β⦄ ⦃w' : Walk⦄, m.run w = .ok (a, w') →
    Logged c w'.progress ∧ w.progress.Grows w'.progress ∧
      (w'.progress.Within T → m'.run ⟨[], w.returns⟩ = .ok (a, ⟨[], w'.returns⟩))

lemma Progress.Grows.within (h : p.Grows q) (hq : q.Within T) : p.Within T :=
  fun _ _ hb => hq (h.keeps hb)

lemma Tabled.bind {f : β → M γ} (hm : Tabled c T β m m')
    (hf : ∀ a, Tabled c T γ (f a) (f' a)) : Tabled c T γ (m >>= f) (m' >>= f') := by
  intro w hw b w'' hrun
  obtain ⟨a, w', ham, hfb⟩ := run_bind_ok hrun
  obtain ⟨hw', hgrows, htable⟩ := hm hw ham
  obtain ⟨hw'', hgrows', htable'⟩ := hf a hw' hfb
  refine ⟨hw'', hgrows.trans hgrows', fun hT => ?_⟩
  rw [StateT.run_bind, htable (hgrows'.within hT)]
  exact htable' hT

lemma Tabled.func (hinfer : InferKeeps (Logged c) c infer) (hf : c.func? f.name = some f) :
    Tabled c T Ty (funcType infer ref f) (funcType (known T) ref f) := by
  intro w hw t w' hrun
  unfold funcType at hrun ⊢
  cases hres : f.result? with
  | some r =>
    rw [hres] at hrun
    cases hrun
    exact ⟨hw, .refl _, fun _ => rfl⟩
  | none =>
    rw [hres] at hrun
    simp only [run_get_bind] at hrun ⊢
    have htable : ∀ {b}, T.lookup f.name = some b →
        known T f [] = .ok (b.result, []) := fun hb => by simp [known, hb]
    split at hrun
    · rename_i b hb
      cases hrun
      refine ⟨hw, .refl _, fun hT => ?_⟩
      simp only [htable (hT hb)]
      rfl
    · cases hrun
    · rename_i hnone
      obtain ⟨⟨r, q⟩, w1, hlift, hrest⟩ := run_bind_ok hrun
      cases hrest
      cases hr : infer f w.progress with
      | error e =>
        rw [hr] at hlift
        cases hlift
      | ok r' =>
        rw [hr] at hlift
        cases hlift
        obtain ⟨hq, hgrows, b, hb, rfl⟩ := hinfer hf hnone hw hr
        refine ⟨hq, hgrows, fun hT => ?_⟩
        simp only [htable (hT hb)]
        rfl

lemma lockstep_tabled (hinfer : InferKeeps (Logged c) c infer) (T : Table) :
    Lockstep c c infer (known T) (Tabled c T) where
  alike := ⟨fun _ => rfl, fun _ => rfl, fun _ => rfl⟩
  pure a w hw b w' hrun := by
    cases hrun
    exact ⟨hw, .refl _, fun _ => rfl⟩
  error s e w hw b w' hrun := by cases hrun
  bind := Tabled.bind
  getReturns hf w hw a w' hrun := hf w.returns hw hrun
  modifyReturns g w hw a w' hrun := by
    cases hrun
    exact ⟨hw, .refl _, fun _ => rfl⟩
  func := Tabled.func hinfer

end Tabled

variable {c' : Context}

/-- **The check of a function keeps the log.**  Once the body has been checked, the functions that
it asked for are in the log, and so the body can be checked with the log for a table. -/
theorem checkFunc_logged (c : Context) (depth : Nat) :
    InferKeeps (Logged c) c (checkFunc c depth) := by
  induction depth with
  | zero =>
    intro f p _ _ _ r q hrun
    cases hrun
  | succ depth ih =>
    intro f p hf hnone hp r q hrun
    obtain ⟨⟨⟨r, body⟩, w⟩, hresult, ⟨⟩⟩ := bind_ok hrun
    obtain ⟨hw, hgrows, htable⟩ :=
      (lockstep_tabled ih w.progress.done).body f (hp.checking hnone) hresult
    have hopen : w.progress.lookup f.name = some .checking := hgrows.keeps lookup_cons_self
    exact ⟨hw.checked hopen hf hresult (htable hw.within), hgrows.checked hnone, _,
      lookup_cons_self, rfl⟩

/-! ### Checks of functions that have a solution -/

variable {fs : List FuncInfo}

section Realised

/-- None of the functions of a table is being checked. -/
def Progress.Spares (p : Progress) (S : Table) : Prop :=
  ∀ ⦃name : Bytes⦄, p.lookup name = some .checking → S.lookup name = none

lemma Progress.Grows.spares (h : p.Grows q) (hp : p.Spares S) : q.Spares S :=
  fun _ hopen => hp (h.opens hopen)

lemma Progress.Spares.suffix (h : p.Spares S) (hS : (S.map Prod.fst).Nodup) {S' : Table}
    (hS' : S' <:+ S) : p.Spares S' := by
  intro name hopen
  cases hb : S'.lookup name with
  | none => rfl
  | some b =>
    have hmem : (name, b) ∈ S := hS'.subset (mem_of_lookup hb)
    rw [← lookup_of_mem hS hmem]
    exact h hopen

lemma Progress.Spares.checking (h : p.Spares ((name, b) :: S)) (hnew : S.lookup name = none) :
    Spares ((name, .checking) :: p) S := by
  intro n hopen
  obtain ⟨rfl, -⟩ | ⟨hne, hopen⟩ := eq_or_lookup hopen
  · exact hnew
  · have hn := h hopen
    rwa [lookup_cons, beq_false_of_ne hne] at hn

lemma Progress.Within.checking (h : p.Within T) (name : Bytes) :
    Within ((name, .checking) :: p) T := by
  intro n b hb
  obtain ⟨-, ⟨⟩⟩ | ⟨-, hb⟩ := eq_or_lookup hb
  exact h hb

lemma Progress.Within.checked (h : p.Within T) (hb : T.lookup name = some b) :
    Within ((name, .checked b) :: p) T := by
  intro n b' hb'
  obtain ⟨rfl, ⟨⟩⟩ | ⟨-, hb'⟩ := eq_or_lookup hb'
  · exact hb
  · exact h hb'

/-- A check with a table that can be made from every log that agrees with the solution `T`, and in
which no function of `S` is open. -/
def Realised (T S : Table) (β : Type) (m m' : M β) : Prop :=
  ∀ ⦃rs : List (Span × Ty)⦄ ⦃a : β⦄ ⦃w' : Walk⦄, m.run ⟨[], rs⟩ = .ok (a, w') →
    w'.progress = [] ∧ ∀ ⦃p : Progress⦄, p.Within T → p.Spares S →
      ∃ q : Progress, p.Grows q ∧ q.Within T ∧ m'.run ⟨p, rs⟩ = .ok (a, ⟨q, w'.returns⟩)

lemma Realised.bind {f : β → M γ} (hm : Realised T S β m m')
    (hf : ∀ a, Realised T S γ (f a) (f' a)) : Realised T S γ (m >>= f) (m' >>= f') := by
  intro rs b w'' hrun
  obtain ⟨a, ⟨p', rs'⟩, ham, hfb⟩ := run_bind_ok hrun
  obtain ⟨rfl, hreal⟩ := hm ham
  obtain ⟨hnil, hreal'⟩ := hf a hfb
  refine ⟨hnil, fun p hT hS => ?_⟩
  obtain ⟨q, hgrows, hq, hmq⟩ := hreal hT hS
  obtain ⟨q', hgrows', hq', hfq⟩ := hreal' hq (hgrows.spares hS)
  refine ⟨q', hgrows.trans hgrows', hq', ?_⟩
  rw [StateT.run_bind, hmq]
  exact hfq

/-- A way to find out result types that comes to those of `S`, from every log that agrees with `T`
and in which no function of `S` is open. -/
def InferRealises (c : Context) (T S : Table) (infer : Infer) : Prop :=
  ∀ ⦃f : FuncInfo⦄ ⦃b : CheckedBody⦄ ⦃p : Progress⦄, c.func? f.name = some f →
    S.lookup f.name = some b → p.Within T → p.Spares S → p.lookup f.name = none →
    ∃ q : Progress, infer f p = .ok (b.result, q) ∧ p.Grows q ∧ q.Within T

lemma Realised.func (hT : (T.map Prod.fst).Nodup) (hS : S <:+ T)
    (hinfer : InferRealises c T S infer) (hf : c.func? f.name = some f) :
    Realised T S Ty (funcType (known S) ref f) (funcType infer ref f) := by
  intro rs t w' hrun
  unfold funcType at hrun ⊢
  cases hres : f.result? with
  | some r =>
    rw [hres] at hrun
    cases hrun
    exact ⟨rfl, fun p hp _ => ⟨p, .refl p, hp, rfl⟩⟩
  | none =>
    rw [hres] at hrun
    simp only [run_get_bind] at hrun ⊢
    cases hb : S.lookup f.name with
    | none =>
      simp only [known, hb] at hrun
      cases hrun
    | some b =>
      simp only [known, hb] at hrun
      cases hrun
      refine ⟨rfl, fun p hp hspares => ?_⟩
      have hTb : T.lookup f.name = some b := lookup_of_mem hT (hS.subset (mem_of_lookup hb))
      split
      · rename_i b' hb'
        have heq : b' = b := Option.some.inj ((hp hb').symm.trans hTb)
        exact ⟨p, .refl p, hp, by rw [heq]; rfl⟩
      · rename_i hopen
        rw [hspares hopen] at hb
        cases hb
      · rename_i hnone
        obtain ⟨q, hq, hgrows, hqT⟩ := hinfer hf hb hp hspares hnone
        refine ⟨q, hgrows, hqT, ?_⟩
        rw [hq]
        rfl

lemma lockstep_realised (hc : c.Alike c') (hT : (T.map Prod.fst).Nodup) (hS : S <:+ T)
    (hinfer : InferRealises c T S infer) : Lockstep c c' (known S) infer (Realised T S) where
  alike := hc
  pure a rs b w' hrun := by
    cases hrun
    exact ⟨rfl, fun p hp _ => ⟨p, .refl p, hp, rfl⟩⟩
  error s e rs b w' hrun := by cases hrun
  bind := Realised.bind
  getReturns hf rs a w' hrun := hf rs hrun
  modifyReturns g rs a w' hrun := by
    cases hrun
    exact ⟨rfl, fun p hp _ => ⟨p, .refl p, hp, rfl⟩⟩
  func := Realised.func hT hS hinfer

/-- **A function that has a solution is checked as the solution says**, in every program with the
same names and from every log that agrees with the solution, unless the function itself or one below
it is open.  The induction is on the depth, which exceeds the number of functions below. -/
theorem checkFunc_of_solves (hc : c.Alike c') (hT : Solves c T) (hS : (f.name, b) :: S <:+ T)
    (hdepth : S.length < depth) (hf : c.func? f.name = some f) (hp : p.Within T)
    (hspares : p.Spares ((f.name, b) :: S)) (hnone : p.lookup f.name = none) :
    ∃ q : Progress, checkFunc c' depth f p = .ok (b.result, q) ∧ p.Grows q ∧ q.Within T ∧
      q.lookup f.name = some (.checked b) := by
  induction depth generalizing S f b p with
  | zero => omega
  | succ depth ih =>
    have hST : S <:+ T := (suffix_cons _ S).trans hS
    have hTb : T.lookup f.name = some b := lookup_of_mem hT.nodup (hS.subset mem_cons_self)
    cases hT.suffix hS with
    | cons hsolves hf' hnew hbody =>
      cases hf.symm.trans hf'
      -- the functions that the body asks for are further down, and none of those is open
      have hinfer : InferRealises c T S (checkFunc c' depth) := by
        intro g b' p hg hb' hp hspares hnone
        obtain ⟨S', hS', hlt⟩ := hsolves.split hb'
        obtain ⟨q, hq, hgrows, hqT, -⟩ := ih (hS'.trans hST) (by omega) hg hp
          (hspares.suffix hsolves.nodup hS') hnone
        exact ⟨q, hq, hgrows, hqT⟩
      obtain ⟨-, hreal⟩ := (lockstep_realised hc hT.nodup hST hinfer).body f hbody
      obtain ⟨q, hgrows, hq, hrun⟩ := hreal (hp.checking f.name) (hspares.checking hnew)
      refine ⟨(f.name, .checked b) :: q, ?_, hgrows.checked hnone, hq.checked hTb,
        lookup_cons_self⟩
      rw [checkFunc_succ, hrun]
      rfl

lemma checkFuncs_of_solves (hc : c.Alike c') (hT : Solves c T)
    (hlength : T.length ≤ c'.funcs.length)
    (hfs : ∀ f ∈ fs, c.func? f.name = some f ∧ ∃ b, T.lookup f.name = some b) (hp : p.Within T)
    (hopen : ∀ name, p.lookup name ≠ some .checking) :
    ∃ q : Progress, checkFuncs c' p fs = .ok q ∧ q.Within T := by
  induction fs generalizing p with
  | nil => exact ⟨p, rfl, hp⟩
  | cons f fs ih =>
    obtain ⟨hf, b, hb⟩ := hfs f mem_cons_self
    have hrest : ∀ g ∈ fs, c.func? g.name = some g ∧ ∃ b, T.lookup g.name = some b :=
      fun g hg => hfs g (mem_cons_of_mem f hg)
    rw [checkFuncs]
    split
    · exact ih hrest hp hopen
    · rename_i hnone
      obtain ⟨S, hS, hlt⟩ := hT.split hb
      obtain ⟨q, hq, hgrows, hqT, -⟩ := checkFunc_of_solves hc hT hS (hlt.trans_le hlength) hf hp
        (fun name h => absurd h (hopen name)) hnone
      rw [hq]
      exact ih hrest hqT fun name h => hopen name (hgrows.opens h)

end Realised

/-! ### The depth of a check -/

variable {infer' : Infer}

/-- The number of functions whose check has not been begun. -/
def Context.waiting (c : Context) (p : Progress) : Nat :=
  c.funcs.countP fun f => (p.lookup f.name).isNone

lemma Context.waiting_cons_le (c : Context) (p : Progress) (name : Bytes) (s : Status) :
    c.waiting ((name, s) :: p) ≤ c.waiting p := by
  refine countP_mono_left fun f _ hf => ?_
  rcases eq_or_ne f.name name with heq | hne
  · simp [heq] at hf
  · rwa [lookup_cons_of_ne hne] at hf

lemma Context.waiting_cons_lt (hf : f ∈ c.funcs) (hnone : p.lookup f.name = none) (s : Status) :
    c.waiting ((f.name, s) :: p) < c.waiting p := by
  obtain ⟨fs, gs, hfuncs⟩ := append_of_mem hf
  have hle : ∀ l : List FuncInfo,
      l.countP (fun g => (lookup g.name ((f.name, s) :: p)).isNone) ≤
        l.countP fun g => (p.lookup g.name).isNone := fun l =>
    waiting_cons_le ⟨c.names, c.defs, l⟩ p f.name s
  have hfs := hle fs
  have hgs := hle gs
  have hafter : (f :: gs).countP (fun g => (lookup g.name ((f.name, s) :: p)).isNone) =
      gs.countP fun g => (lookup g.name ((f.name, s) :: p)).isNone :=
    countP_cons_of_neg (by simp)
  have hbefore : (f :: gs).countP (fun g => (p.lookup g.name).isNone) =
      gs.countP (fun g => (p.lookup g.name).isNone) + 1 :=
    countP_cons_of_pos (by simp [hnone])
  unfold waiting
  rw [hfuncs, countP_append, countP_append]
  omega

/-- Two checks with the same outcome as long as at most `depth` functions wait. -/
def Bounded (c : Context) (depth : Nat) (β : Type) (m m' : M β) : Prop :=
  ∀ ⦃w : Walk⦄, c.waiting w.progress ≤ depth → m.run w = m'.run w ∧
    ∀ ⦃a : β⦄ ⦃w' : Walk⦄, m.run w = .ok (a, w') → c.waiting w'.progress ≤ c.waiting w.progress

lemma Bounded.bind {f : β → M γ} (hm : Bounded c depth β m m')
    (hf : ∀ a, Bounded c depth γ (f a) (f' a)) : Bounded c depth γ (m >>= f) (m' >>= f') := by
  intro w hw
  obtain ⟨heq, hle⟩ := hm hw
  rw [StateT.run_bind, StateT.run_bind, ← heq]
  cases hrun : m.run w with
  | error e => exact ⟨rfl, fun b w' h => by cases h⟩
  | ok r =>
    obtain ⟨a, w'⟩ := r
    have hw' := hle hrun
    obtain ⟨heq', hle'⟩ := hf a (hw'.trans hw)
    exact ⟨heq', fun b w'' h => (hle' h).trans hw'⟩

/-- Two ways to find out result types with the same outcome as long as at most `depth` functions
wait. -/
def InferBounded (c : Context) (depth : Nat) (infer infer' : Infer) : Prop :=
  ∀ ⦃f : FuncInfo⦄ ⦃p : Progress⦄, f ∈ c.funcs → p.lookup f.name = none → c.waiting p ≤ depth →
    infer f p = infer' f p ∧
      ∀ ⦃r : Ty⦄ ⦃q : Progress⦄, infer f p = .ok (r, q) → c.waiting q ≤ c.waiting p

lemma Bounded.func (hinfer : InferBounded c depth infer infer') (hf : c.func? f.name = some f) :
    Bounded c depth Ty (funcType infer ref f) (funcType infer' ref f) := by
  intro w hw
  unfold funcType
  cases f.result? with
  | some r => exact ⟨rfl, fun t w' h => by cases h; exact le_refl _⟩
  | none =>
    simp only [run_get_bind]
    split
    · exact ⟨rfl, fun t w' h => by cases h; exact le_refl _⟩
    · exact ⟨rfl, fun t w' h => by cases h⟩
    · rename_i hnone
      obtain ⟨heq, hle⟩ := hinfer (mem_of_find?_eq_some hf) hnone hw
      rw [← heq]
      refine ⟨rfl, fun t w' h => ?_⟩
      cases hr : infer f w.progress with
      | error e =>
        rw [hr] at h
        cases h
      | ok r =>
        rw [hr] at h
        cases h
        exact hle hr

lemma lockstep_bounded (hinfer : InferBounded c depth infer infer') :
    Lockstep c c infer infer' (Bounded c depth) where
  alike := ⟨fun _ => rfl, fun _ => rfl, fun _ => rfl⟩
  pure a w hw := ⟨rfl, fun b w' h => by cases h; exact le_refl _⟩
  error s e w hw := ⟨rfl, fun b w' h => by cases h⟩
  bind := Bounded.bind
  getReturns hf w hw := hf w.returns hw
  modifyReturns g w hw := ⟨rfl, fun b w' h => by cases h; exact le_refl _⟩
  func := Bounded.func hinfer

/-- **The depth is never used up.**  A check to which at least as much depth is left as functions
wait has the same outcome with more of it. -/
theorem checkFunc_depth {more : Nat} (hmore : depth ≤ more) :
    InferBounded c depth (checkFunc c depth) (checkFunc c more) := by
  induction depth generalizing more with
  | zero =>
    intro f p hf hnone hdepth
    have hlt := Context.waiting_cons_lt hf hnone .checking
    omega
  | succ depth ih =>
    intro f p hf hnone hdepth
    obtain ⟨more, rfl⟩ : ∃ n, more = n + 1 := ⟨more - 1, by omega⟩
    have hlt := Context.waiting_cons_lt hf hnone .checking
    have hlock := lockstep_bounded (ih (Nat.le_of_succ_le_succ hmore))
    obtain ⟨heq, hle⟩ := hlock.body f (w := ⟨(f.name, .checking) :: p, []⟩)
      (Nat.le_of_lt_succ (hlt.trans_le hdepth))
    rw [checkFunc_succ, checkFunc_succ, ← heq]
    refine ⟨rfl, fun r q h => ?_⟩
    obtain ⟨⟨⟨_, body⟩, w⟩, hresult, ⟨⟩⟩ := bind_ok h
    have hw := hle hresult
    have hcons := c.waiting_cons_le w.progress f.name (.checked ⟨r, body⟩)
    exact (hcons.trans hw).trans hlt.le

/-- What is known after the check of all functions, none of them deeper than `depth`. -/
def checkFuncsWithin (c : Context) (depth : Nat) (progress : Progress) :
    List FuncInfo → Check Progress
  | [] => .ok progress
  | f :: fs => do
    match progress.lookup f.name with
    | some _ => checkFuncsWithin c depth progress fs
    | none =>
      let (_, progress) ← checkFunc c depth f progress
      checkFuncsWithin c depth progress fs

lemma checkFuncsWithin_eq (hdepth : c.funcs.length ≤ depth) (hfs : ∀ f ∈ fs, f ∈ c.funcs)
    (p : Progress) : checkFuncsWithin c depth p fs = checkFuncs c p fs := by
  induction fs generalizing p with
  | nil => rfl
  | cons f fs ih =>
    have ih := ih fun g hg => hfs g (mem_cons_of_mem f hg)
    have hwaiting : c.waiting p ≤ c.funcs.length := countP_le_length
    rw [checkFuncsWithin, checkFuncs]
    cases hname : p.lookup f.decl.name.text with
    | some _ => exact ih p
    | none =>
      obtain ⟨heq, -⟩ := checkFunc_depth hdepth (hfs f mem_cons_self) hname hwaiting
      simp [← heq, ih]

/-! ### Programs -/

/-- The log after the check of all functions: every check that was begun has ended. -/
structure Complete (c : Context) (q : Progress) : Prop where
  logged : Logged c q
  ended : ∀ name, q.lookup name ≠ some .checking
  all : ∀ f ∈ c.funcs, ∃ b, q.lookup f.name = some (.checked b)

namespace Complete

variable {q' : Progress}

lemma of_checkFuncs (hnodup : (c.funcs.map FuncInfo.name).Nodup)
    (h : checkFuncs c [] c.funcs = .ok q) : Complete c q := by
  obtain ⟨hlogged, hgrows, hall⟩ := checkFuncs_keeps (checkFunc_logged c _)
    (fun f hf => Context.func?_of_mem hnodup hf) h (.empty c) nofun
  exact ⟨hlogged, fun name hopen => absurd (hgrows.opens hopen) nofun, hall⟩

variable (h : Complete c q)

include h

lemma mem_names_iff (name : Bytes) :
    name ∈ c.funcs.map FuncInfo.name ↔ ∃ b, q.lookup name = some (.checked b) := by
  constructor
  · rintro hname
    obtain ⟨f, hf, rfl⟩ := mem_map.mp hname
    exact h.all f hf
  · rintro ⟨b, hb⟩
    obtain ⟨f, hf⟩ := h.logged.solves.func (mem_of_lookup ((h.logged.lookup name b).mpr hb))
    exact mem_map.mpr ⟨f, mem_of_find?_eq_some hf, Context.func?_name hf⟩

/-- **Every body is checked once**: the checks that have been begun are those of the functions. -/
theorem begun_perm (hnodup : (c.funcs.map FuncInfo.name).Nodup) :
    q.begun.Perm (c.funcs.map FuncInfo.name) := by
  refine (perm_ext_iff_of_nodup h.logged.once hnodup).mpr fun name => ?_
  rw [h.logged.begun, h.mem_names_iff]
  constructor
  · intro hname
    cases hs : q.lookup name with
    | none => exact absurd hs hname
    | some s =>
      cases s with
      | checking => exact absurd hs (h.ended name)
      | checked b => exact ⟨b, rfl⟩
  · rintro ⟨b, hb⟩ hnone
    rw [hb] at hnone
    cases hnone

lemma done_perm (hnodup : (c.funcs.map FuncInfo.name).Nodup) :
    (q.done.map Prod.fst).Perm (c.funcs.map FuncInfo.name) := by
  refine (perm_ext_iff_of_nodup h.logged.solves.nodup hnodup).mpr fun name => ?_
  rw [h.mem_names_iff]
  constructor
  · intro hname
    obtain ⟨⟨name, b⟩, he, rfl⟩ := mem_map.mp hname
    exact ⟨b, (h.logged.lookup name b).mp (lookup_of_mem h.logged.solves.nodup he)⟩
  · rintro ⟨b, hb⟩
    exact mem_map_of_mem (mem_of_lookup ((h.logged.lookup name b).mpr hb))

/-- What is known after the check of all functions is determined by the functions of one log. -/
theorem lookup_eq (h' : Complete c' q')
    (hnames : ∀ name, name ∈ c.funcs.map FuncInfo.name ↔ name ∈ c'.funcs.map FuncInfo.name)
    (hwithin : q'.Within q.done) (name : Bytes) : q'.lookup name = q.lookup name := by
  cases hs : q'.lookup name with
  | none =>
    have hnot : ¬∃ b, q'.lookup name = some (.checked b) := by simp [hs]
    rw [← h'.mem_names_iff, ← hnames, h.mem_names_iff] at hnot
    cases ht : q.lookup name with
    | none => rfl
    | some t =>
      cases t with
      | checking => exact absurd ht (h.ended name)
      | checked b => exact absurd ⟨b, ht⟩ hnot
  | some s =>
    cases s with
    | checking => exact absurd hs (h'.ended name)
    | checked b => exact ((h.logged.lookup name b).mp (hwithin hs)).symm

end Complete

/-- **The order of the functions does not matter.** -/
theorem checkFuncs_perm (hc : c.Alike c') (hfuncs : c.funcs.Perm c'.funcs)
    (hnodup : (c.funcs.map FuncInfo.name).Nodup) (h : checkFuncs c [] c.funcs = .ok q) :
    ∃ q', checkFuncs c' [] c'.funcs = .ok q' ∧ ∀ name, q'.lookup name = q.lookup name := by
  have hq := Complete.of_checkFuncs hnodup h
  have hnames := hfuncs.map FuncInfo.name
  have hlength : q.done.length ≤ c'.funcs.length := by
    have hperm := ((hq.done_perm hnodup).trans hnames).length_eq
    simp only [length_map] at hperm
    exact hperm.le
  have hfs : ∀ f ∈ c'.funcs, c.func? f.name = some f ∧ ∃ b, q.done.lookup f.name = some b := by
    intro f hf
    have hmem : f ∈ c.funcs := hfuncs.mem_iff.mpr hf
    obtain ⟨b, hb⟩ := hq.all f hmem
    exact ⟨Context.func?_of_mem hnodup hmem, b, (hq.logged.lookup f.name b).mpr hb⟩
  obtain ⟨q', hrun, hwithin⟩ :=
    checkFuncs_of_solves hc hq.logged.solves hlength hfs (p := []) nofun nofun
  have hq' := Complete.of_checkFuncs (hnames.nodup_iff.mp hnodup) hrun
  exact ⟨q', hrun, hq.lookup_eq hq' (fun name => hnames.mem_iff) hwithin⟩

end Minilang.Typing
