import Minilang.Proofs.Tac.Nesting

/-!
# Control flow in lowered code

The code of every expression and every statement is a closed segment: a call that comes to its first
instruction leaves it past its last one, or by a return.  On this rest the laws of the forms with
control flow.  The second operand of `&&` and `||` is computed if and only if the first one is true,
respectively false, and the register of the result has the value of the operand that decides
(`ShortCircuits`).  Of the branches of a conditional exactly one is executed, and the register of
the result has its value, if it has one (`Branches`).

The laws hold at every depth of every function of a program (`lowerWith_structured`).
-/

namespace Minilang

open List

/-- The value of the first operand of `&&` or `||` with which the second one is computed. -/
def BinaryOp.goesOn : BinaryOp → Bool
  | .and => true
  | _ => false

namespace Tac

/-! ### The laws -/

/-- A walk to the end of `&&` or `||`: through both operands, and the register of the result has the
value of the second one, or through the first one only, and the register has its value. -/
def ShortCircuited (p : Program) (cap : Int) (f : Func) (goesOn : Bool) (xv yv : Operand)
    (d lo hi lo' hi' : Nat) (s : State) (pcs : List Nat) (s' : State) : Prop :=
  ∃ pcs1 s1 pcs2 b, pcs = pcs1 ++ pcs2 ∧ Traverses p cap f lo hi s pcs1 s1 ∧
    s1.eval p xv = .bool b ∧
    if b = goesOn then
      ∃ pcs3 s2 pcs4 s3 pcs5, pcs2 = pcs3 ++ pcs4 ++ pcs5 ∧
        Traverses p cap f lo' hi' s2 pcs4 s3 ∧ s'.call.regs d = s3.eval p yv
    else (∀ pc ∈ pcs, ¬(lo' ≤ pc ∧ pc ≤ hi')) ∧ s'.call.regs d = s1.eval p xv

/-- The second operand of `&&` or `||` is computed if and only if the first one is `goesOn`.  The
code of the first operand is at the places from `lo` to `hi`, that of the second one from `lo'` to
`hi'`, where its value goes to the register of the result. -/
structure ShortCircuits (p : Program) (cap : Int) (f : Func) (goesOn : Bool) (xv yv : Operand)
    (d lo hi lo' hi' : Nat) : Prop where
  only_if : ∀ {s s' : State} {pcs : List Nat}, s.At f lo →
    Runs p cap s.callers.length s pcs s' → (∀ pc ∈ pcs, lo ≤ pc ∧ pc < hi' + 2) →
    (∃ pc ∈ pcs, lo' ≤ pc ∧ pc ≤ hi') →
    ∃ pcs1 s1 pcs2, pcs = pcs1 ++ pcs2 ∧ Traverses p cap f lo hi s pcs1 s1 ∧
      s1.eval p xv = .bool goesOn ∧ Runs p cap s.callers.length s1 pcs2 s'
  decides : ∀ {s s1 : State} {pcs : List Nat} {b : Bool}, Traverses p cap f lo hi s pcs s1 →
    s1.eval p xv = .bool b →
    ∃ pcs' t, Runs p cap s.callers.length s1 pcs' t ∧ t.callers = s.callers ∧
      t.At f (if b = goesOn then lo' else hi' + 1) ∧ ∀ pc ∈ pcs', hi ≤ pc ∧ pc < lo'
  result : ∀ {s s' : State} {pcs : List Nat}, Traverses p cap f lo (hi' + 2) s pcs s' →
    ShortCircuited p cap f goesOn xv yv d lo hi lo' hi' s pcs s'

/-- A branch of a conditional: the places from `first` to `last` belong to it, and at those from
`lo` to `hi` is the code of its block, which may have a value. -/
structure Branch where
  first : Nat
  lo : Nat
  hi : Nat
  last : Nat
  value? : Option Operand

/-- The place belongs to the branch. -/
def Branch.Has (b : Branch) (pc : Nat) : Prop :=
  b.first ≤ pc ∧ pc < b.last

/-- A walk to the end of a conditional: through the test and through the branch that it says, and
through no place of the other one.  The register of the result has the value of the branch. -/
def Branched (p : Program) (cap : Int) (f : Func) (tv : Operand) (branch : Bool → Branch)
    (d lo hi : Nat) (s : State) (pcs : List Nat) (s' : State) : Prop :=
  ∃ pcs1 s1 pcs2 b, pcs = pcs1 ++ pcs2 ∧ Traverses p cap f lo hi s pcs1 s1 ∧
    s1.eval p tv = .bool b ∧ (∀ pc ∈ pcs, ¬(branch (!b)).Has pc) ∧
    ∃ pcs3 s2 pcs4 s3 pcs5, pcs2 = pcs3 ++ pcs4 ++ pcs5 ∧
      Traverses p cap f (branch b).lo (branch b).hi s2 pcs4 s3 ∧
      ∀ v, (branch b).value? = some v → s'.call.regs d = s3.eval p v

/-- Exactly one branch of a conditional is executed, as its test says.  The code of the test is at
the places from `lo` to `hi`, and the conditional ends at `stop`. -/
structure Branches (p : Program) (cap : Int) (f : Func) (tv : Operand) (branch : Bool → Branch)
    (d lo hi stop : Nat) : Prop where
  only_if : ∀ {s s' : State} {pcs : List Nat} {b : Bool}, s.At f lo →
    Runs p cap s.callers.length s pcs s' → (∀ pc ∈ pcs, lo ≤ pc ∧ pc < stop) →
    (∃ pc ∈ pcs, (branch b).Has pc) →
    ∃ pcs1 s1 pcs2, pcs = pcs1 ++ pcs2 ∧ Traverses p cap f lo hi s pcs1 s1 ∧
      s1.eval p tv = .bool b ∧ Runs p cap s.callers.length s1 pcs2 s'
  decides : ∀ {s s1 : State} {pcs : List Nat} {b : Bool}, Traverses p cap f lo hi s pcs s1 →
    s1.eval p tv = .bool b →
    ∃ pcs' t, Runs p cap s.callers.length s1 pcs' t ∧ t.callers = s.callers ∧
      t.At f (branch b).lo ∧ ∀ pc ∈ pcs', pc = hi ∨ (branch b).Has pc
  result : ∀ {s s' : State} {pcs : List Nat}, Traverses p cap f lo stop s pcs s' →
    Branched p cap f tv branch d lo hi s pcs s'

/-! ### The laws follow from what is between the parts -/

variable {d k : Nat} {v : Value} {b : Bool} {s s1 : Span} {p : Program} {cap : Int} {f : Func}
  {xv : Operand}

section Laws

variable {lo hi stop : Nat} {s2 : Span}

/-- Every walk through a test comes to the decision, by places before `stop`. -/
theorem Until.decision {v : Operand} {P : Bool → State → Prop} (hhi : lo ≤ hi) (hstop : hi ≤ stop)
    (htest : Contained p cap f lo hi)
    (hdecide : ∀ {t}, t.At f hi → Until p cap (fun pc => hi ≤ pc ∧ pc < stop)
      (fun _ t' => ∃ b, t.eval p v = .bool b ∧ P b t') t)
    {s : State} (hs : s.At f lo) :
    Until p cap (fun pc => lo ≤ pc ∧ pc < stop)
      (fun pcs t => ∃ pcs1 s1 pcs2 b, pcs = pcs1 ++ pcs2 ∧ (∀ pc ∈ pcs, pc < stop) ∧
        Traverses p cap f lo hi s pcs1 s1 ∧ s1.eval p v = .bool b ∧
        Runs p cap s.callers.length s1 pcs2 t ∧ P b t) s := by
  refine .segment htest hs (fun pc h h' => ⟨h, by omega⟩) fun pcs1 s1 ht => ?_
  refine ((hdecide ht.last).trans ?_).mono fun pc h => ⟨by omega, h.2⟩
  rintro pcs2 t hpcs2 - - hruns ⟨b, hb, hP⟩
  rw [ht.callers] at hruns
  refine .done ⟨pcs1, s1, pcs2, b, by simp, ?_, ht, hb, hruns, hP⟩
  rw [append_nil]
  exact forall_mem_append.mpr ⟨fun pc hpc => by have := ht.inside pc hpc; omega,
    fun pc hpc => (hpcs2 pc hpc).2⟩

lemma Traverses.goes {s s1 : State} {pcs : List Nat} {R : Nat → Prop} {n : Nat}
    (ht : Traverses p cap f lo hi s pcs s1) (h : Goes p cap R (fun _ t => t.call.pc = n) s1) :
    ∃ pcs' t, Runs p cap s.callers.length s1 pcs' t ∧ t.callers = s.callers ∧ t.At f n ∧
      ∀ pc ∈ pcs', R pc := by
  obtain ⟨pcs', t, hruns, hcallers, hfunc, hin, hpc⟩ := h
  rw [ht.callers] at hruns
  exact ⟨pcs', t, hruns, hcallers.trans ht.callers, ⟨hfunc.trans ht.last.1, hpc⟩, hin⟩

lemma ShortCircuits.of_between {goesOn : Bool} {yv : Operand} {lo' hi' : Nat} {stop : Bytes}
    (hhi : lo ≤ hi) (hlo' : hi < lo') (hhi' : lo' ≤ hi') (hx : Contained p cap f lo hi)
    (hy : Contained p cap f lo' hi') (hgoes : ∀ {t b}, t.At f hi → t.eval p xv = .bool b →
      Goes p cap (fun pc => hi ≤ pc ∧ pc < lo') (fun _ t' => t'.call.regs d = .bool b ∧
      t'.call.pc = if b = goesOn then lo' else hi' + 1) t)
    (hweak : ∀ {t}, t.At f hi → Until p cap (fun pc => hi ≤ pc ∧ pc < lo')
      (fun _ t' => ∃ b, t.eval p xv = .bool b ∧ t'.call.regs d = .bool b ∧
      t'.call.pc = if b = goesOn then lo' else hi' + 1) t)
    (hassign : f.body[hi']? = some ⟨s1, .assign d yv⟩)
    (hlabel : f.body[hi' + 1]? = some ⟨s2, .label stop⟩) :
    ShortCircuits p cap f goesOn xv yv d lo hi lo' hi' := by
  have hdecision := @Until.decision _ _ _ _ _ _ _ _ hhi hlo'.le hx hweak
  -- From the label there is one step only.
  have hleave : ∀ {t}, t.At f (hi' + 1) → ∀ {G},
      G [hi' + 1] (t.goTo (hi' + 2)) → Goes p cap (fun pc => pc = hi' + 1) G t := by
    rintro t ⟨rfl, hpc⟩ G hG
    refine .label (by rw [Call.instr?, hpc]; exact hlabel) hpc (.done ?_)
    rw [hpc]
    exact hG
  refine ⟨?_, ?_, ?_⟩
  · rintro s s' pcs hs hruns hin ⟨pc, hpc, hlo, hhi⟩
    obtain ⟨_, t, pcs3, rfl, -, hcallers, hfunc, -, ⟨pcs1, s1, pcs2, b, rfl, hbefore, ht, hb, h2, -,
      hpc'⟩, h3⟩ := (hdecision hs).reached hruns (.inl ⟨pc, hpc, by omega⟩)
    have hb' : b = goesOn := by
      by_contra hne
      rw [if_neg hne] at hpc'
      have hmem : pc ∈ pcs3 := (mem_append.mp hpc).resolve_left fun h => by
        have := hbefore pc h
        omega
      rw [← hcallers] at h3
      have :=
        (hleave ⟨hfunc.trans hs.1, hpc'⟩ (G := fun _ t => t.call.pc = hi' + 2) rfl).weak.inside
        h3 (fun _ u hu hmem => by
          have := hin _ (mem_append_right _ hmem)
          omega) pc hmem
      omega
    subst hb'
    exact ⟨pcs1, s1, pcs2 ++ pcs3, append_assoc .., ht, hb, h2.trans h3⟩
  · intro s s1 pcs b ht hb
    exact ht.goes ((hgoes ht.last hb).trans fun _ t _ h => .done h.2)
  · intro s s' pcs ht
    refine Until.traverses (R := fun pc => lo ≤ pc ∧ pc < hi' + 2) ?_ (by simp) ht
    refine ((hdecision ht.first).mono fun pc h => ⟨h.1, by omega⟩).trans ?_
    rintro _ t - hcallers hfunc - ⟨pcs1, s1, pcs2, b, rfl, hbefore, hx', hb, h2, hreg, hpc⟩
    have hf : t.call.func = f := hfunc.trans ht.first.1
    by_cases hb' : b = goesOn
    · rw [if_pos hb'] at hpc
      refine .segment hy ⟨hf, hpc⟩ (fun pc h h' => ⟨by omega, by omega⟩) fun pcs4 s3 hy' => ?_
      obtain ⟨rfl, hpc3⟩ := hy'.last
      refine Goes.weak (.assign (by rw [Call.instr?, hpc3]; exact hassign) (by omega)
        (.label (by rw [Call.instr?, hpc3]; exact hlabel) (by simp; omega) (.done ?_)))
      refine ⟨by simp [hpc3], pcs1, s1, pcs2 ++ (pcs4 ++ [hi', hi' + 1]), b,
        by simp [hpc3], hx', hb, ?_⟩
      rw [if_pos hb']
      exact ⟨pcs2, t, pcs4, s3, [hi', hi' + 1], by simp, hy', by simp⟩
    · rw [if_neg hb'] at hpc
      refine ((hleave ⟨hf, hpc⟩ ?_).weak).mono fun pc h => ⟨by omega, by omega⟩
      refine ⟨rfl, pcs1, s1, pcs2 ++ [hi' + 1], b, by simp, hx', hb, ?_⟩
      rw [if_neg hb', hb]
      refine ⟨fun pc hpc => ?_, hreg⟩
      rcases mem_append.mp hpc with h | h
      · have := hbefore pc h
        omega
      · rw [mem_singleton.mp h]
        omega

lemma condition_eq_ok (h : condition v = .ok b) : v = .bool b := by
  cases v with
  | bool b' =>
    cases h
    rfl
  | _ => cases h

lemma Branches.of_between {tv : Operand} {branch : Bool → Branch} {other : Bytes} (hhi : lo ≤ hi)
    (hfirst : (branch true).first = hi + 1) (hlast : (branch true).last = (branch false).first)
    (hbranch : ∀ b, (branch b).first ≤ (branch b).lo ∧ (branch b).lo ≤ (branch b).hi ∧
      (branch b).hi ≤ (branch b).last ∧ (branch b).last ≤ stop)
    (htest : Contained p cap f lo hi) (hjump : f.body[hi]? = some ⟨s1, .jumpUnless tv other⟩)
    (hother : f.place? other = some (branch false).first)
    (hblock : ∀ b, Contained p cap f (branch b).lo (branch b).hi)
    (hbefore : ∀ b {t}, t.At f (branch b).first → Goes p cap (branch b).Has
      (fun _ t' => t'.call.pc = (branch b).lo) t)
    (hbehind : ∀ b {t}, t.At f (branch b).hi → Goes p cap (fun pc => (branch b).Has pc ∨ pc = stop)
      (fun _ t' => t'.call.pc = stop + 1 ∧ ∀ v, (branch b).value? = some v →
      t'.call.regs d = t.eval p v) t) :
    Branches p cap f tv branch d lo hi (stop + 1) := by
  have hgoes : ∀ {t b}, t.At f hi → t.eval p tv = .bool b →
      Goes p cap (fun pc => pc = hi) (fun _ t' => t'.call.pc = (branch b).first) t := by
    rintro t b ⟨rfl, rfl⟩ hb
    refine .jumpUnless hjump hother rfl hb (.done ?_)
    cases b with
    | true => exact hfirst.symm
    | false => rfl
  have hdecision :=
    @Until.decision p cap f lo hi (hi + 1) tv (fun b t => t.call.pc = (branch b).first) hhi
    hi.le_succ htest (by
      intro t ht
      by_cases hb : ∃ b, t.eval p tv = .bool b
      · obtain ⟨b, hb⟩ := hb
        exact ((hgoes ht hb).weak.mono fun pc h => by omega).imp fun _ _ hpc => ⟨b, hb, hpc⟩
      · -- What is no boolean fails.
        obtain ⟨rfl, hpc⟩ := ht
        refine .step (by rw [Call.instr?, hpc]; exact hjump) (by omega) fun t ht' => ?_
        obtain ⟨b, hb', -⟩ := ok_of_bind ht'
        exact absurd ⟨b, condition_eq_ok hb'⟩ hb)
  have harm : ∀ b {t}, t.At f (branch b).first →
      Until p cap (fun pc => (branch b).Has pc ∨ pc = stop) (fun pcs t' => t'.call.pc = stop + 1 ∧
        ∃ pcs3 s2 pcs4 s3 pcs5, pcs = pcs3 ++ pcs4 ++ pcs5 ∧
          Traverses p cap f (branch b).lo (branch b).hi s2 pcs4 s3 ∧
          ∀ v, (branch b).value? = some v → t'.call.regs d = s3.eval p v) t := by
    intro b t ht
    have := hbranch b
    refine ((hbefore b ht).weak.mono fun pc h => .inl h).trans ?_
    rintro pcs3 s2 - - hfunc - hpc
    refine .segment (hblock b) ⟨hfunc.trans ht.1, hpc⟩
      (fun pc h h' => .inl ⟨by omega, by omega⟩) fun pcs4 s3 hs3 => ?_
    refine (hbehind b hs3.last).weak.trans ?_
    rintro pcs5 s' - - - - ⟨hpc', hvalue⟩
    exact .done ⟨hpc', pcs3, s2, pcs4, s3, pcs5, by simp, hs3, hvalue⟩
  have hdisjoint : ∀ b {pc}, (branch b).Has pc → ¬(branch (!b)).Has pc := by
    simp only [Branch.Has]
    rintro (_ | _) pc h h'
    · rw [Bool.not_false] at h'
      omega
    · rw [Bool.not_true] at h'
      omega
  refine ⟨?_, ?_, ?_⟩
  · rintro s s' pcs b hs hruns hin ⟨pc, hpc, hhas⟩
    have hout : ¬(lo ≤ pc ∧ pc < hi + 1) := by
      have := hbranch true
      simp only [Branch.Has] at hhas
      cases b <;> omega
    obtain ⟨_, t, pcs3, rfl, -, hcallers, hfunc, -, ⟨pcs1, s1, pcs2, b', rfl, hlow, ht, hb, h2,
      hpc'⟩, h3⟩ := (hdecision hs).reached hruns (.inl ⟨pc, hpc, hout⟩)
    rw [← hcallers] at h3
    have hmem : pc ∈ pcs3 := (mem_append.mp hpc).resolve_left fun h =>
      hout ⟨(hin pc hpc).1, hlow pc h⟩
    have hhas' := (harm b' ⟨hfunc.trans hs.1, hpc'⟩).inside h3 (fun _ u hu hmem => by
      have := hin _ (mem_append_right _ hmem)
      omega) pc hmem
    have hb' : b' = b := by
      by_contra hne
      rw [Bool.eq_not_of_ne hne] at hhas'
      rcases hhas' with h | rfl
      · exact hdisjoint b hhas h
      · have := (hbranch b).2.2.2
        exact absurd hhas.2 (by omega)
    subst hb'
    rw [hcallers] at h3
    exact ⟨pcs1, s1, pcs2 ++ pcs3, append_assoc .., ht, hb, h2.trans h3⟩
  · intro s s1 pcs b ht hb
    exact ht.goes (((hgoes ht.last hb).mono fun _ => .inl).trans fun _ t hfunc hpc =>
      (hbefore b ⟨hfunc.trans ht.last.1, hpc⟩).mono fun _ => .inr)
  · intro s s' pcs ht
    refine Until.traverses (R := fun pc => lo ≤ pc ∧ pc < stop + 1) ?_ (by simp) ht
    have := hbranch true
    have := hbranch false
    refine ((hdecision ht.first).mono fun pc h => ⟨h.1, by omega⟩).trans ?_
    rintro _ t - hcallers hfunc - ⟨pcs1, s1, pcs2, b, rfl, hlow, ht', hb, h2, hpc⟩
    refine ((harm b ⟨hfunc.trans ht.first.1, hpc⟩).trans ?_).mono ?_
    · rintro pcs' u hin - - - ⟨hpc', pcs3, s2, pcs4, s3, pcs5, rfl, hs3, hvalue⟩
      refine .done ⟨hpc', pcs1, s1, pcs2 ++ (pcs3 ++ pcs4 ++ pcs5), b, by simp, ht', hb, ?_,
        pcs2 ++ pcs3, s2, pcs4, s3, pcs5, by simp, hs3, hvalue⟩
      rw [append_nil]
      intro pc hpc hhas
      rcases mem_append.mp hpc with h | h
      · have := hlow pc h
        have := hhas.1
        cases b <;> simp at * <;> omega
      · rcases hin pc h with h | rfl
        · exact hdisjoint b h hhas
        · have := (hbranch !b).2.2.2
          exact absurd hhas.2 (by omega)
    · intro pc h
      simp only [Branch.Has] at h
      cases b <;> omega

/-- The branches of a conditional.  The block of the first one is from `a` to `a'`, there is a jump
to the end at `k`, then the label of the second one, and then its block, up to `e`. -/
def branchOf (a a' k e stop : Nat) (tv ev : Option Operand) : Bool → Branch
  | true => ⟨a, a, a', k + 1, tv⟩
  | false => ⟨k + 1, k + 2, e, stop, ev⟩

lemma Branches.of_places {v : Operand} {tv ev : Option Operand} {a' e : Nat} {l l' : Bytes}
    (hhi : lo ≤ hi) (ha' : hi + 1 ≤ a') (hk : a' ≤ k) (he : k + 2 ≤ e) (hstop : e ≤ stop)
    (htest : Contained p cap f lo hi) (hunless : f.body[hi]? = some ⟨s1, .jumpUnless v l⟩)
    (hthen : Contained p cap f (hi + 1) a') (helse : Contained p cap f (k + 2) e)
    (hkeep : ∀ {t}, t.At f a' → Goes p cap (fun pc => a' ≤ pc ∧ pc < k)
      (fun _ t' => t'.call.pc = k ∧ ∀ w, tv = some w → t'.call.regs d = t.eval p w) t)
    (hjump : f.body[k]? = some ⟨s2, .jump l'⟩) (hother : f.body[k + 1]? = some ⟨s, .label l⟩)
    (hplace : f.place? l = some (k + 1))
    (hkeep' : ∀ {t}, t.At f e → Goes p cap (fun pc => e ≤ pc ∧ pc < stop)
      (fun _ t' => t'.call.pc = stop ∧ ∀ w, ev = some w → t'.call.regs d = t.eval p w) t)
    (hlabel : f.body[stop]? = some ⟨s, .label l'⟩) (hplace' : f.place? l' = some stop) :
    Branches p cap f v (branchOf (hi + 1) a' k e stop tv ev) d lo hi (stop + 1) := by
  refine .of_between hhi rfl rfl ?_ htest hunless hplace ?_ ?_ ?_
  · rintro (_ | _)
    · exact ⟨Nat.le_succ _, he, hstop, le_rfl⟩
    · exact ⟨le_rfl, ha', by simp only [branchOf]; omega, by simp only [branchOf]; omega⟩
  · rintro (_ | _)
    · exact helse
    · exact hthen
  · rintro (_ | _) t ⟨rfl, hpc⟩
    · refine .label (by rw [Call.instr?, hpc]; exact hother)
        ⟨hpc.ge, by rw [hpc]; simp only [branchOf]; omega⟩ (.done ?_)
      rw [hpc]
      rfl
    · exact .done hpc
  · rintro (_ | _) t ht
    · refine ((hkeep' ht).mono ?_).trans ?_
      · rintro pc ⟨h, h'⟩
        exact .inl ⟨by simp only [branchOf]; omega, h'⟩
      · rintro _ t' hfunc ⟨hpc, hvalue⟩
        rw [← hfunc.trans ht.1, ← hpc] at hlabel
        exact .label hlabel (.inr hpc) (.done ⟨by rw [State.goTo_pc, hpc], hvalue⟩)
    · refine ((hkeep ht).mono ?_).trans ?_
      · rintro pc ⟨h, h'⟩
        exact .inl ⟨by simp only [branchOf]; omega, by simp only [branchOf]; omega⟩
      · rintro _ t' hfunc ⟨hpc, hvalue⟩
        have hf := hfunc.trans ht.1
        rw [← hf] at hplace' hlabel
        rw [← hf, ← hpc] at hjump
        refine .jump hjump hplace' (.inl ?_) (.label hlabel (.inr rfl) (.done ⟨rfl, hvalue⟩))
        rw [hpc]
        exact ⟨by simp only [branchOf]; omega, Nat.lt_succ_self k⟩

end Laws

/-! ### `&&` and `||` -/

namespace Lowering

variable {pre post : Code} {op : BinaryOp} {t : Tac.State}

section Logical

variable {stop : Bytes} {decide : Code}

lemma not_eq_ok {h : Heap} {x : Value} (hv : unaryResult h (.known .not) x = .ok v) :
    ∃ b, x = .bool b := by
  cases x with
  | bool b => exact ⟨b, rfl⟩
  | _ => cases hv

/-- The first operand goes to the register of the result, and a boolean decides how to go on. -/
theorem Decides.goes (h : Decides s d stop op decide)
    (hbody : f.body = pre ++ ⟨s1, .assign d xv⟩ :: (decide ++ post))
    (hplace : f.place? stop = some k) (ht : t.At f pre.length) (hb : t.eval p xv = .bool b) :
    Goes p cap (fun pc => pre.length ≤ pc ∧ pc < pre.length + (decide.length + 1))
      (fun _ t' => t'.call.regs d = .bool b ∧
        t'.call.pc = if b = op.goesOn then pre.length + (decide.length + 1) else k) t := by
  obtain ⟨rfl, hpc⟩ := ht
  have hbody' : t.call.func.body = (pre ++ [⟨s1, .assign d xv⟩]) ++ (decide ++ post) := by
    rw [hbody, append_assoc]
    rfl
  rw [← hpc]
  refine .assign (Func.getElem?_body _ _ hbody hpc.symm) (by simp) ?_
  rw [hb]
  cases h with
  | and =>
    refine .jumpUnless (b := b) (Func.getElem?_body _ _ hbody' (by simp [hpc])) hplace (by simp)
      (by simp) (.done ⟨by simp, ?_⟩)
    cases b <;> rfl
  | @or r hr =>
    have hjump : t.call.func.body[t.call.pc + 2]? = some ⟨s, .jumpUnless (.reg r) stop⟩ := by
      refine Func.getElem?_body (pre ++ [⟨s1, .assign d xv⟩,
        ⟨s, .unary r (.known .not) (.reg d)⟩]) post ?_ (by simp [hpc])
      rw [hbody, append_assoc]
      rfl
    refine .unary (v := .bool !b) (Func.getElem?_body _ _ hbody' (by simp [hpc])) (by simp) ?_ ?_
    · simp only [State.eval_reg, State.write_regs]
      rfl
    · refine .jumpUnless (b := !b) hjump hplace (by simp; omega) (by simp) (.done ⟨?_, ?_⟩)
      · rw [State.goTo_regs, State.write_regs_of_ne _ _ _ hr.symm]
        simp
      · cases b <;> rfl

lemma Decides.weak (h : Decides s d stop op decide)
    (hbody : f.body = pre ++ ⟨s1, .assign d xv⟩ :: (decide ++ post))
    (hplace : f.place? stop = some k) (ht : t.At f pre.length) :
    Until p cap (fun pc => pre.length ≤ pc ∧ pc < pre.length + (decide.length + 1))
      (fun _ t' => ∃ b, t.eval p xv = .bool b ∧ t'.call.regs d = .bool b ∧
        t'.call.pc = if b = op.goesOn then pre.length + (decide.length + 1) else k) t := by
  by_cases hb : ∃ b, t.eval p xv = .bool b
  · obtain ⟨b, hb⟩ := hb
    exact (h.goes hbody hplace ht hb).weak.imp fun _ _ hgoal => ⟨b, hb, hgoal⟩
  · obtain ⟨rfl, hpc⟩ := ht
    have hbody' : t.call.func.body = (pre ++ [⟨s1, .assign d xv⟩]) ++ (decide ++ post) := by
      rw [hbody, append_assoc]
      rfl
    rw [← hpc]
    refine .step (Func.getElem?_body _ _ hbody hpc.symm) (by simp) ?_
    rintro _ ⟨⟩
    refine ⟨rfl, rfl, ?_⟩
    cases h with
    | and =>
      refine .step (Func.getElem?_body _ _ hbody' (by simp [hpc])) (by simp) fun t' ht' => ?_
      obtain ⟨b, hb', -⟩ := ok_of_bind ht'
      have hval := condition_eq_ok hb'
      exact absurd ⟨b, (State.write_regs ..).symm.trans hval⟩ hb
    | or hr =>
      refine .step (Func.getElem?_body _ _ hbody' (by simp [hpc])) (by simp) fun t' ht' => ?_
      obtain ⟨v, hv, -⟩ := ok_of_bind ht'
      obtain ⟨b, hval⟩ := not_eq_ok hv
      exact absurd ⟨b, (State.write_regs ..).symm.trans hval⟩ hb

end Logical

section Layout

variable {α : Type} {c : Context α} {last : Code} {x : Chunk α} {parts : Parts α}

/-- The code of `&&` or `||` obeys `ShortCircuits`. -/
def Logical (p : Program) (cap : Int) (f : Func) (pre : Code) (op : BinaryOp) (x : Chunk α)
    (parts : Parts α) (last : Code) : Prop :=
  ∃ a b g av bv d s s' stop wide, parts = [([], a), (g, b)] ∧ a.value? = some av ∧
    b.value? = some bv ∧ last = ⟨s', .assign d bv⟩ :: ⟨s, .label stop⟩ :: wide ∧
    Widens s (.reg d) wide x.value? ∧
    ShortCircuits p cap f op.goesOn av bv d pre.length (pre ++ a.code).length
      (pre ++ a.code ++ g).length (pre ++ a.code ++ g ++ b.code).length

lemma LogicalShape.logical (hsegment : Segment f pre x.code post)
    (harranged : Arranged c f.name x parts last) (hshape : LogicalShape op x.value? parts last) :
    Logical p cap f pre op x parts last := by
  cases hshape with
  | @mk a b av bv d s s1 s2 stop decide wide ha hb hdecide hwide =>
  refine ⟨a, b, _, av, bv, d, s, s2, stop, wide, rfl, ha, hb, rfl, hwide, ?_⟩
  have hx := harranged.segment (show _ = [] ++ ([], a) :: [_] from rfl) hsegment
  have hy := harranged.segment (show _ = [([], a)] ++ (_, b) :: [] from rfl) hsegment
  simp only [flat_cons, flat_nil, append_nil] at hx hy
  have hbody : f.body = pre ++ a.code ++ ⟨s1, .assign d av⟩ :: (decide ++ (b.code ++
      ⟨s2, .assign d bv⟩ :: ⟨s, .label stop⟩ :: (wide ++ post))) := by
    rw [hsegment.body, harranged.code_eq]
    simp
  have hlast : f.body = pre ++ a.code ++ ⟨s1, .assign d av⟩ :: decide ++ b.code ++
      [⟨s2, .assign d bv⟩] ++ ⟨s, .label stop⟩ :: (wide ++ post) := by
    rw [hbody]
    simp
  have hplace := Func.place?_eq hlast hsegment.labels
  rw [length_append] at hplace
  have hlo : (pre ++ a.code ++ ⟨s1, .assign d av⟩ :: decide).length =
      (pre ++ a.code).length + (decide.length + 1) := by
    rw [length_append]
    rfl
  have hassign : f.body[(pre ++ a.code ++ ⟨s1, .assign d av⟩ :: decide ++ b.code).length]? =
      some ⟨s2, .assign d bv⟩ :=
    Func.getElem?_body _ (⟨s, .label stop⟩ :: (wide ++ post)) (by simp [hbody]) rfl
  refine .of_between (by simp) ?_ (by simp) hx.contained hy.contained ?_ ?_ hassign
    (Func.getElem?_body _ _ hlast length_append)
  · rw [hlo]
    omega
  · intro t b' ht hb'
    rw [hlo]
    exact hdecide.goes hbody hplace ht hb'
  · intro t ht
    rw [hlo]
    exact hdecide.weak hbody hplace ht

lemma keep_goes {v : Option Operand} (hbody : f.body = pre ++ keep s d v ++ post)
    (ht : t.At f pre.length) :
    Goes p cap (fun pc => pre.length ≤ pc ∧ pc < (pre ++ keep s d v).length)
      (fun _ t' => t'.call.pc = (pre ++ keep s d v).length ∧
        ∀ w, v = some w → t'.call.regs d = t.eval p w) t := by
  obtain ⟨rfl, hpc⟩ := ht
  cases v with
  | none => exact .done ⟨by simpa [keep] using hpc, nofun⟩
  | some w =>
    rw [append_assoc] at hbody
    refine .assign (Func.getElem?_body _ _ hbody hpc.symm) (by simp [hpc, keep]) (.done ⟨?_, ?_⟩)
    · simp [hpc, keep]
    · rintro _ ⟨⟩
      simp

/-- The code of a conditional obeys `Branches`. -/
def Conditional (p : Program) (cap : Int) (f : Func) (pre : Code) (x : Chunk α)
    (parts : Parts α) (last : Code) : Prop :=
  ∃ test t e g g' v d s s1 s2 stop wide, parts = [([], test), (g, t), (g', e)] ∧
    test.value? = some v ∧ last = keep s2 d e.value? ++ ⟨s, .label stop⟩ :: wide ∧
    (t.value? = none ∧ e.value? = none ∧ wide = [] ∧ x.value? = none ∨
      Widens s (.reg d) wide x.value?) ∧
    Branches p cap f v
      (branchOf ((pre ++ test.code).length + 1) (pre ++ test.code ++ g ++ t.code).length
        (pre ++ test.code ++ g ++ t.code ++ keep s1 d t.value?).length
        (pre ++ test.code ++ g ++ t.code ++ g' ++ e.code).length
        (pre ++ test.code ++ g ++ t.code ++ g' ++ e.code ++ keep s2 d e.value?).length
        t.value? e.value?)
      d pre.length (pre ++ test.code).length
      ((pre ++ test.code ++ g ++ t.code ++ g' ++ e.code ++ keep s2 d e.value?).length + 1)

lemma CondShape.conditional (hsegment : Segment f pre x.code post)
    (harranged : Arranged c f.name x parts last) (hshape : CondShape x.value? parts last) :
    Conditional p cap f pre x parts last := by
  cases hshape with
  | @mk test t e v d s s1 s2 s3 other stop wide htest hvalue =>
  refine ⟨test, t, e, _, _, v, d, s, s2, s3, stop, wide, rfl, htest, rfl, hvalue, ?_⟩
  have htest := harranged.segment (show _ = [] ++ ([], test) :: [_, _] from rfl) hsegment
  have ht := harranged.segment (show _ = [([], test)] ++ (_, t) :: [_] from rfl) hsegment
  have he := harranged.segment (show _ = [([], test), (_, t)] ++ (_, e) :: [] from rfl) hsegment
  have hbody : f.body = pre ++ test.code ++ [⟨s1, .jumpUnless v other⟩] ++ t.code ++
      keep s2 d t.value? ++ [⟨s2, .jump stop⟩, ⟨s, .label other⟩] ++ e.code ++
      keep s3 d e.value? ++ ⟨s, .label stop⟩ :: (wide ++ post) := by
    rw [hsegment.body, harranged.code_eq]
    simp
  simp only [flat_cons, flat_nil, append_nil, ← append_assoc] at htest ht he ⊢
  -- The code up to the places that matter.
  generalize hA : pre ++ test.code ++ [(⟨s1, .jumpUnless v other⟩ : Located Instr)] = A at *
  generalize hT : A ++ t.code = T at *
  generalize hK : T ++ keep s2 d t.value? = K at *
  generalize hB : K ++ [(⟨s2, .jump stop⟩ : Located Instr), ⟨s, .label other⟩] = B at *
  generalize hE : B ++ e.code = E at *
  generalize hS : E ++ keep s3 d e.value? = S at *
  have hAlen : A.length = (pre ++ test.code).length + 1 := by
    rw [← hA, length_append]
    rfl
  have hBlen : B.length = K.length + 2 := by
    rw [← hB, length_append]
    rfl
  have hbody1 : f.body = pre ++ test.code ++ ⟨s1, .jumpUnless v other⟩ :: (t.code ++
      keep s2 d t.value? ++ ⟨s2, .jump stop⟩ :: ⟨s, .label other⟩ :: (e.code ++
      keep s3 d e.value? ++ ⟨s, .label stop⟩ :: (wide ++ post))) := by
    simp [hbody, ← hS, ← hE, ← hB, ← hK, ← hT, ← hA]
  have hbody2 : f.body = T ++ keep s2 d t.value? ++ ⟨s2, .jump stop⟩ :: ⟨s, .label other⟩ ::
      (e.code ++ keep s3 d e.value? ++ ⟨s, .label stop⟩ :: (wide ++ post)) := by
    simp [hbody, ← hS, ← hE, ← hB, ← hK]
  have hbody3 : f.body = K ++ [⟨s2, .jump stop⟩] ++ ⟨s, .label other⟩ ::
      (e.code ++ keep s3 d e.value? ++ ⟨s, .label stop⟩ :: (wide ++ post)) := by
    simp [hbody, ← hS, ← hE, ← hB]
  have hbody4 : f.body = E ++ keep s3 d e.value? ++ ⟨s, .label stop⟩ :: (wide ++ post) := by
    rw [hbody, hS]
  have hother := Func.place?_eq hbody3 hsegment.labels
  rw [length_append] at hother
  refine .of_places (by simp) ?_ ?_ ?_ ?_ htest.contained
    (Func.getElem?_body _ _ hbody1 rfl) ?_ ?_ ?_ (Func.getElem?_body K _ (hK ▸ hbody2) rfl)
    (Func.getElem?_body _ _ hbody3 length_append) hother ?_ (Func.getElem?_body _ _ hbody rfl)
    (Func.place?_eq hbody hsegment.labels)
  · rw [← hAlen, ← hT, length_append]
    omega
  · rw [← hK, length_append]
    omega
  · rw [← hE, length_append]
    omega
  · rw [← hS, length_append]
    omega
  · rw [← hAlen, ← hT]
    exact ht.contained
  · rw [← hBlen, ← hE]
    exact he.contained
  · rw [← hK]
    exact keep_goes hbody2
  · rw [← hS]
    exact keep_goes hbody4

end Layout

end Lowering

end Tac

end Minilang
