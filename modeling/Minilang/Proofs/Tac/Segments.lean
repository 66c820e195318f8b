import Minilang.Proofs.Tac.Activation

/-!
# Closed segments of code

A segment of the code of a function is closed if no jump goes into it or out of it.  A call that
comes to the first instruction of a closed segment walks through places of the segment only, until
it comes to the place behind the last instruction or returns (`Segment.contained`).  So what a walk
through a larger piece of code does can be put together from what it does in the closed segments of
which the piece is made, and from single steps between them.
-/

namespace Minilang.Tac

open List

/-- No jump in a segment leaves it, and no jump around it leads into it. -/
structure Closed (pre seg post : Code) : Prop where
  inside : ∀ i ∈ seg, ∀ l, i.val.target? = some l → l ∈ labelsOf seg
  outside : ∀ i ∈ pre ++ post, ∀ l, i.val.target? = some l → l ∉ labelsOf seg

/-- A closed segment of the code of a function, in which every label has one place. -/
structure Segment (f : Func) (pre seg post : Code) : Prop where
  body : f.body = pre ++ seg ++ post
  labels : (labelsOf f.body).Nodup
  closed : Closed pre seg post

/-! ### The places of labels -/

variable {f : Func} {xs ys pre seg post : Code} {l : Bytes} {i : Located Instr} {k : Nat}
  {span : Span}

lemma Func.place?_eq (hbody : f.body = xs ++ ⟨span, .label l⟩ :: ys)
    (hlabels : (labelsOf f.body).Nodup) : f.place? l = some xs.length := by
  have hxs : ∀ i ∈ xs, i.val.label? ≠ some l := by
    intro i hi hl
    rw [hbody, labelsOf_append] at hlabels
    have hmem : l ∈ labelsOf xs := mem_labelsOf.mpr ⟨i, hi, hl⟩
    have hmem' : l ∈ labelsOf (⟨span, .label l⟩ :: ys) :=
      mem_labelsOf.mpr ⟨_, mem_cons_self, rfl⟩
    exact disjoint_of_nodup_append hlabels hmem hmem'
  rw [place?, hbody, findIdx?_append, findIdx?_eq_none_iff.mpr, findIdx?_cons]
  · simp [Instr.label?]
  · intro i hi
    simpa using hxs i hi

lemma Func.getElem?_body (xs ys : Code) (h : f.body = xs ++ i :: ys) (hk : xs.length = k) :
    f.body[k]? = some i := by
  subst hk
  rw [h, getElem?_append_right le_rfl, Nat.sub_self, getElem?_cons_zero]

lemma Func.getElem?_add (h : f.body = xs ++ ys) (k : Nat) : f.body[xs.length + k]? = ys[k]? := by
  rw [h, getElem?_append_right (Nat.le_add_right _ _), Nat.add_sub_cancel_left]

lemma Segment.place? (h : Segment f pre seg post) (hl : l ∈ labelsOf seg) :
    ∃ k, f.place? l = some k ∧ pre.length ≤ k ∧ k < pre.length + seg.length := by
  obtain ⟨⟨span, i⟩, hi, hlabel⟩ := mem_labelsOf.mp hl
  obtain ⟨xs, ys, rfl⟩ := append_of_mem hi
  have hval : i = .label l := by
    cases i with
    | label l' =>
      cases hlabel
      rfl
    | _ => cases hlabel
  subst hval
  have hbody : f.body = (pre ++ xs) ++ ⟨span, .label l⟩ :: (ys ++ post) := by
    rw [h.body]
    simp
  refine ⟨(pre ++ xs).length, Func.place?_eq hbody h.labels, ?_, ?_⟩
  · simp
  · simp

/-! ### Walks through a segment -/

variable {depth r : Nat} {s s' : State} {pcs : List Nat} {p : Program} {cap : Int}

/-- The call is at a place of a function. -/
def State.At (s : State) (f : Func) (pc : Nat) : Prop :=
  s.call.func = f ∧ s.call.pc = pc

/-- A call goes from the first instruction of a segment to the place behind its last one, and the
places of its walk are in the segment. -/
structure Traverses (p : Program) (cap : Int) (f : Func) (lo hi : Nat) (s : State)
    (pcs : List Nat) (s' : State) : Prop where
  runs : Runs p cap s.callers.length s pcs s'
  first : s.At f lo
  last : s'.At f hi
  callers : s'.callers = s.callers
  inside : ∀ pc ∈ pcs, lo ≤ pc ∧ pc < hi

/-- A call that comes to the first instruction of a segment leaves the segment past its last
instruction, or by an instruction that returns. -/
def Contained (p : Program) (cap : Int) (f : Func) (lo hi : Nat) : Prop :=
  ∀ ⦃s s' : State⦄ ⦃pcs : List Nat⦄, s.At f lo → Runs p cap s.callers.length s pcs s' →
    (∃ pcs1 s1 pcs2, pcs = pcs1 ++ pcs2 ∧ Traverses p cap f lo hi s pcs1 s1 ∧
      Runs p cap s.callers.length s1 pcs2 s') ∨
    (∀ pc ∈ pcs, lo ≤ pc ∧ pc < hi) ∧
      (s'.callers.length = s.callers.length → s'.callers = s.callers ∧ s'.call.func = f ∧
        lo ≤ s'.call.pc ∧ s'.call.pc < hi) ∧
      ∀ ⦃r : Option Value⦄ ⦃t : State⦄, step p cap s' = .ok (r, t) →
        (r.isSome ∨ t.callers.length < s.callers.length) →
        s'.callers.length = s.callers.length ∧
          ∃ i x, f.body[s'.call.pc]? = some i ∧ i.val = .ret x

section Walks

variable (h : Segment f pre seg post)

include h

lemma Segment.getElem? {pc : Nat} (hlo : pre.length ≤ pc) (hhi : pc < pre.length + seg.length)
    (hi : f.body[pc]? = some i) : i ∈ seg := by
  rw [h.body, append_assoc, getElem?_append_right hlo, getElem?_append_left (by omega)] at hi
  exact mem_of_getElem? hi

lemma Segment.advances {c c' : Call} (hfunc : c.func = f) (hlo : pre.length ≤ c.pc)
    (hhi : c.pc < pre.length + seg.length) (hi : c.instr? = some i)
    (ha : Advances i.val c c') : pre.length ≤ c'.pc ∧ c'.pc ≤ pre.length + seg.length := by
  subst hfunc
  rcases ha.pc with hnext | ⟨l, hl, hpc⟩
  · omega
  · obtain ⟨k, hk, hlo', hhi'⟩ := h.place? (h.closed.inside i (h.getElem? hlo hhi hi) l hl)
    rw [hpc, hk, Option.getD_some]
    omega

/-- The walk of a call that is in a segment or at its end comes to the end, or stays inside. -/
theorem Segment.walk (hruns : Runs p cap depth s pcs s') (hs : s.callers.length = depth)
    (hfunc : s.call.func = f) (hlo : pre.length ≤ s.call.pc)
    (hhi : s.call.pc ≤ pre.length + seg.length) :
    (∃ pcs1 s1 pcs2, pcs = pcs1 ++ pcs2 ∧ Runs p cap depth s pcs1 s1 ∧
      s1.At f (pre.length + seg.length) ∧ s1.callers = s.callers ∧
      (∀ pc ∈ pcs1, pre.length ≤ pc ∧ pc < pre.length + seg.length) ∧
      Runs p cap depth s1 pcs2 s') ∨
    (∀ pc ∈ pcs, pre.length ≤ pc ∧ pc < pre.length + seg.length) ∧
      (s'.callers.length = depth → s'.callers = s.callers ∧ s'.call.func = f ∧
        pre.length ≤ s'.call.pc ∧ s'.call.pc < pre.length + seg.length) := by
  induction pcs generalizing s with
  | nil =>
    rcases lt_or_eq_of_le hhi with hlt | heq
    · rcases hruns.own_cases hs with ⟨-, rfl⟩ | ⟨hpcs, -⟩ | ⟨_, _, _, -, hpcs, -⟩
      · exact .inr ⟨forall_mem_nil _, fun _ => ⟨rfl, hfunc, hlo, hlt⟩⟩
      · cases hpcs
      · cases hpcs
    · exact .inl ⟨[], s, [], rfl, .refl hs.ge, ⟨hfunc, heq⟩, rfl, forall_mem_nil _, hruns⟩
  | cons pc pcs ih =>
    rcases lt_or_eq_of_le hhi with hlt | heq
    · rcases hruns.own_cases hs with ⟨hpcs, -⟩ | ⟨hpcs, hdeep⟩ | ⟨i, t, _, hi, hpcs,
        hst, ht, ha, h'⟩
      · cases hpcs
      · cases hpcs
        refine .inr ⟨?_, fun heq => absurd heq hdeep.ne'⟩
        rintro pc (_ | ⟨_, ⟨⟩⟩)
        exact ⟨hlo, hlt⟩
      · cases hpcs
        obtain ⟨hlo', hhi'⟩ := h.advances hfunc hlo hlt hi ha
        have hall : ∀ {pcs},
            (∀ pc ∈ pcs, pre.length ≤ pc ∧ pc < pre.length + seg.length) →
            ∀ pc ∈ s.call.pc :: pcs, pre.length ≤ pc ∧ pc < pre.length + seg.length :=
          fun hpcs => forall_mem_cons.mpr ⟨⟨hlo, hlt⟩, hpcs⟩
        rcases ih h' (ht ▸ hs) (ha.func.trans hfunc) hlo' hhi' with
          ⟨pcs1, s1, pcs2, rfl, h1, hat, hcallers, hin, h2⟩ | ⟨hin, hend⟩
        · exact .inl ⟨s.call.pc :: pcs1, s1, pcs2, rfl, hst.trans h1, hat, hcallers.trans ht,
            hall hin, h2⟩
        · exact .inr ⟨hall hin, fun hs' => ht ▸ hend hs'⟩
    · exact .inl ⟨[], s, pc :: pcs, rfl, .refl hs.ge, ⟨hfunc, heq⟩, rfl, forall_mem_nil _,
        hruns⟩

/-- **A call leaves a closed segment past its last instruction or by a return.** -/
theorem Segment.contained : Contained p cap f pre.length (pre ++ seg).length := by
  intro s s' pcs hs hruns
  rw [length_append]
  rcases h.walk hruns rfl hs.1 hs.2.ge (hs.2.trans_le (Nat.le_add_right _ _)) with
    ⟨pcs1, s1, pcs2, hpcs, h1, hat, hcallers, hin, h2⟩ | ⟨hin, hend⟩
  · exact .inl ⟨pcs1, s1, pcs2, hpcs, ⟨h1, hs, hat, hcallers, hin⟩, h2⟩
  · refine .inr ⟨hin, hend, fun r t hstep hleft => ?_⟩
    have hreturns : s'.callers.length = s.callers.length ∧ s'.call.Returns := by
      have hdepth := hruns.depth_le.2
      cases r with
      | some v =>
        obtain ⟨hnil, hret⟩ := step_result hstep
        rw [hnil] at hdepth ⊢
        exact ⟨(Nat.le_zero.mp hdepth).symm, hret⟩
      | none =>
        have hlt := hleft.resolve_left Bool.false_ne_true
        cases step_moves hstep with
        | within _ hcallers _ =>
          rw [hcallers] at hlt
          omega
        | call _ _ hcallers =>
          rw [hcallers, length_cons] at hlt
          omega
        | ret hret hcallers _ =>
          rw [hcallers, length_cons] at hdepth ⊢
          exact ⟨by omega, hret⟩
    obtain ⟨-, hfunc, hlo, hhi⟩ := hend hreturns.1
    have hlt : s'.call.pc < f.body.length := by
      rw [h.body, length_append, length_append]
      omega
    have hi : f.body[s'.call.pc]? = some f.body[s'.call.pc] := getElem?_eq_getElem hlt
    obtain ⟨x, hx⟩ := hreturns.2 _ (by rw [Call.instr?, hfunc, hi])
    exact ⟨hreturns.1, _, x, hi, hx⟩

/-- **A segment keeps the registers that it does not write.** -/
theorem Traverses.regs_eq (ht : Traverses p cap f pre.length (pre ++ seg).length s pcs s')
    (hr : ∀ i ∈ seg, i.val.dst? ≠ some r) : s'.call.regs r = s.call.regs r := by
  rw [length_append] at ht
  refine (ht.runs.regs_eq rfl (by rw [ht.callers]) fun pc hpc i hi => hr i ?_).2.2
  rw [ht.first.1] at hi
  exact h.getElem? (ht.inside pc hpc).1 (ht.inside pc hpc).2 hi

end Walks

/-! ### Walks up to a goal -/

variable {R' R : Nat → Prop} {G G' : List Nat → State → Prop} {x : Operand}

lemma Runs.ended (h : Runs p cap depth s pcs s')
    (hs : s.callers.length = depth) (hpc : s.call.pc ∉ pcs) : pcs = [] ∧ s' = s := by
  cases h with
  | refl => exact ⟨rfl, rfl⟩
  | own => exact absurd mem_cons_self hpc
  | inner hlen => exact absurd hs hlen.ne'

/-- A walk has come to a goal on its way, at places of a region until then. -/
def Reaches (p : Program) (cap : Int) (R : Nat → Prop) (G : List Nat → State → Prop) (s : State)
    (pcs : List Nat) (s' : State) : Prop :=
  ∃ pcs1 t pcs2, pcs = pcs1 ++ pcs2 ∧ Runs p cap s.callers.length s pcs1 t ∧
    t.callers = s.callers ∧ t.call.func = s.call.func ∧ (∀ pc ∈ pcs1, R pc) ∧ G pcs1 t ∧
    Runs p cap s.callers.length t pcs2 s'

/-- However far a call runs on from a state, it stays at places of a region until it comes to a
goal.  The goal is about the places that the call has gone through and the state that it has come
to. -/
def Until (p : Program) (cap : Int) (R : Nat → Prop) (G : List Nat → State → Prop)
    (s : State) : Prop :=
  ∀ (pcs : List Nat) (s' : State), Runs p cap s.callers.length s pcs s' →
    Reaches p cap R G s pcs s' ∨
    (∀ pc ∈ pcs, R pc) ∧ (s'.callers.length = s.callers.length → R s'.call.pc)

namespace Until

variable {lo hi : Nat}

lemma done (h : G [] s) : Until p cap R G s := fun pcs _ hruns =>
  .inl ⟨[], s, pcs, rfl, .refl le_rfl, rfl, rfl, forall_mem_nil _, h, hruns⟩

section

variable (h : Until p cap R G s)

include h

lemma trans (h' : ∀ pcs t, (∀ pc ∈ pcs, R pc) → t.callers = s.callers → t.call.func = s.call.func →
      Runs p cap s.callers.length s pcs t → G pcs t →
      Until p cap R (fun pcs' => G' (pcs ++ pcs')) t) :
    Until p cap R G' s := by
  intro pcs s' hruns
  rcases h _ _ hruns with ⟨pcs1, t, pcs2, rfl, h1, hcallers, hfunc, hR, hG, h2⟩ | hstill
  · have hnext := h' pcs1 t hR hcallers hfunc h1 hG
    rw [← hcallers] at h2
    rcases hnext _ _ h2 with ⟨pcs3, u, pcs4, rfl, h3, hcallers', hfunc', hR', hG', h4⟩ | ⟨hR', hend⟩
    · rw [hcallers] at h3 h4
      exact .inl ⟨pcs1 ++ pcs3, u, pcs4, (append_assoc ..).symm, h1.trans h3,
        hcallers'.trans hcallers, hfunc'.trans hfunc, forall_mem_append.mpr ⟨hR, hR'⟩, hG', h4⟩
    · rw [hcallers] at hend
      exact .inr ⟨forall_mem_append.mpr ⟨hR, hR'⟩, hend⟩
  · exact .inr hstill

lemma imp (hG : ∀ pcs t, G pcs t → G' pcs t) : Until p cap R G' s :=
  h.trans fun pcs t _ _ _ _ hg => done (by rw [append_nil]; exact hG pcs t hg)

lemma mono (hR : ∀ pc, R pc → R' pc) : Until p cap R' G s := by
  intro pcs s' hruns
  rcases h _ _ hruns with ⟨pcs1, t, pcs2, hpcs, h1, hcallers, hfunc, hin, hG, h2⟩ | ⟨hin, hend⟩
  · exact .inl ⟨pcs1, t, pcs2, hpcs, h1, hcallers, hfunc, fun pc hpc => hR pc (hin pc hpc), hG, h2⟩
  · exact .inr ⟨fun pc hpc => hR pc (hin pc hpc), fun hs' => hR _ (hend hs')⟩

lemma reached (hruns : Runs p cap s.callers.length s pcs s')
    (hout : (∃ pc ∈ pcs, ¬R pc) ∨ s'.callers.length = s.callers.length ∧ ¬R s'.call.pc) :
    Reaches p cap R G s pcs s' := by
  rcases h _ _ hruns with hgoal | ⟨hin, hend⟩
  · exact hgoal
  · rcases hout with ⟨pc, hpc, hnot⟩ | ⟨hs', hnot⟩
    · exact absurd (hin pc hpc) hnot
    · exact absurd (hend hs') hnot

omit h in
lemma step (hi : s.call.instr? = some i) (hR : R s.call.pc)
    (h : ∀ t, execute p cap (s.goTo (s.call.pc + 1)) i.val = .ok (none, t) → t.callers = s.callers ∧
      t.call.func = s.call.func ∧ Until p cap R (fun pcs => G (s.call.pc :: pcs)) t) :
    Until p cap R G s := by
  intro pcs s' hruns
  cases hruns with
  | refl => exact .inr ⟨forall_mem_nil _, fun _ => hR⟩
  | inner hlen => exact absurd rfl hlen.ne'
  | @own _ t _ pcs _ hstep hruns =>
    have hexecute : execute p cap (s.goTo (s.call.pc + 1)) i.val = .ok (none, t) := by
      simp only [Tac.step, hi] at hstep
      split at hstep
      · rename_i r hr
        cases hstep
        exact hr
      · cases hstep
    obtain ⟨hcallers, hfunc, hnext⟩ := h t hexecute
    have hsingle : Runs p cap s.callers.length s [s.call.pc] t :=
      .single rfl hstep (by rw [hcallers])
    rw [← hcallers] at hruns
    rcases hnext _ _ hruns with ⟨pcs1, u, pcs2, rfl, h1, hcallers', hfunc', hin, hG,
      h2⟩ | ⟨hin, hend⟩
    · rw [hcallers] at h1 h2
      exact .inl ⟨s.call.pc :: pcs1, u, pcs2, rfl, hsingle.trans h1, hcallers'.trans hcallers,
        hfunc'.trans hfunc, forall_mem_cons.mpr ⟨hR, hin⟩, hG, h2⟩
    · rw [hcallers] at hend
      exact .inr ⟨forall_mem_cons.mpr ⟨hR, hin⟩, hend⟩

omit h in
lemma segment (h : Contained p cap f lo hi) (hs : s.At f lo) (hR : ∀ pc, lo ≤ pc → pc < hi → R pc)
    (h' : ∀ pcs t, Traverses p cap f lo hi s pcs t → Until p cap R (fun pcs' => G (pcs ++ pcs'))
      t) : Until p cap R G s := by
  have hthrough : Until p cap R (Traverses p cap f lo hi s) s := by
    intro pcs s' hruns
    rcases h hs hruns with ⟨pcs1, s1, pcs2, hpcs, ht, h2⟩ | ⟨hin, hend, -⟩
    · exact .inl ⟨pcs1, s1, pcs2, hpcs, ht.runs, ht.callers, ht.last.1.trans hs.1.symm,
        fun pc hpc => hR pc (ht.inside pc hpc).1 (ht.inside pc hpc).2, ht, h2⟩
    · refine .inr ⟨fun pc hpc => hR pc (hin pc hpc).1 (hin pc hpc).2, fun hs' => ?_⟩
      obtain ⟨-, -, hlo, hhi⟩ := hend hs'
      exact hR _ hlo hhi
  exact hthrough.trans fun pcs t _ _ _ _ ht => h' pcs t ht

lemma inside (hruns : Runs p cap s.callers.length s pcs s')
    (hG : ∀ pcs' t, G pcs' t → t.call.pc ∉ pcs) : ∀ pc ∈ pcs, R pc := by
  rcases h _ _ hruns with ⟨pcs1, t, pcs2, hpcs, -, hcallers, -, hin, hgoal, h2⟩ | ⟨hin, -⟩
  · have hnot := hG pcs1 t hgoal
    rw [hpcs] at hnot ⊢
    obtain ⟨rfl, -⟩ := h2.ended (by rw [hcallers]) fun hmem => hnot (mem_append_right _ hmem)
    rwa [append_nil]
  · exact hin

end

lemma traverses (h : Until p cap R (fun pcs t => t.call.pc = hi ∧ G pcs t) s) (hR : ¬R hi)
    (ht : Traverses p cap f lo hi s pcs s') : G pcs s' := by
  obtain ⟨pcs1, t, pcs2, hpcs, -, hcallers, -, -, ⟨hpc, hG⟩, h2⟩ := h.reached ht.runs
    (.inr ⟨by rw [ht.callers], by rw [ht.last.2]; exact hR⟩)
  have hnot : t.call.pc ∉ pcs2 := by
    rw [hpc]
    intro hmem
    exact (ht.inside hi (by rw [hpcs]; exact mem_append_right _ hmem)).2.false
  obtain ⟨rfl, rfl⟩ := h2.ended (by rw [hcallers]) hnot
  rw [append_nil] at hpcs
  exact hpcs ▸ hG

end Until

/-! ### Walks that do not fail -/

namespace State

variable (s : State) (pc d : Nat) (v : Value)

@[simp] lemma goTo_func : (s.goTo pc).call.func = s.call.func := rfl
@[simp] lemma goTo_pc : (s.goTo pc).call.pc = pc := rfl
@[simp] lemma goTo_regs : (s.goTo pc).call.regs = s.call.regs := rfl
@[simp] lemma goTo_heap : (s.goTo pc).heap = s.heap := rfl

@[simp] lemma write_func : (s.write d v).call.func = s.call.func := rfl
@[simp] lemma write_pc : (s.write d v).call.pc = s.call.pc := rfl
@[simp] lemma write_heap : (s.write d v).heap = s.heap := rfl

@[simp] lemma write_regs : (s.write d v).call.regs d = v := Function.update_self ..

lemma write_regs_of_ne (h : r ≠ d) : (s.write d v).call.regs r = s.call.regs r :=
  Function.update_of_ne h _ _

@[simp] lemma eval_reg (p : Program) : s.eval p (.reg d) = s.call.regs d := rfl

@[simp] lemma eval_goTo (p : Program) (x : Operand) : (s.goTo pc).eval p x = s.eval p x := rfl

lemma eval_write (h : x ≠ .reg d) : (s.write d v).eval p x = s.eval p x := by
  cases x with
  | reg r => exact write_regs_of_ne s d v fun heq => h (heq ▸ rfl)
  | lit | missing => rfl

end State

/-- A call goes on from a state to a goal, through places of a region. -/
def Goes (p : Program) (cap : Int) (R : Nat → Prop) (G : List Nat → State → Prop)
    (s : State) : Prop :=
  ∃ pcs t, Runs p cap s.callers.length s pcs t ∧ t.callers = s.callers ∧
    t.call.func = s.call.func ∧ (∀ pc ∈ pcs, R pc) ∧ G pcs t

/-- After a step to the second state, a call goes on to the goal of the first one. -/
abbrev GoesOn (p : Program) (cap : Int) (R : Nat → Prop) (G : List Nat → State → Prop)
    (s t : State) : Prop :=
  Goes p cap R (fun pcs => G (s.call.pc :: pcs)) t

namespace Goes

lemma done (h : G [] s) : Goes p cap R G s :=
  ⟨[], s, .refl le_rfl, rfl, rfl, forall_mem_nil _, h⟩

section

variable (h : Goes p cap R G s)

include h

lemma trans (h' : ∀ pcs t, t.call.func = s.call.func → G pcs t →
      Goes p cap R (fun pcs' => G' (pcs ++ pcs')) t) :
    Goes p cap R G' s := by
  obtain ⟨pcs, t, hruns, hcallers, hfunc, hin, hG⟩ := h
  obtain ⟨pcs', u, hruns', hcallers', hfunc', hin', hG'⟩ := h' pcs t hfunc hG
  rw [hcallers] at hruns'
  exact ⟨pcs ++ pcs', u, hruns.trans hruns', hcallers'.trans hcallers, hfunc'.trans hfunc,
    forall_mem_append.mpr ⟨hin, hin'⟩, hG'⟩

lemma mono (hR : ∀ pc, R pc → R' pc) : Goes p cap R' G s := by
  obtain ⟨pcs, t, hruns, hcallers, hfunc, hin, hG⟩ := h
  exact ⟨pcs, t, hruns, hcallers, hfunc, fun pc hpc => hR pc (hin pc hpc), hG⟩

/-- There is one walk only: it has come to the goal, or it is on the way to it and does not fail. -/
theorem cases (hruns : Runs p cap s.callers.length s pcs s') :
    Reaches p cap R G s pcs s' ∨
    (∀ pc ∈ pcs, R pc) ∧ (s'.callers.length = s.callers.length → R s'.call.pc ∧
      (∃ t, step p cap s' = .ok (none, t)) ∧ ∃ pcs2 t, G (pcs ++ s'.call.pc :: pcs2) t) := by
  obtain ⟨pcs1, t, h1, hcallers, hfunc, hR, hG⟩ := h
  rcases h1.linear hruns with ⟨pcs2, h2, hpcs⟩ | ⟨pcs2, h2, rfl⟩
  · exact .inl ⟨pcs1, t, pcs2, hpcs, h1, hcallers, hfunc, hR, hG, h2⟩
  · obtain ⟨hR1, hR2⟩ := forall_mem_append.mp hR
    cases h2 with
    | refl hs =>
      rw [append_nil] at hG
      exact .inl ⟨pcs, s', [], (append_nil _).symm, hruns, hcallers, hfunc, hR1, hG, .refl hs⟩
    | own _ hstep _ =>
      exact .inr ⟨hR1, fun _ => ⟨hR2 _ mem_cons_self, ⟨_, hstep⟩, _, t, hG⟩⟩
    | inner hlen => exact .inr ⟨hR1, fun hs' => absurd hs' hlen.ne'⟩

lemma weak : Until p cap R G s := fun _ _ hruns =>
  (h.cases hruns).imp_right fun hway => ⟨hway.1, fun hs' => (hway.2 hs').1⟩

end

lemma step {t : State} (hi : s.call.instr? = some i) (hR : R s.call.pc) (h : GoesOn p cap R G s t)
    (hcallers : t.callers = s.callers) (hfunc : t.call.func = s.call.func)
    (ht : execute p cap (s.goTo (s.call.pc + 1)) i.val = .ok (none, t)) :
    Goes p cap R G s := by
  obtain ⟨pcs, u, hruns, hcallers', hfunc', hin, hG⟩ := h
  have hstep : Tac.step p cap s = .ok (none, t) := by
    simp [Tac.step, hi, ht]
  rw [hcallers] at hruns
  exact ⟨s.call.pc :: pcs, u, .own rfl hstep hruns, hcallers'.trans hcallers, hfunc'.trans hfunc,
    forall_mem_cons.mpr ⟨hR, hin⟩, hG⟩

variable {d : Nat} {y : Operand} {v : Value}

lemma assign (hi : s.call.instr? = some ⟨span, .assign d x⟩) (hR : R s.call.pc)
    (h : GoesOn p cap R G s ((s.goTo (s.call.pc + 1)).write d (s.eval p x))) : Goes p cap R G s :=
  .step hi hR h rfl rfl rfl

lemma unary {op : OpCode Primitive} (hi : s.call.instr? = some ⟨span, .unary d op x⟩)
    (hR : R s.call.pc) (hv : unaryResult s.heap op (s.eval p x) = .ok v)
    (h : GoesOn p cap R G s ((s.goTo (s.call.pc + 1)).write d v)) :
    Goes p cap R G s := by
  refine .step hi hR h rfl rfl ?_
  change (unaryResult s.heap op (s.eval p x) >>= _) = _
  rw [hv]
  rfl

lemma binary {op : OpCode BinaryOp} (hi : s.call.instr? = some ⟨span, .binary d op x y⟩)
    (hR : R s.call.pc) (hv : binaryResult s.heap op (s.eval p x) (s.eval p y) = .ok v)
    (h : GoesOn p cap R G s ((s.goTo (s.call.pc + 1)).write d v)) :
    Goes p cap R G s := by
  refine .step hi hR h rfl rfl ?_
  change (binaryResult s.heap op (s.eval p x) (s.eval p y) >>= _) = _
  rw [hv]
  rfl

lemma index {ref n : Nat} (hi : s.call.instr? = some ⟨span, .index d x y⟩) (hR : R s.call.pc)
    (hv : position s.heap (s.eval p x) (s.eval p y) = .ok (ref, n))
    (h : GoesOn p cap R G s ((s.goTo (s.call.pc + 1)).write d
      ((s.heap.elems ref)[n]?.getD .null))) : Goes p cap R G s := by
  refine .step hi hR h rfl rfl ?_
  change (position s.heap (s.eval p x) (s.eval p y) >>= _) = _
  rw [hv]
  rfl

lemma label (hi : s.call.instr? = some ⟨span, .label l⟩) (hR : R s.call.pc)
    (h : GoesOn p cap R G s (s.goTo (s.call.pc + 1))) :
    Goes p cap R G s :=
  .step hi hR h rfl rfl rfl

lemma jump (hi : s.call.instr? = some ⟨span, .jump l⟩)
    (hk : s.call.func.place? l = some k) (hR : R s.call.pc) (h : GoesOn p cap R G s (s.goTo k)) :
    Goes p cap R G s := by
  refine .step hi hR h rfl rfl ?_
  change Except.ok (none, s.goTo ((s.call.func.place? l).getD _)) = _
  rw [hk]
  rfl

lemma jumpUnless {b : Bool} (hi : s.call.instr? = some ⟨span, .jumpUnless x l⟩)
    (hk : s.call.func.place? l = some k) (hR : R s.call.pc) (hb : s.eval p x = .bool b)
    (h : GoesOn p cap R G s (s.goTo (if b then s.call.pc + 1 else k))) :
    Goes p cap R G s := by
  refine .step hi hR h rfl rfl ?_
  change (condition (s.eval p x) >>= _) = _
  rw [hb]
  cases b with
  | true => rfl
  | false =>
    change Except.ok (none, s.goTo ((s.call.func.place? l).getD _)) = _
    rw [hk]
    rfl

end Goes

end Minilang.Tac
