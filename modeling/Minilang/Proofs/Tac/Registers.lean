import Minilang.Proofs.Tac.Nesting

/-!
# The registers of declarations

The lowering of a function gives every declaration a register of its own, and lowers every
expression in the environment of those registers.

A lowering goes through the items of an expression in their order, and the registers of each item
are new when its turn comes (`Makes`).  So the registers of different items are different, and the
rest is an induction over the parts (`lowerExpr_allocates`).
-/

namespace Minilang.Tac.Lowering

open List

/-! ### The items of an expression, one after the other -/

variable {code' : Code} {k : Nat} {st1 st' st0 : State} {items : List Item} {l : Lowered} {s : Span}
  {n : Note}

section Makes

variable (c : Context Note) (func : Bytes) (env : Env) (own : Nat → Nat)

/-- A lowering makes the given code from items, the first of which is the one with index `k`, and
goes from one state to another.  Each variable has the register that `own` gives it. -/
inductive Makes (code : Code) : Nat → State → List Item → State → Prop where
  | nil {k st} : Makes code k st [] st
  | skip {k st st1 st' items} (hle : Grown func st st1)
    (h : Makes code k st1 items st') : Makes code k st items st'
  | part {k st st1 st' items bound y l} (henv : Sighted (extend own bound env) st)
    (hrun : (lowerExpr c func (extend own bound env) y).run st = .ok (l, st1))
    (hcode : l.code <:+: code) (h : Makes code (k + 1) st1 items st') :
    Makes code k st (.part bound y :: items) st'
  | decl {k st st1 st' items span name binder} (hle : Grown func st st1) (hnew : st.numVars ≤ own k)
    (hlt : own k < st1.numVars)
    (hcode : ∃ i, ⟨span, i⟩ ∈ code ∧ i.dst? = some (own k))
    (h : Makes code (k + 1) st1 items st') : Makes code k st (.decl span name binder :: items) st'

namespace Makes

variable {c func env own} {code : Code} {st : State} {items' : List Item}

lemma mono (hcode : code <:+: code') (h : Makes c func env own code k st items st') :
    Makes c func env own code' k st items st' := by
  induction h with
  | nil => exact .nil
  | skip hle _ ih => exact .skip hle ih
  | part henv hrun hl _ ih => exact .part henv hrun (hl.trans hcode) ih
  | decl hle hnew hlt hi _ ih =>
    obtain ⟨i, hi, hd⟩ := hi
    exact .decl hle hnew hlt ⟨i, hcode.subset hi, hd⟩ ih

lemma append (h : Makes c func env own code k st items st1)
    (h' : Makes c func env own code (k + items.length) st1 items' st') :
    Makes c func env own code k st (items ++ items') st' := by
  induction h with
  | nil => exact h'
  | skip hle _ ih => exact .skip hle (ih h')
  | part henv hrun hl _ ih =>
    refine .part henv hrun hl (ih ?_)
    rwa [length_cons, ← add_assoc, add_right_comm] at h'
  | decl hle hnew hlt hi _ ih =>
    refine .decl hle hnew hlt hi (ih ?_)
    rwa [length_cons, ← add_assoc, add_right_comm] at h'

lemma widen (h : Makes c func env own l.code 0 st0 items st) : Ends (widen c s n l) st
      (fun l' st' => Makes c func env own l'.code 0 st0 items st') := by
  unfold Lowering.widen
  split
  · refine .bind (.newReg (.pure ?_))
    simpa using (h.mono (prefix_append _ _).isInfix).append (.skip (.take st 1 0) .nil)
  · exact .pure h

end Makes

end Makes

/-! ### Expressions without declarations -/

variable {b : Block Note} {c : Context Note} {func : Bytes} {env : Env} {own : Nat → Nat}

section Parts

variable {st : State} {x : Expr Note}

lemma parts_expr (hx : ∀ b, x ≠ .block b) (hc : c.note = id) :
    (Node.expr x).parts c = x.parts.map .expr := by
  cases x with
  | block b => exact absurd rfl (hx b)
  | call s n callee args =>
    simp only [Node.parts, Expr.parts, hc, id]
    cases n.role <;> rfl
  | field s n x name =>
    simp only [Node.parts, Expr.parts, hc, id]
    cases n.role <;> rfl
  | assign s n target v => cases target <;> rfl
  | _ => rfl

lemma envs_expr (hx : ∀ b, x ≠ .block b) : (Chunk.ofExpr x env st l st').envs = {env} := by
  cases x with
  | block b => exact absurd rfl (hx b)
  | _ => rfl

/-- Parts that are expressions and see the same variables. -/
theorem Assembled.makes {J : Set Bytes} {parts : List (Code × Chunk Note)}
    (h : Assembled c func J st parts st') {xs : List (Expr Note)}
    (hnodes : parts.map (·.2.node) = xs.map .expr) (henv : ∀ q ∈ parts, q.2.env = env)
    {code post : Code} (pre : Code) (hcode : code = pre ++ (flat parts ++ post)) (k : Nat) :
    Makes c func env own code k st (xs.map (.part [])) st' := by
  induction h generalizing xs pre k with
  | nil hst =>
    obtain rfl := map_eq_nil_iff.mp hnodes.symm
    exact .skip hst .nil
  | @cons st st' g y parts _ hst made sighted _ _ ih =>
    obtain _ | ⟨x, xs⟩ := xs
    · cases hnodes
    obtain ⟨hnode, hnodes'⟩ := cons.inj hnodes
    obtain ⟨hy, hparts⟩ := forall_mem_cons.mp henv
    obtain ⟨node, env', st1, yc, value?, st2⟩ := y
    cases hnode
    cases hy
    have hrest := ih hnodes' hparts (pre ++ g ++ yc) (by simp [hcode]) (k + 1)
    exact .skip hst (.part sighted made ⟨pre ++ g, flat parts ++ post, by simp [hcode]⟩ hrest)

end Parts

/-! ### Blocks -/

section Blocks

variable (c : Context Note) (func : Bytes) (env : Env) {env' : Env} (k : Nat)
  (bound : List (Bytes × Nat)) (st : State)

/-- The end of a loop that counts: its variable, in the last of the registers that the loop takes,
and its body. -/
theorem countingLoop_makes {x : Name} {binder : Binder} {loop stop : Bytes}
    {counter limit test taken : Nat} {i : Instr} {pre : Code} {st' : State}
    (henv : Sighted (extend own bound env) st) (hown : own k = st.numVars + taken)
    (hdst : i.dst? = some (st.numVars + taken))
    (hb : (lowerBlock c func ((x.text, st.numVars + taken) :: extend own bound env) b).run
      ⟨st.numVars + taken + 1, ⟨st.labels.count + 2⟩, st.lambdas, st.nested⟩ = .ok (l, st')) :
    Makes c func env own (pre ++ countingLoop s loop stop counter limit test ⟨x.span, i⟩ l.code) k
      st [.decl x.span x.text binder, .part ((x.text, k) :: bound) (.block b)] st' := by
  have htaken : Sighted (extend own bound env)
      ⟨st.numVars + taken, ⟨st.labels.count + 2⟩, st.lambdas, st.nested⟩ :=
    henv.mono (Nat.le_add_right _ _)
  have hbody : Sighted ((x.text, st.numVars + taken) :: extend own bound env)
      ⟨st.numVars + taken + 1, ⟨st.labels.count + 2⟩, st.lambdas, st.nested⟩ := htaken.bind x.text
  have hlt : st.numVars + taken < st.numVars + taken + 1 := Nat.lt_succ_self _
  have hle : Grown func st _ := .take st (taken + 1) 2
  rw [← hown] at hdst hb hbody hlt
  refine .decl (hown ▸ hle) (by omega) hlt ⟨i, by simp [countingLoop], hdst⟩
    (.part hbody hb ?_ .nil)
  rw [countingLoop, ← append_assoc, ← append_assoc]
  exact ⟨_, _, rfl⟩

/-- A statement declares at most one variable, and its items are made with the register of that
variable. -/
theorem lowerStmt_makes (s : Stmt Note) (hsight : Sighted env' st) :
    Ends (lowerStmt c func env' s) st (fun r st' => ∃ reg,
    ∀ own : Nat → Nat, (∀ i, k ≤ i → i < k + (s.items k bound).length → own i = reg) →
      env' = extend own bound env → Makes c func env own r.1 k st (s.items k bound) st' ∧
        r.2 = extend own (s.binds k ++ bound) env) := by
  cases s with
  | letVar s x type v =>
    refine ends_value fun vc v st1 hv =>
      .bind (.newReg (.pure ⟨st1.numVars, fun own hown henv => ?_⟩))
    have hreg : own (k + 1) = st1.numVars := hown _ (by omega) (by simp [Stmt.items])
    subst henv
    refine ⟨.part hsight hv ⟨[], _, rfl⟩
      (.decl (.take st1 1 0) hreg.ge ?_ ⟨.assign st1.numVars v, ?_, ?_⟩ .nil), ?_⟩
    · rw [hreg]
      exact Nat.lt_succ_self _
    · exact mem_append_right _ (mem_singleton.mpr rfl)
    · rw [hreg]
      rfl
    · simp [extend, Stmt.binds, hreg]
  | ret s v =>
    cases v with
    | none =>
      exact .pure ⟨0, fun own _ henv => ⟨.nil, henv⟩⟩
    | some v =>
      refine ends_value fun vc v st1 hv => .pure ⟨0, fun own _ henv => ?_⟩
      subst henv
      exact ⟨.part hsight hv ⟨[], _, rfl⟩ .nil, rfl⟩
  | loop s test b =>
    refine .bind (.newLabel (.bind (.newLabel (ends_value fun tc tv st1 ht => .bind (.of_run
      (fun l st2 hb => .pure ⟨0, fun own _ henv => ?_⟩) fun _ _ => trivial)))))
    subst henv
    have hst : Grown func st _ := .take st 0 2
    have hsight1 := hsight.mono hst.regs
    refine ⟨.skip hst (.part hsight1 ht ?_ (.part (hsight1.expr ht) hb ?_ .nil)), rfl⟩
    · exact ⟨[⟨s, .label _⟩], _, by simp only [append_assoc]; rfl⟩
    · exact ⟨_, _, rfl⟩
  | forRange s x a z b =>
    refine ends_value fun ac av st1 ha => ends_value fun zc zv st2 hz =>
      .bind (.newReg (.bind (.newReg (.bind (.newLabel (.bind (.newLabel (.bind (.newReg (.bind
        (.newReg (.run fun l st3 hb => .pure ⟨st2.numVars + 3, fun own hown henv => ?_⟩))))))))))))
    subst henv
    have hsight1 := hsight.expr ha
    refine ⟨.part hsight ha ⟨[], _, by simp only [append_assoc]; rfl⟩
      (.part hsight1 hz ⟨ac, _, by simp only [append_assoc]; rfl⟩ (countingLoop_makes c func env
        (k + 2) bound st2 (hsight1.expr hz) (hown (k + 2) (by omega) (by simp [Stmt.items])) rfl
        hb)),
      rfl⟩
  | forEach s x a b =>
    refine ends_value fun ac av st1 ha =>
      .bind (.newReg (.bind (.newReg (.bind (.newReg (.bind (.newLabel (.bind (.newLabel (.bind
        (.newReg (.bind (.newReg (.bind (.of_run
          (fun l st2 hb => .pure ⟨st1.numVars + 4, fun own hown henv => ?_⟩)
            fun _ _ => trivial)))))))))))))))
    subst henv
    exact ⟨.part hsight ha ⟨[], _, by simp only [append_assoc]; rfl⟩
      (countingLoop_makes c func env (k + 1) bound st1 (hsight.expr ha)
        (hown (k + 1) (by omega) (by simp [Stmt.items])) rfl hb), rfl⟩
  | expr x =>
    refine .run fun l st1 hx => .pure ⟨0, fun own _ henv => ?_⟩
    subst henv
    exact ⟨.part hsight hx (infix_refl _) .nil, rfl⟩

lemma lowerStmts_makes (ss : List (Stmt Note)) (hsight : Sighted env' st) :
    Ends (lowerStmts c func env' [] ss) st
    (fun r st' => ∃ reg : Nat → Nat, ∀ own : Nat → Nat, (∀ i, k ≤ i → own i = reg i) →
      env' = extend own bound env → Makes c func env own r.1 k st (stmtsItems k bound ss) st' ∧
        r.2 = extend own (boundAfter k bound ss) env) := by
  induction ss generalizing env' k bound st with
  | nil =>
    exact .pure ⟨fun _ => 0, fun own _ henv => ⟨.nil, henv⟩⟩
  | cons s ss ih =>
    rw [lowerStmts_cons]
    refine .run fun r st1 hrun => ?_
    obtain ⟨reg, hs⟩ := (lowerStmt_makes c func env k bound st s hsight).ok hrun
    refine .bind ((ih (k + (s.items k bound).length) (s.binds k ++ bound) st1
      (hsight.stmt hrun)).imp (fun r' st2 hss => ?_) fun _ h => h)
    obtain ⟨regs, hss⟩ := hss
    -- The registers of the first statement come before those of the others.
    refine .pure ⟨fun i => if i < k + (s.items k bound).length then reg else regs i,
      fun own hown henv => ?_⟩
    obtain ⟨hmakes, henv'⟩ := hs own (fun i hi hlt => (hown i hi).trans (if_pos hlt)) henv
    obtain ⟨hmakes', henv''⟩ := hss own
      (fun i hi => (hown i (by omega)).trans (if_neg (by omega))) henv'
    exact ⟨(hmakes.mono (prefix_append _ _).isInfix).append
      (hmakes'.mono (suffix_append _ _).isInfix), henv''⟩

/-- **The items of an expression are made one after the other.** -/
theorem lowerExpr_makes (hc : c.note = id) (x : Expr Note) (hsight : Sighted env st) :
    Ends (lowerExpr c func env x) st
      (fun l st' => ∃ own, Makes c func env own l.code 0 st x.items st') := by
  by_cases hx : ∀ b, x ≠ .block b
  · rw [Expr.items_eq_parts hx]
    refine (expr_laid c func x hsight).mono ?_
    rintro l st' ⟨parts, last, ⟨⟨J, hparts, -⟩, hcode, hnodes⟩, -, henvs⟩
    rw [envs_expr hx] at henvs
    exact ⟨fun _ => 0, hparts.makes (hnodes.trans (parts_expr hx hc)) henvs [] hcode 0⟩
  · obtain ⟨⟨s, n, ss, v⟩, rfl⟩ : ∃ b, x = .block b := by simpa using hx
    rw [lowerExpr, lowerBlock]
    refine .run fun r st1 hrun => ?_
    obtain ⟨regs, hss⟩ := (lowerStmts_makes c func env 0 [] st ss hsight).ok hrun
    obtain ⟨hmakes, henv⟩ := hss regs (fun _ _ => rfl) rfl
    cases v with
    | none => exact .pure ⟨regs, by simpa [Expr.items] using hmakes⟩
    | some v =>
      have hsight1 := ((stmts_lined ss hsight).ok hrun).1
      refine .run fun l st2 hv => ?_
      rw [henv] at hv hsight1
      refine (Makes.widen ?_).mono (fun l' st' h => ⟨regs, h⟩)
      exact (hmakes.mono (prefix_append _ _).isInfix).append
        (.part hsight1 hv (suffix_append _ _).isInfix .nil)

end Blocks

/-! ### The registers of all declarations -/

section Allocation

variable (c : Context Note) (func : Bytes) (env : Env) (code : Code) (st st' : State)

/-- A lowering makes an expression from `st` to `st'`, with its code among the given one. -/
def Within (z : Expr Note) : Prop :=
  ∃ st1 l st2, Grown func st st1 ∧ Sighted env st1 ∧ (lowerExpr c func env z).run st1 =
    .ok (l, st2) ∧
    Grown func st2 st' ∧ l.code <:+: code

/-- A register is taken between `st` and `st'`, and the code at `span` gives it a value. -/
structure Taken (span : Span) (r : Nat) : Prop where
  new : st.numVars ≤ r
  lt : r < st'.numVars
  written : ∃ i, ⟨span, i⟩ ∈ code ∧ i.dst? = some r

variable {func code st st'} in
lemma Taken.mono {span : Span} {r : Nat} (h : Taken code st st' span r) (hcode : code <:+: code')
    (hst : Grown func st0 st) (hst' : Grown func st' st1) : Taken code' st0 st1 span r := by
  obtain ⟨i, hi, hdst⟩ := h.written
  exact ⟨hst.regs.trans h.new, h.lt.trans_le hst'.regs, i, hcode.subset hi, hdst⟩

/-- All declarations of items have registers of their own, and every expression is made in the
environment of these registers. -/
structure Allocates (items : List Item) (reg : Declaration → Nat) : Prop where
  within : ∀ {S : Sight} {z : Expr Note}, Stands items S z →
    Within c func (S.env reg ++ env) code st st' z
  taken : ∀ {d span name binder}, Declares items d span name binder →
    Taken code st st' span (reg d)
  distinct : Set.InjOn reg {d | Declared items d}

variable {c func env code st st'} {f : Nat → State}

lemma Within.mono {z : Expr Note} (h : Within c func env code st st' z) (hcode : code <:+: code')
    (hst : Grown func st0 st) (hst' : Grown func st' st1) : Within c func env code' st0 st1 z := by
  obtain ⟨st2, l, st3, hle, henv, hrun, hle', hl⟩ := h
  exact ⟨st2, l, st3, hst.trans hle, henv, hrun, hle'.trans hst', hl.trans hcode⟩

lemma Allocates.mono {reg : Declaration → Nat} (h : Allocates c func env code st st' items reg)
    (hcode : code <:+: code') (hst : Grown func st0 st) (hst' : Grown func st' st1) :
    Allocates c func env code' st0 st1 items reg :=
  ⟨fun hz => (h.within hz).mono hcode hst hst', fun hd => (h.taken hd).mono hcode hst
    hst', h.distinct⟩

/-- What an item has become in code. -/
def Item.Made (c : Context Note) (func : Bytes) (env : Env) (own : Nat → Nat) (code : Code)
    (k : Nat) (st st' : State) : Item → Prop
  | .part bound y => Within c func (extend own bound env) code st st' y
  | .decl span _ _ => Taken code st st' span (own k)

/-- States between which items are made, the first of which has the index `k`. -/
def Between (c : Context Note) (func : Bytes) (env : Env) (own : Nat → Nat) (code : Code) (k : Nat)
    (items : List Item) (f : Nat → State) : Prop :=
  ∀ i item, items[i]? = some item →
    Grown func (f i) (f (i + 1)) ∧ Item.Made c func env own code (k + i) (f i) (f (i + 1)) item

lemma Between.cons {item : Item} (h : Between c func env own code (k + 1) items f)
    (hle : Grown func st (f 0)) (hitem : Item.Made c func env own code k st (f 0) item) :
    Between c func env own code k (item :: items) fun | 0 => st | i + 1 => f i := by
  intro i item' hi
  cases i with
  | zero =>
    cases hi
    exact ⟨hle, hitem⟩
  | succ i =>
    have := h i item' hi
    rwa [add_assoc, add_comm 1] at this

lemma Between.le (h : Between c func env own code k items f) {i j : Nat} (hij : i ≤ j)
    (hj : j ≤ items.length) : Grown func (f i) (f j) := by
  induction hij with
  | refl => exact .refl _
  | step _ ih => exact (ih (Nat.le_of_succ_le hj)).trans (h _ _ (getElem?_eq_getElem hj)).1

lemma Makes.between (h : Makes c func env own code k st items st') :
    ∃ f, Grown func st (f 0) ∧ Grown func (f items.length) st' ∧
    Between c func env own code k items f := by
  induction h with
  | @nil k st => exact ⟨fun _ => st, .refl st, .refl st, nofun⟩
  | skip hle _ ih =>
    obtain ⟨f, hstart, hend, hf⟩ := ih
    exact ⟨f, hle.trans hstart, hend, hf⟩
  | @part _ _ _ _ _ _ y l henv hrun hl _ ih =>
    obtain ⟨f, hstart, hend, hf⟩ := ih
    have hle := Chunk.Made.grown (x := .ofExpr y _ _ l _) hrun henv
    exact ⟨_, .refl _, hend, hf.cons (hle.trans hstart) ⟨_, _, _, .refl _, henv, hrun, hstart, hl⟩⟩
  | decl hle hnew hlt hi _ ih =>
    obtain ⟨f, hstart, hend, hf⟩ := ih
    exact ⟨_, .refl _, hend, hf.cons (hle.trans hstart) ⟨hnew, hlt.trans_le hstart.regs, hi⟩⟩

/-- **Registers for all declarations of items**, from those of the parts. -/
theorem Between.allocates (h : Between c func env own code 0 items f)
    (hparts : ∀ bound y, .part bound y ∈ items → ∀ {env code st st'},
      Within c func env code st st' y → ∃ reg, Allocates c func env code st st' y.items reg) :
    ∃ reg, Allocates c func env code (f 0) (f items.length) items reg := by
  have hinner : ∀ k, ∃ reg, ∀ bound y, items[k]? = some (.part bound y) →
      Allocates c func (extend own bound env) code (f k) (f (k + 1)) y.items reg := by
    intro k
    cases hk : items[k]? with
    | none => exact ⟨fun _ => 0, nofun⟩
    | some item =>
      cases item with
      | decl => exact ⟨fun _ => 0, nofun⟩
      | part bound y =>
        obtain ⟨reg, hreg⟩ := hparts bound y (mem_of_getElem? hk) (h k _ hk).2
        exact ⟨reg, by rintro _ _ ⟨⟩; exact hreg⟩
  choose inner hinner using hinner
  have hlt : ∀ {k item}, items[k]? = some item → k < items.length :=
    fun hk => (List.getElem?_eq_some_iff.mp hk).1
  -- The registers of different items are taken between different states.
  have htaken : ∀ {d span name binder}, Declares items d span name binder →
      d.item < items.length ∧ Taken code (f d.item) (f (d.item + 1)) span (joined own inner d) := by
    intro d span name binder hd
    cases hd with
    | own hk =>
      have := (h _ _ hk).2
      rw [zero_add] at this
      exact ⟨hlt hk, this⟩
    | inside hk hd => exact ⟨hlt hk, (hinner _ _ _ hk).taken hd⟩
  refine ⟨joined own inner, fun {S z} hz => ?_, fun {d} _ _ _ hd => ?_, ?_⟩
  · cases hz with
    | part hk =>
      rw [Sight.env_own]
      exact (h _ _ hk).2.mono (infix_refl _) (h.le (Nat.zero_le _) (hlt hk).le)
        (h.le (hlt hk) (le_refl _))
    | inside hk hz =>
      rw [Sight.env_append, Sight.env_under, Sight.env_own, append_assoc]
      exact ((hinner _ _ _ hk).within hz).mono (infix_refl _)
        (h.le (Nat.zero_le _) (hlt hk).le) (h.le (hlt hk) (le_refl _))
  · obtain ⟨hlt, htaken⟩ := htaken hd
    exact htaken.mono (infix_refl _) (h.le (Nat.zero_le _) hlt.le) (h.le hlt (le_refl _))
  · have hless : ∀ {d d'}, Declared items d → Declared items d' →
        d.item < d'.item → joined own inner d ≠ joined own inner d' := by
      rintro d d' ⟨_, _, _, hd⟩ ⟨_, _, _, hd'⟩ hlt
      obtain ⟨-, htaken1⟩ := htaken hd
      obtain ⟨hlen, htaken2⟩ := htaken hd'
      have hstates : (f (d.item + 1)).numVars ≤ (f d'.item).numVars := (h.le hlt hlen.le).regs
      have hlast := htaken1.lt
      have hfirst := htaken2.new
      omega
    rintro d hd d' hd' heq
    have hitem : d.item = d'.item := by
      rcases lt_trichotomy d.item d'.item with hlt | heq' | hlt
      · exact absurd heq (hless hd hd' hlt)
      · exact heq'
      · exact absurd heq.symm (hless hd' hd hlt)
    obtain ⟨_, _, _, hd⟩ := hd
    obtain ⟨_, _, _, hd'⟩ := hd'
    cases hd with
    | own hk =>
      cases hd' with
      | own hk' =>
        cases hitem
        rfl
      | inside hk' hd' =>
        cases hitem
        cases hk.symm.trans hk'
    | inside hk hd =>
      cases hd' with
      | own hk' =>
        cases hitem
        cases hk.symm.trans hk'
      | inside hk' hd' =>
        cases hitem
        cases hk.symm.trans hk'
        rw [(hinner _ _ _ hk).distinct ⟨_, _, _, hd⟩ ⟨_, _, _, hd'⟩ heq]

/-- **An expression is lowered with a register for each of its declarations.** -/
theorem lowerExpr_allocates (hc : c.note = id) (x : Expr Note) :
    ∀ {env st l st'}, Sighted env st →
      (lowerExpr c func env x).run st = .ok (l, st') →
      ∃ reg, Allocates c func env l.code st st' x.items reg := by
  induction x using Expr.induction_parts with
  | h x ih =>
    intro env st l st' hsight hrun
    obtain ⟨own, hmakes⟩ := (lowerExpr_makes c func env st hc x hsight).ok hrun
    obtain ⟨f, hstart, hend, hf⟩ := hmakes.between
    obtain ⟨reg, hreg⟩ := hf.allocates fun bound y hy _ _ _ _ hwithin => by
      obtain ⟨st1, l, st2, hle, henv, hrun, hle', hl⟩ := hwithin
      obtain ⟨reg, hreg⟩ := ih bound y hy henv hrun
      exact ⟨reg, hreg.mono hl hle hle'⟩
    exact ⟨reg, hreg.mono (infix_refl _) hstart hend⟩

end Allocation

/-! ### Names -/

section Names

variable {st : State} {x : Bytes}

/-- What becomes of an expression that has the value of an operand: nothing but a conversion. -/
inductive Uses (s : Span) (v : Operand) : Lowered → Prop where
  | same : Uses s v ⟨[], some v⟩
  | converted (d : Nat) : Uses s v ⟨[⟨s, .unary d (.known .toFloat) v⟩], some (.reg d)⟩

lemma widen_uses {v : Operand} : Ends (widen c s n ⟨[], some v⟩) st (fun l _ => Uses s v l) := by
  unfold widen
  split
  · rename_i hv _
    cases hv
    exact .bind (.newReg (.pure (.converted _)))
  · exact .pure .same

lemma lowerExpr_var : Ends (lowerExpr c func env (.var s n x)) st (fun l _ =>
    match env.lookup x with
    | some r => Uses s (.reg r) l
    | none => x ∈ c.funcs ∧ Uses s (.lit (.func x)) l) := by
  rw [lowerExpr]
  unfold Lowering.name
  cases env.lookup x with
  | some r => exact .bind (.pure widen_uses)
  | none =>
    dsimp only
    split
    · rename_i hx
      exact .bind (.pure (widen_uses.mono (fun _ _ h => ⟨hx, h⟩)))
    · exact .bind (.throw trivial)

/-- An assignment to a name writes the register of the innermost variable of that name. -/
theorem lowerExpr_assignVar {ts : Span} {tn : Note} {v : Expr Note} :
    Ends (lowerExpr c func env (.assign s n (.var ts tn x) v)) st
      (fun l _ => ∃ r, env.lookup x = some r ∧ ∃ w, ⟨s, .assign r w⟩ ∈ l.code) := by
  rw [lowerExpr]
  split
  · exact .throw trivial
  · rename_i r hr
    refine ends_value fun vc w st1 _ => .pure ⟨r, hr, w, ?_⟩
    exact mem_append_right _ (mem_singleton.mpr rfl)

end Names

/-! ### Functions -/

section Functions

variable {params : List Param} {body : Block Note} {fs : List Func}

/-- All declarations of a function have registers of their own, those of the parameters coming
first, and every expression is lowered in the environment of these registers. -/
structure Registers (c : Context Note) (name : Bytes) (params : List Param) (body : Block Note)
    (code : Code) (st : State) (reg : Declaration → Nat) : Prop where
  within : ∀ {S : Sight} {z : Expr Note}, Stands (functionItems params body) S z →
    Within c name (S.env reg) code (.start params.length) st z
  param : ∀ j < params.length, reg ⟨[], j⟩ = j
  written : ∀ {d span x binder}, Declares (functionItems params body) d span x binder →
    d.inside ≠ [] → ∃ i, ⟨span, i⟩ ∈ code ∧ i.dst? = some (reg d)
  distinct : Set.InjOn reg {d | Declared (functionItems params body) d}

lemma map_paramEnv : (params.zipIdx.map fun (p, i) => (p.name.text, i)).reverse.map
    (fun b => (b.1, id b.2)) = paramEnv params := by
  simp [paramEnv]

/-- **The lowering of a function has registers for its declarations.** -/
theorem lowerBlock_registers (hc : c.note = id) {name : Bytes} {st : State}
    (h : (lowerBlock c name (paramEnv params) body).run (.start params.length) = .ok (l, st)) :
    ∃ reg, Registers c name params body l.code st reg := by
  rw [← lowerExpr_block] at h
  have hsight := Sighted.params params
  obtain ⟨inner, hinner⟩ := lowerExpr_allocates hc _ hsight h
  refine ⟨joined id fun _ => inner, ?_, fun _ _ => rfl, ?_, ?_⟩
  · intro S z hz
    cases hz with
    | part hk =>
      obtain ⟨_, _, ⟨⟩⟩ | ⟨-, ⟨⟩⟩ := getElem?_functionItems hk
      rw [Sight.env_own, map_paramEnv]
      exact ⟨_, l, st, .refl _, hsight, h, .refl _, infix_refl _⟩
    | inside hk hz =>
      obtain ⟨_, _, ⟨⟩⟩ | ⟨-, ⟨⟩⟩ := getElem?_functionItems hk
      rw [Sight.env_append, Sight.env_under, Sight.env_own, map_paramEnv]
      exact hinner.within hz
  · intro d span x binder hd hne
    cases hd with
    | own => exact absurd rfl hne
    | inside hk hd =>
      obtain ⟨_, _, ⟨⟩⟩ | ⟨-, ⟨⟩⟩ := getElem?_functionItems hk
      exact (hinner.taken hd).written
  · -- The registers of the parameters are below those of the body.
    have hparam : ∀ {k span x binder},
        (functionItems params body)[k]? = some (.decl span x binder) → k < params.length := by
      intro k span x binder hk
      obtain ⟨p, hp, -⟩ | ⟨-, ⟨⟩⟩ := getElem?_functionItems hk
      exact (List.getElem?_eq_some_iff.mp hp).1
    have hinside : ∀ {k bound y},
        (functionItems params body)[k]? = some (.part bound y) →
          k = params.length ∧ y = .block body := by
      intro k bound y hk
      obtain ⟨_, _, ⟨⟩⟩ | ⟨rfl, ⟨⟩⟩ := getElem?_functionItems hk
      exact ⟨rfl, rfl⟩
    rintro d ⟨_, _, _, hd⟩ d' ⟨_, _, _, hd'⟩ heq
    cases hd with
    | own hk =>
      cases hd' with
      | own hk' =>
        cases heq
        rfl
      | inside hk' hd' =>
        obtain ⟨-, rfl⟩ := hinside hk'
        exact absurd heq (((hparam hk).trans_le (hinner.taken hd').new).ne)
    | inside hk hd =>
      obtain ⟨rfl, rfl⟩ := hinside hk
      cases hd' with
      | own hk' => exact absurd heq.symm (((hparam hk').trans_le (hinner.taken hd).new).ne)
      | inside hk' hd' =>
        obtain ⟨rfl, rfl⟩ := hinside hk'
        rw [hinner.distinct ⟨_, _, _, hd⟩ ⟨_, _, _, hd'⟩ heq]

/-- **Every function of a program is lowered from the start**, be it declared or a function literal,
and is in the program with the functions made from the literals inside. -/
theorem FunctionOf.lowered (hc : c.note = id) {p : Minilang.Program Note}
    (hfs : lowerFuncs c [] p.funcs = .ok fs) {name? : Option Bytes}
    (hf : FunctionOf p name? params body) : ∃ name l st, (∀ x, name? = some x → name = x) ∧
      (lowerBlock c name (paramEnv params) body).run (.start params.length) = .ok (l, st) ∧
        assemble name params body.span l st ⊆ fs := by
  induction hf with
  | @declared f hf =>
    obtain ⟨l, st, hrun, hsub⟩ := lowerFuncs_mem hfs f hf
    exact ⟨_, l, st, fun _ hx => Option.some.inj hx, hrun, hsub⟩
  | literal _ hz ih =>
    obtain ⟨name, l, st, -, hrun, hsub⟩ := ih
    obtain ⟨reg, hreg⟩ := lowerBlock_registers hc hrun
    obtain ⟨st1, l1, st2, -, -, hrun1, hle, -⟩ := hreg.within hz
    obtain ⟨-, name', l', st', hrun', hsub'⟩ := lambda_lined.ok hrun1
    refine ⟨name', l', st', nofun, hrun', fun f hf => hsub ?_⟩
    exact mem_cons_of_mem _ (mem_reverse.mpr (hle.subset (hsub' hf)))

end Functions

end Minilang.Tac.Lowering
