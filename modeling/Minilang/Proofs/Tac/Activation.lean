import Minilang.Proofs.Tac.Pieces
import Minilang.Proofs.Tac.Semantics
import Mathlib.Logic.Relation

/-!
# A call of a function, from the inside

While a call runs, the functions that it calls come and go above it.  What it sees of them is one
instruction: the call goes on behind it, with one register written.  So a run of a call is a walk
through the places of its own function (`Runs`), and every step of the walk goes to the next place
or to the target of a jump, and writes at most the register of its instruction (`Runs.own_cases`).
-/

namespace Minilang.Tac

open List

variable {p : Program} {cap : Int}

/-! ### What a step does to the calls -/

variable {i : Instr} {c : Call} {s t s' : State} {v : Value}

/-- What an instruction does to its call: it writes at most its own register, and goes on behind
itself or at the label that it jumps to. -/
structure Advances (i : Instr) (c c' : Call) : Prop where
  func : c'.func = c.func
  pc : c'.pc = c.pc + 1 ∨
    ∃ l, i.target? = some l ∧ c'.pc = (c.func.place? l).getD c.func.body.length
  regs : ∀ r, i.dst? ≠ some r → c'.regs r = c.regs r

/-- The next instruction returns from the call, or there is none left. -/
def Call.Returns (c : Call) : Prop :=
  ∀ i, c.instr? = some i → ∃ x, i.val = .ret x

/-- What a step does to the calls of a program. -/
inductive Moves (s s' : State) : Prop where
  | within {i : Located Instr} (hi : s.call.instr? = some i)
      (hcallers : s'.callers = s.callers) (h : Advances i.val s.call s'.call)
  | call {i : Located Instr} {d : Nat} {f : Operand} {args : List Operand}
      (hi : s.call.instr? = some i) (hval : i.val = .call d f args)
      (hcallers : s'.callers = ({ s.call with pc := s.call.pc + 1 }, d) :: s.callers)
  | ret {caller : Call} {r : Nat} {v : Value}
      (hs : s.call.Returns) (hcallers : s.callers = (caller, r) :: s'.callers)
      (hcall : s'.call = caller.write r v)

lemma Advances.next : Advances i c { c with pc := c.pc + 1 } :=
  ⟨rfl, .inl rfl, fun _ _ => rfl⟩

lemma Advances.write {d : Nat} (hd : i.dst? = some d) (v : Value) :
    Advances i c (Call.write { c with pc := c.pc + 1 } d v) := by
  refine ⟨rfl, .inl rfl, fun r hr => ?_⟩
  have hne : r ≠ d := fun heq => hr (heq ▸ hd)
  exact Function.update_of_ne hne v c.regs

lemma Advances.jump {l : Bytes} (hl : i.target? = some l) :
    Advances i c { c with pc := (c.func.place? l).getD c.func.body.length } :=
  ⟨rfl, .inr ⟨l, hl, rfl⟩, fun _ _ => rfl⟩

lemma leave_moves (hs : s.call.Returns) (hcallers : t.callers = s.callers)
    (h : t.leave v = (none, s')) : Moves s s' := by
  unfold State.leave at h
  split at h
  · cases h
  · rename_i caller r callers heq
    cases h
    exact .ret hs (hcallers.symm.trans heq) rfl

lemma ok_of_bind {ε α β : Type} {x : Except ε α} {f : α → Except ε β} {b : β}
    (h : (x >>= f) = .ok b) : ∃ a, x = .ok a ∧ f a = .ok b := by
  cases x with
  | error e => cases h
  | ok a => exact ⟨a, rfl, h⟩

lemma execute_moves {i : Located Instr} (hi : s.call.instr? = some i)
    (h : execute p cap (s.goTo (s.call.pc + 1)) i.val = .ok (none, s')) : Moves s s' := by
  have hreturns : ∀ x, i.val = .ret x → s.call.Returns := by
    intro x hx j hj
    rw [hi] at hj
    cases hj
    exact ⟨x, hx⟩
  have hwrite : ∀ d v t, i.val.dst? = some d →
      t.callers = s.callers → t.call = Call.write { s.call with pc := s.call.pc + 1 } d v →
      Moves s t := by
    intro d v t hd hcallers hcall
    exact .within hi hcallers (hcall ▸ .write hd v)
  obtain ⟨span, i⟩ := i
  cases i with
  | assign d x =>
    cases h
    exact hwrite d _ _ rfl rfl rfl
  | binary d op x y =>
    obtain ⟨v, -, h⟩ := ok_of_bind h
    cases h
    exact hwrite d v _ rfl rfl rfl
  | unary d op x =>
    obtain ⟨v, -, h⟩ := ok_of_bind h
    cases h
    exact hwrite d v _ rfl rfl rfl
  | call d f args =>
    obtain ⟨g, -, h⟩ := ok_of_bind h
    obtain ⟨t, henter, h⟩ := ok_of_bind h
    cases h
    unfold enter at henter
    split at henter
    · cases henter
    · split at henter
      · cases henter
      · cases henter
        exact .call hi rfl rfl
  | ret x =>
    cases x with
    | none => exact leave_moves (t := s.goTo (s.call.pc + 1)) (hreturns _ rfl) rfl (Except.ok.inj h)
    | some x =>
      exact leave_moves (t := s.goTo (s.call.pc + 1)) (hreturns _ rfl) rfl (Except.ok.inj h)
  | jumpUnless x l =>
    obtain ⟨b, -, h⟩ := ok_of_bind h
    cases b with
    | true =>
      cases h
      exact .within hi rfl .next
    | false =>
      cases h
      exact .within hi rfl (.jump rfl)
  | jump l =>
    cases h
    exact .within hi rfl (.jump rfl)
  | label l =>
    cases h
    exact .within hi rfl .next
  | array d xs =>
    cases h
    exact hwrite d _ _ rfl rfl rfl
  | index d x y =>
    obtain ⟨⟨ref, n⟩, -, h⟩ := ok_of_bind h
    cases h
    exact hwrite d _ _ rfl rfl rfl
  | setIndex x y z =>
    obtain ⟨⟨ref, n⟩, -, h⟩ := ok_of_bind h
    cases h
    exact .within hi rfl .next
  | field d x name =>
    obtain ⟨⟨ref, v⟩, -, h⟩ := ok_of_bind h
    cases h
    exact hwrite d v _ rfl rfl rfl
  | setField x name y =>
    obtain ⟨⟨ref, v⟩, -, h⟩ := ok_of_bind h
    cases h
    exact .within hi rfl .next
  | record d type names values =>
    cases h
    exact hwrite d _ _ rfl rfl rfl
  | print x =>
    cases h
    exact .within hi rfl .next

/-- **What a step does to the calls of a program.** -/
theorem step_moves (h : step p cap s = .ok (none, s')) : Moves s s' := by
  unfold step at h
  split at h
  · rename_i hi
    refine leave_moves (fun i hi' => ?_) rfl (Except.ok.inj h)
    rw [hi] at hi'
    cases hi'
  · rename_i i hi
    split at h
    · rename_i r hr
      cases h
      exact execute_moves hi hr
    · cases h

lemma leave_result {w : Value} (h : s.leave v = (some w, t)) : s.callers = [] := by
  unfold State.leave at h
  split at h
  · assumption
  · cases h

lemma execute_result (h : execute p cap s i = .ok (some v, t)) :
    s.callers = [] ∧ ∃ x, i = .ret x := by
  cases i with
  | ret x =>
    cases x with
    | none => exact ⟨leave_result (Except.ok.inj h), none, rfl⟩
    | some x => exact ⟨leave_result (Except.ok.inj h), some x, rfl⟩
  | binary | unary | jumpUnless =>
    obtain ⟨_, -, h⟩ := ok_of_bind h
    cases h
  | call =>
    obtain ⟨_, -, h⟩ := ok_of_bind h
    obtain ⟨_, -, h⟩ := ok_of_bind h
    cases h
  | index | setIndex | field | setField =>
    obtain ⟨_, -, h⟩ := ok_of_bind h
    cases h
  | assign | jump | label | array | record | print => cases h

lemma step_result (h : step p cap s = .ok (some v, t)) : s.callers = [] ∧ s.call.Returns := by
  unfold step at h
  split at h
  · rename_i hi
    refine ⟨leave_result (Except.ok.inj h), fun i hi' => ?_⟩
    rw [hi] at hi'
    cases hi'
  · rename_i i hi
    split at h
    · rename_i r hr
      cases h
      obtain ⟨hcallers, hret⟩ := execute_result hr
      refine ⟨hcallers, fun j hj => ?_⟩
      rw [hi] at hj
      cases hj
      exact hret
    · cases h

/-! ### The walk of a call -/

/-- A program goes from one state to another, and the call with `depth` calls around it is not left.
The list has the places of the instructions that this call itself executes. -/
inductive Runs (p : Program) (cap : Int) (depth : Nat) : State → List Nat → State → Prop where
  | refl {s : State} (hs : depth ≤ s.callers.length) : Runs p cap depth s [] s
  | own {s s1 s' : State} {pcs : List Nat} (hs : s.callers.length = depth)
      (hstep : step p cap s = .ok (none, s1)) (h : Runs p cap depth s1 pcs s') :
      Runs p cap depth s (s.call.pc :: pcs) s'
  | inner {s s1 s' : State} {pcs : List Nat} (hs : depth < s.callers.length)
      (hstep : step p cap s = .ok (none, s1)) (h : Runs p cap depth s1 pcs s') :
      Runs p cap depth s pcs s'

namespace Runs

variable {depth : Nat} {s s1 s2 s' : State} {pcs pcs1 pcs2 : List Nat} {r : Nat}

variable (h : Runs p cap depth s pcs s')

include h

lemma depth_le : depth ≤ s.callers.length ∧ depth ≤ s'.callers.length := by
  induction h with
  | refl hs => exact ⟨hs, hs⟩
  | own hs _ _ ih => exact ⟨hs.ge, ih.2⟩
  | inner hs _ _ ih => exact ⟨hs.le, ih.2⟩

omit h in
lemma trans (h : Runs p cap depth s pcs1 s1) (h' : Runs p cap depth s1 pcs2 s') :
    Runs p cap depth s (pcs1 ++ pcs2) s' := by
  induction h with
  | refl => exact h'
  | own hs hstep _ ih => exact .own hs hstep (ih h')
  | inner hs hstep _ ih => exact .inner hs hstep (ih h')

omit h in
lemma single (hs : s.callers.length = depth) (hstep : step p cap s = .ok (none, s'))
    (hs' : depth ≤ s'.callers.length) : Runs p cap depth s [s.call.pc] s' :=
  .own hs hstep (.refl hs')

omit h in
/-- There is one walk only: of two from the same state, one goes on where the other ends. -/
theorem linear (h1 : Runs p cap depth s pcs1 s1) (h2 : Runs p cap depth s pcs2 s2) :
    (∃ pcs, Runs p cap depth s1 pcs s2 ∧ pcs2 = pcs1 ++ pcs) ∨
      ∃ pcs, Runs p cap depth s2 pcs s1 ∧ pcs1 = pcs2 ++ pcs := by
  induction h1 generalizing pcs2 with
  | refl hs => exact .inl ⟨pcs2, h2, rfl⟩
  | @own s t s1 pcs1 hs hstep h1 ih =>
    cases h2 with
    | refl hs2 => exact .inr ⟨_, .own hs hstep h1, rfl⟩
    | own _ hstep' h2 =>
      rw [hstep] at hstep'
      cases hstep'
      rcases ih h2 with ⟨pcs, h, heq⟩ | ⟨pcs, h, heq⟩
      · exact .inl ⟨pcs, h, by rw [heq, cons_append]⟩
      · exact .inr ⟨pcs, h, by rw [heq, cons_append]⟩
    | inner hs' => exact absurd hs hs'.ne'
  | @inner s t s1 pcs1 hs hstep h1 ih =>
    cases h2 with
    | refl hs2 => exact .inr ⟨_, .inner hs hstep h1, rfl⟩
    | own hs' => exact absurd hs' hs.ne'
    | inner _ hstep' h2 =>
      rw [hstep] at hstep'
      cases hstep'
      exact ih h2

/-- **What is above a call comes to its end, or goes on for the rest of the run.**  The call waits
for the result, and nothing else of it changes. -/
theorem wait {inner around : List (Call × Nat)} (hs : s.callers = inner ++ (c, r) :: around)
    (hdepth : around.length = depth) : (pcs = [] ∧ depth < s'.callers.length) ∨
      ∃ t v, Runs p cap depth s [] t ∧ t.callers = around ∧
        t.call = c.write r v ∧ Runs p cap depth t pcs s' := by
  induction h generalizing inner with
  | refl =>
    refine .inl ⟨rfl, ?_⟩
    rw [hs, length_append, length_cons]
    omega
  | own hlen =>
    rw [hs, length_append, length_cons] at hlen
    omega
  | @inner s s1 s' pcs hlen hstep h ih =>
    have hgo : (∃ inner, s1.callers = inner ++ (c, r) :: around) →
        (pcs = [] ∧ depth < s'.callers.length) ∨
          ∃ t v, Runs p cap depth s [] t ∧ t.callers = around ∧
            t.call = c.write r v ∧ Runs p cap depth t pcs s' := by
      rintro ⟨inner', hs1⟩
      rcases ih hs1 with hstill | ⟨t, v, hruns, ht⟩
      · exact .inl hstill
      · exact .inr ⟨t, v, .inner hlen hstep hruns, ht⟩
    cases step_moves hstep with
    | within hi hcallers _ => exact hgo ⟨inner, hcallers.trans hs⟩
    | @call i d f args hi hval hcallers =>
      exact hgo ⟨({ s.call with pc := s.call.pc + 1 }, d) :: inner, by rw [hcallers, hs]; rfl⟩
    | ret _ hcallers hcall =>
      rw [hs] at hcallers
      cases inner with
      | nil =>
        -- The call that returns is the one right above.
        cases hcallers
        exact .inr ⟨s1, _, .inner hlen hstep (.refl hdepth.ge), rfl, hcall, h⟩
      | cons e inner =>
        rw [cons_append, cons.injEq] at hcallers
        exact hgo ⟨inner, hcallers.2.symm⟩

/-- **The first step of a walk.**  There is none, or the call still waits for the result of its
first instruction, or it goes on with what this instruction does to it. -/
theorem own_cases (hs : s.callers.length = depth) :
    (pcs = [] ∧ s' = s) ∨ (pcs = [s.call.pc] ∧ depth < s'.callers.length) ∨
      ∃ i t pcs', s.call.instr? = some i ∧ pcs = s.call.pc :: pcs' ∧
        Runs p cap depth s [s.call.pc] t ∧ t.callers = s.callers ∧
        Advances i.val s.call t.call ∧ Runs p cap depth t pcs' s' := by
  cases h with
  | refl => exact .inl ⟨rfl, rfl⟩
  | inner hlen => exact absurd hs hlen.ne'
  | @own _ s1 _ pcs' _ hstep h =>
    cases step_moves hstep with
    | @within i hi hcallers hadvances =>
      exact .inr (.inr ⟨i, s1, pcs', hi, rfl, .single hs hstep h.depth_le.1,
        hcallers, hadvances, h⟩)
    | @call i d f args hi hval hcallers =>
      rcases h.wait (show s1.callers = [] ++ _ from hcallers) hs
        with ⟨rfl, hdeep⟩ | ⟨t, v, hruns, hcallers', hcall, h'⟩
      · exact .inr (.inl ⟨rfl, hdeep⟩)
      · refine .inr (.inr ⟨i, t, pcs', hi, rfl, .own hs hstep hruns, hcallers', ?_, h'⟩)
        rw [hcall]
        exact .write (by rw [hval]; rfl) v
    | ret _ hcallers _ =>
      have hle := h.depth_le.1
      have hlen := congrArg length hcallers
      rw [length_cons] at hlen
      omega

/-- **A register keeps its value unless an instruction of the walk writes it.** -/
theorem regs_eq (hs : s.callers.length = depth) (hs' : s'.callers.length = depth)
    (hr : ∀ pc ∈ pcs, ∀ i, s.call.func.body[pc]? = some i → i.val.dst? ≠ some r) :
    s'.callers = s.callers ∧ s'.call.func = s.call.func ∧ s'.call.regs r = s.call.regs r := by
  induction pcs generalizing s with
  | nil =>
    rcases h.own_cases hs with ⟨-, rfl⟩ | ⟨hpcs, -⟩ | ⟨_, _, _, -, hpcs, -⟩
    · exact ⟨rfl, rfl, rfl⟩
    · cases hpcs
    · cases hpcs
  | cons pc pcs ih =>
    rcases h.own_cases hs with ⟨hpcs, -⟩ | ⟨-, hdeep⟩ | ⟨i, t, _, hi, hpcs, -, hcallers, ha, ht⟩
    · cases hpcs
    · exact absurd hs' hdeep.ne'
    · cases hpcs
      obtain ⟨h1, h2, h3⟩ := ih ht (hcallers ▸ hs) fun pc hpc j hj =>
        hr pc (mem_cons_of_mem _ hpc) j (ha.func ▸ hj)
      exact ⟨h1.trans hcallers, h2.trans ha.func,
        h3.trans (ha.regs r (hr _ mem_cons_self i hi))⟩

end Runs

end Minilang.Tac
