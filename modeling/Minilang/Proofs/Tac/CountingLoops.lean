import Minilang.Proofs.Tac.Nesting
import Mathlib.Tactic.IntervalCases

/-!
# Loops that count

A `for` statement counts in a register of its own, up to a limit in another one.  The body writes
neither, whatever it assigns, so the counter has the value `c + k` when the body is entered for the
time `k`, counted from 0, and the loop is left after as many rounds as there are numbers from `c` up
to the limit, unless a round returns or fails (`Counted`).  The counter stays below the limit until
it is left, so it never overflows.

In a loop over an array the counter is an index.  No step changes the size of an array, so the index
is in bounds (`Runs.sizes`).
-/

namespace Minilang

open List

/-! ### Arrays keep their sizes -/

/-- Every array with elements has the same number of elements later. -/
def Heap.SizesKept (h h' : Heap) : Prop :=
  ∀ ref, 0 < (h.elems ref).size → (h'.elems ref).size = (h.elems ref).size

namespace Heap.SizesKept

variable {h h' h'' : Heap}

lemma refl (h : Heap) : h.SizesKept h := fun _ _ => rfl

lemma trans (h1 : h.SizesKept h') (h2 : h'.SizesKept h'') : h.SizesKept h'' := fun ref hpos =>
  (h2 ref (by rwa [h1 ref hpos])).trans (h1 ref hpos)

lemma newArray (h : Heap) (es : Array Value) : h.SizesKept (h.newArray es).2 := by
  intro ref hpos
  rw [elems_newArray, if_neg]
  rintro rfl
  simp [elems] at hpos

lemma setElem (h : Heap) (ref i : Nat) (v : Value) : h.SizesKept (h.setElem ref i v) := by
  intro ref' _
  rw [elems_setElem]
  split
  · exact Array.size_setIfInBounds
  · rfl

end Heap.SizesKept

namespace Tac

variable {p : Program} {cap : Int} {t s : State} {r : Option Value} {pcs : List Nat}

lemma State.heap_leave (s : State) (v : Value) : (s.leave v).2.heap = s.heap := by
  unfold leave
  split <;> rfl

lemma execute_sizes {i : Instr} (h : execute p cap s i = .ok (r, t)) : s.heap.SizesKept t.heap := by
  cases i with
  | ret x =>
    have hleave : ∀ v, s.leave v = (r, t) → s.heap.SizesKept t.heap := by
      intro v hv
      rw [← show (s.leave v).2 = t from congrArg Prod.snd hv, State.heap_leave]
      exact .refl _
    cases x with
    | none => exact hleave _ (Except.ok.inj h)
    | some x => exact hleave _ (Except.ok.inj h)
  | assign | jump | label | print | record =>
    cases h
    exact .refl _
  | binary | unary | field | setField | index =>
    obtain ⟨_, -, h⟩ := ok_of_bind h
    cases h
    exact .refl _
  | jumpUnless x l =>
    obtain ⟨b, -, h⟩ := ok_of_bind h
    cases h
    cases b <;> exact .refl _
  | call d f args =>
    obtain ⟨_, -, h⟩ := ok_of_bind h
    obtain ⟨_, henter, h⟩ := ok_of_bind h
    cases h
    unfold enter at henter
    split at henter
    · cases henter
    · split at henter
      · cases henter
      · cases henter
        exact .refl _
  | array d xs =>
    cases h
    exact .newArray _ _
  | setIndex x y z =>
    obtain ⟨⟨ref, n⟩, -, h⟩ := ok_of_bind h
    cases h
    exact .setElem _ _ _ _

/-- **No step changes the size of an array.** -/
theorem step_sizes (h : step p cap s = .ok (r, t)) : s.heap.SizesKept t.heap := by
  unfold step at h
  split at h
  · have hleave := Except.ok.inj h
    rw [← show (s.leave .null).2 = t from congrArg Prod.snd hleave, State.heap_leave]
    exact .refl _
  · split at h
    · rename_i i _ r' hr
      cases h
      exact execute_sizes (s := s.goTo (s.call.pc + 1)) hr
    · cases h

lemma Runs.sizes {depth : Nat} {s' : State} (h : Runs p cap depth s pcs s') :
    s.heap.SizesKept s'.heap := by
  induction h with
  | refl => exact .refl _
  | own _ hstep _ ih => exact (step_sizes hstep).trans ih
  | inner _ hstep _ ih => exact (step_sizes hstep).trans ih

/-! ### Rounds of a loop -/

variable {counter bound test head : Nat} {Elem : Int → State → Prop} {limit first : Int64}
  {q : List Nat} {f : Func} {loop : Bytes}

/-- What is known of a walk through a loop, up to a state of the call itself.  The loop counts from
`c` up to `limit`; `entry` is the place of the instruction before the body, which ends before
`last`, and the loop ends at `stop`. -/
structure Counted (p : Program) (cap : Int) (counter entry last stop : Nat)
    (Elem : Int → State → Prop) (c limit : Int64) (pcs : List Nat) (t : State) : Prop where
  /-- The body is entered with the numbers from `c` on, in order. -/
  entered : ∀ pcs', pcs = pcs' ++ [entry] → c.toInt + pcs'.count entry < limit.toInt ∧
    Elem (c.toInt + pcs'.count entry) t
  /-- The loop is left when the numbers are used up. -/
  left : t.call.pc = stop → pcs.count entry = (limit.toInt - c.toInt).toNat
  /-- Nothing but the body fails or returns. -/
  goes_on : t.call.pc < stop → ¬(entry < t.call.pc ∧ t.call.pc < last) →
    ∃ t', step p cap t = .ok (none, t')
  /-- The counter does not overflow. -/
  increments : t.call.pc = last → ∃ n : Int64, t.call.regs counter = .int n ∧
    (n + 1).toInt = n.toInt + 1

namespace Counted

variable {entry last stop : Nat} {c c' : Int64}

lemma after (h : Counted p cap counter entry last stop Elem c' limit pcs t)
    (hq : q.getLast? ≠ some entry) (hc : c'.toInt = c.toInt + q.count entry)
    (hle : q.count entry = 0 ∨ c'.toInt ≤ limit.toInt) :
    Counted p cap counter entry last stop Elem c limit (q ++ pcs) t where
  entered pcs' hpcs := by
    rcases eq_nil_or_concat pcs with rfl | ⟨r, x, rfl⟩
    · rw [append_nil] at hpcs
      exact absurd (by rw [hpcs, getLast?_concat]) hq
    · rw [concat_eq_append, ← append_assoc] at hpcs
      obtain ⟨rfl, hx⟩ := append_inj' hpcs rfl
      cases hx
      have hentered := h.entered r (concat_eq_append ..)
      rw [hc] at hentered
      rw [count_append]
      push_cast
      rw [← add_assoc]
      exact hentered
  left ht := by
    have := h.left ht
    rw [count_append]
    omega
  goes_on := h.goes_on
  increments := h.increments

lemma outside (hpcs : entry ∉ pcs) (hstep : ∃ t', step p cap t = .ok (none, t'))
    (hstop : t.call.pc ≠ stop) (hlast : t.call.pc ≠ last) :
    Counted p cap counter entry last stop Elem c limit pcs t where
  entered pcs' hpcs' := by
    rw [hpcs'] at hpcs
    exact absurd (mem_append_right _ mem_cons_self) hpcs
  left ht := absurd ht hstop
  goes_on _ _ := hstep
  increments ht := absurd ht hlast

lemma inside (hlt : c.toInt < limit.toInt) (hq : entry ∉ q) (hpcs : entry ∉ pcs)
    (helem : pcs = [] → Elem c.toInt t) (hstop : t.call.pc ≠ stop)
    (hstep : ¬(entry < t.call.pc ∧ t.call.pc < last) → ∃ t', step p cap t = .ok (none, t'))
    (hnext : t.call.pc = last → ∃ n : Int64, t.call.regs counter = .int n ∧
      (n + 1).toInt = n.toInt + 1) :
    Counted p cap counter entry last stop Elem c limit (q ++ entry :: pcs) t where
  entered pcs' hpcs' := by
    rcases eq_nil_or_concat pcs with rfl | ⟨r, x, rfl⟩
    · obtain ⟨rfl, -⟩ := append_inj' hpcs' rfl
      rw [count_eq_zero_of_not_mem hq]
      exact ⟨by simpa using hlt, by simpa using helem rfl⟩
    · rw [concat_eq_append, ← cons_append, ← append_assoc] at hpcs'
      obtain ⟨-, hx⟩ := append_inj' hpcs' rfl
      cases hx
      simp at hpcs
  left ht := absurd ht hstop
  goes_on _ := hstep
  increments := hnext

end Counted

/-- A loop in the code of a function.  It begins at `head` and its body is from `head + 4` to
`last`.  The instruction before the body keeps `Inv` and gives the element of a number; the body
keeps `Inv`, the counter and the limit. -/
structure CountingLoop (p : Program) (cap : Int) (f : Func) (counter bound test head last : Nat)
    (Inv : State → Prop) (Elem : Int → State → Prop) (first limit : Int64) (s : Span)
    (loop stop : Bytes) : Prop where
  label : f.body[head]? = some ⟨s, .label loop⟩
  compare : f.body[head + 1]? = some ⟨s, .binary test (.known .lt) (.reg counter) (.reg bound)⟩
  leave : f.body[head + 2]? = some ⟨s, .jumpUnless (.reg test) stop⟩
  body : Contained p cap f (head + 4) last
  next : f.body[last]? = some ⟨s, .binary counter (.known .add) (.reg counter) (.lit (.int 1))⟩
  again : f.body[last + 1]? = some ⟨s, .jump loop⟩
  done : f.body[last + 2]? = some ⟨s, .label stop⟩
  place_loop : f.place? loop = some head
  place_stop : f.place? stop = some (last + 2)
  body_le : head + 4 ≤ last
  counter_ne : counter ≠ test ∧ counter ≠ bound
  bound_ne : bound ≠ test
  inv_goTo : ∀ {t : State} {pc : Nat}, Inv t → Inv (t.goTo pc)
  inv_write : ∀ {t : State} {r : Nat} {v : Value}, r = test ∨ r = counter → Inv t →
    Inv (t.write r v)
  elem : ∀ {t : State} {n : Int64}, t.At f (head + 3) → Inv t → t.call.regs counter = .int n →
    t.call.regs bound = .int limit → first.toInt ≤ n.toInt → n.toInt < limit.toInt →
    Goes p cap (fun _ => True) (fun pcs u => pcs = [head + 3] ∧ u.call.pc = head + 4 ∧ Inv u ∧
      Elem n.toInt u ∧ u.call.regs counter = .int n ∧ u.call.regs bound = .int limit) t
  frame : ∀ {u u' : State} {pcs : List Nat}, Traverses p cap f (head + 4) last u pcs u' →
    Inv u → Inv u' ∧ u'.call.regs counter = u.call.regs counter ∧
      u'.call.regs bound = u.call.regs bound

namespace CountingLoop

variable {last : Nat} {Inv : State → Prop} {c : Int64} {s : Span} {stop : Bytes} {u : State}

/-- The call is at the head of the loop, before the round of a number. -/
structure Head (f : Func) (counter bound head : Nat) (Inv : State → Prop) (c limit : Int64)
    (t : State) : Prop where
  place : t.At f head
  inv : Inv t
  counter : t.call.regs counter = .int c
  bound : t.call.regs bound = .int limit

variable (h : CountingLoop p cap f counter bound test head last Inv Elem first limit s loop stop)
  (ht : Head f counter bound head Inv c limit t)

include h ht

lemma compare_goes {G : List Nat → State → Prop}
    (hG : ∀ u : State, u.At f (if c < limit then head + 3 else last + 2) → Inv u →
      u.call.regs counter = .int c → u.call.regs bound = .int limit →
      Goes p cap (fun _ => True) (fun pcs => G (head :: (head + 1) :: (head + 2) :: pcs)) u) :
    Goes p cap (fun _ => True) G t := by
  obtain ⟨⟨rfl, rfl⟩, hinv, hcounter, hbound⟩ := ht
  refine .label h.label trivial (.binary (v := .bool (c < limit)) h.compare trivial ?_ ?_)
  · rw [State.eval_reg, State.eval_reg, State.goTo_regs, hcounter, hbound]
    rfl
  · refine .jumpUnless (b := c < limit) h.leave h.place_stop trivial (by simp) ?_
    refine hG _ ⟨rfl, ?_⟩ (h.inv_goTo (h.inv_write (.inl rfl) (h.inv_goTo (h.inv_goTo hinv)))) ?_ ?_
    · by_cases hlt : c < limit <;> simp
    · exact (State.write_regs_of_ne _ _ _ h.counter_ne.1).trans hcounter
    · exact (State.write_regs_of_ne _ _ _ h.bound_ne).trans hbound

lemma enters (hfirst : first.toInt ≤ c.toInt) (hlt : c < limit) :
    Goes p cap (fun _ => True) (fun pcs u => pcs = [head, head + 1, head + 2, head + 3] ∧
      u.call.pc = head + 4 ∧ Inv u ∧ Elem c.toInt u ∧ u.call.regs counter = .int c ∧
      u.call.regs bound = .int limit) t := by
  refine h.compare_goes ht fun u hu hinv hcounter hbound => ?_
  rw [if_pos hlt] at hu
  refine (h.elem hu hinv hcounter hbound hfirst (Int64.lt_iff_toInt_lt.mp hlt)).trans ?_
  rintro _ u' - ⟨rfl, hgoal⟩
  exact .done ⟨rfl, hgoal⟩

lemma leaves (hlt : ¬c < limit) :
    Goes p cap (fun _ => True) (fun pcs u => pcs = [head, head + 1, head + 2, last + 2] ∧
      u.call.pc = last + 3) t := by
  refine h.compare_goes ht fun u hu _ _ _ => ?_
  rw [if_neg hlt] at hu
  obtain ⟨rfl, hpc⟩ := hu
  have hdone := h.done
  rw [← hpc] at hdone
  refine .label hdone trivial (.done ⟨?_, ?_⟩)
  · rw [hpc]
  · rw [State.goTo_pc, hpc]

omit h ht in
lemma toInt_succ (hlt : c < limit) : (c + 1).toInt = c.toInt + 1 := by
  have hlt := Int64.lt_iff_toInt_lt.mp hlt
  have hmax := limit.toInt_lt
  have hmin := c.le_toInt
  rw [Int64.toInt_add, show (1 : Int64).toInt = 1 from rfl]
  exact Int.bmod_eq_of_le (by omega) (by omega)

omit ht in
lemma counts (hu : u.At f last) (hinv : Inv u) (hcounter : u.call.regs counter = .int c)
    (hbound : u.call.regs bound = .int limit) :
    Goes p cap (fun _ => True) (fun pcs t => pcs = [last, last + 1] ∧
      Head f counter bound head Inv (c + 1) limit t) u := by
  obtain ⟨rfl, rfl⟩ := hu
  refine .binary (v := .int (c + 1)) h.next trivial ?_
    (.jump h.again h.place_loop trivial (.done ?_))
  · rw [State.eval_reg, hcounter]
    rfl
  · exact ⟨rfl, ⟨rfl, rfl⟩, h.inv_goTo (h.inv_write (.inr rfl) (h.inv_goTo hinv)), by simp,
      (State.write_regs_of_ne _ _ _ h.counter_ne.2.symm).trans hbound⟩

omit h ht in
lemma exists_take {path r : List Nat} {x : Nat} (hpath : q ++ x :: r = path) :
    ∃ i < path.length, q = path.take i ∧ path[i]? = some x :=
  ⟨q.length, by simp [← hpath], by simp [← hpath], by simp [← hpath]⟩

omit ht in
/-- The walk ends in front of a body, or behind the last one. -/
lemma counted_head {x : Nat} {r : List Nat} (hx : x = head + 3 ∨ x = last + 2)
    (hstep : ∃ t', step p cap t = .ok (none, t'))
    (hpath : pcs ++ t.call.pc :: r = [head, head + 1, head + 2, x]) :
    Counted p cap counter (head + 3) last (last + 3) Elem c limit pcs t := by
  have hle := h.body_le
  obtain ⟨i, hi : i < 4, rfl, hat⟩ := exists_take hpath
  interval_cases i <;> have hpc := Option.some.inj hat <;>
    exact .outside (by simp) hstep (by omega) (by omega)

omit ht in
/-- The walk ends with the counting behind a body. -/
lemma counted_next {u' : State} {r : List Nat} (hlt : c < limit) (helem : Elem c.toInt u)
    (hbody : Traverses p cap f (head + 4) last u pcs u') (hcounter : u'.call.regs counter = .int c)
    (hruns : Runs p cap u'.callers.length u' q t) (hstep : ∃ t', step p cap t = .ok (none, t'))
    (hpath : q ++ t.call.pc :: r = [last, last + 1]) :
    Counted p cap counter (head + 3) last (last + 3) Elem c limit
      ([head, head + 1, head + 2] ++ (head + 3) :: (pcs ++ q)) t := by
  have hle := h.body_le
  obtain ⟨i, hi : i < 2, htake, hat⟩ := exists_take hpath
  have hpc := mem_of_getElem? hat
  simp only [mem_cons, not_mem_nil, or_false] at hpc
  refine .inside (Int64.lt_iff_toInt_lt.mp hlt) (by simp) (fun hmem => ?_) (fun hnil => ?_)
    (by omega) (fun _ => hstep) fun hpc' => ?_
  · rcases mem_append.mp hmem with hmem | hmem
    · have := hbody.inside _ hmem
      omega
    · have := mem_of_mem_take (htake ▸ hmem)
      simp at this
      omega
  · obtain ⟨rfl, rfl⟩ := append_eq_nil_iff.mp hnil
    obtain ⟨-, rfl⟩ := hbody.runs.ended rfl (by simp)
    obtain ⟨-, rfl⟩ := hruns.ended rfl (by simp)
    exact helem
  · interval_cases i <;> have hpc := Option.some.inj hat
    · obtain rfl : q = [] := htake
      obtain ⟨-, rfl⟩ := hruns.ended rfl (by simp)
      exact ⟨c, hcounter, toInt_succ hlt⟩
    · omega

omit ht in
lemma counted_round (hlt : c < limit) (hpcs : head + 3 ∉ pcs)
    (hrest : Counted p cap counter (head + 3) last (last + 3) Elem (c + 1) limit q t) :
    Counted p cap counter (head + 3) last (last + 3) Elem c limit
      ([head, head + 1, head + 2, head + 3] ++ pcs ++ [last, last + 1] ++ q) t := by
  have hle := h.body_le
  have hlt' := Int64.lt_iff_toInt_lt.mp hlt
  have hcount : ([head, head + 1, head + 2, head + 3] ++ pcs ++ [last, last + 1]).count
      (head + 3) = 1 := by
    rw [count_append, count_append, count_eq_zero_of_not_mem hpcs]
    simp [count_cons]
    omega
  refine hrest.after ?_ ?_ (.inr ?_)
  · rw [getLast?_append]
    simp
    omega
  · rw [hcount, toInt_succ hlt]
    rfl
  · rw [toInt_succ hlt]
    omega

omit ht in
lemma counted_left (hlt : ¬c < limit) (hpc : t.call.pc = last + 3) :
    Counted p cap counter (head + 3) last (last + 3) Elem c limit
      [head, head + 1, head + 2, last + 2] t := by
  have hle := h.body_le
  have hge := not_lt.mp (mt Int64.lt_iff_toInt_lt.mpr hlt)
  refine ⟨fun pcs' hpcs' => ?_, fun _ => ?_, fun hpc' => ?_, fun hpc' => ?_⟩
  · obtain ⟨-, hlast⟩ := append_inj'
      (show [head, head + 1, head + 2] ++ [last + 2] = pcs' ++ [head + 3] from hpcs') rfl
    have := cons.inj hlast
    omega
  · rw [count_eq_zero_of_not_mem (by simp; omega)]
    omega
  · omega
  · omega

/-- **The walk of a loop.**  By induction on the rounds: every walk from the head makes a round and
goes on from the head with the next number, or is in its last round. -/
theorem counted {t' : State} (hfirst : first.toInt ≤ c.toInt)
    (hruns : Runs p cap t.callers.length t pcs t') (hin : ∀ pc ∈ pcs, pc < last + 3)
    (ht' : t'.callers.length = t.callers.length) :
    Counted p cap counter (head + 3) last (last + 3) Elem c limit pcs t' := by
  induction hlen : pcs.length using Nat.strong_induction_on generalizing pcs t c with
  | _ n ih =>
  subst hlen
  by_cases hlt : c < limit
  · rcases (h.enters ht hfirst hlt).cases hruns with
      ⟨_, u, pcs2, rfl, -, hcallers, hfunc, -, ⟨rfl, hpc, hinv, helem, hcounter, hbound⟩, h2⟩ |
      ⟨-, hway⟩
    · have hu : u.At f (head + 4) := ⟨hfunc.trans ht.place.1, hpc⟩
      rw [← hcallers] at h2 ht'
      rcases h.body hu h2 with ⟨pcs3, u', pcs4, rfl, hbody, h4⟩ | ⟨hbody, hend, -⟩
      · obtain ⟨hinv', hcounter', hbound'⟩ := h.frame hbody hinv
        rw [← hbody.callers] at h4 ht'
        rw [hcounter] at hcounter'
        rcases (h.counts hbody.last hinv' hcounter' (hbound'.trans hbound)).cases h4
          with ⟨_, t1, pcs6, rfl, -, hcallers', -, -, ⟨rfl, hhead⟩, h6⟩ | ⟨-, hway⟩
        · rw [← hcallers'] at h6 ht'
          have hrest := ih pcs6.length (by simp; omega) hhead (by rw [toInt_succ hlt]; omega) h6
            (fun pc hpc => hin pc (by simp [hpc])) ht' rfl
          have hentry : head + 3 ∉ pcs3 := fun hmem => by
            have := hbody.inside _ hmem
            omega
          simpa using h.counted_round hlt hentry hrest
        · obtain ⟨-, hstep, pcs5, t1, hpath, -⟩ := hway ht'
          simpa using h.counted_next hlt helem hbody hcounter' h4 hstep hpath
      · obtain ⟨-, -, hlo, hhi⟩ := hend ht'
        refine .inside (q := [head, head + 1, head + 2]) (Int64.lt_iff_toInt_lt.mp hlt) (by simp) ?_
          ?_ (by omega) (fun hnot => absurd ⟨by omega, hhi⟩ hnot) (fun hpc' => by omega)
        · intro hmem
          have := hbody _ hmem
          omega
        · rintro rfl
          obtain ⟨-, rfl⟩ := h2.ended rfl (by simp)
          exact helem
    · obtain ⟨-, hstep, pcs2, u, hpath, -⟩ := hway ht'
      exact h.counted_head (.inl rfl) hstep hpath
  · rcases (h.leaves ht hlt).cases hruns with
      ⟨_, u, pcs2, rfl, -, hcallers, hfunc, -, ⟨rfl, hpc⟩, h2⟩ | ⟨-, hway⟩
    · obtain ⟨rfl, rfl⟩ := h2.ended (by rw [hcallers]) fun hmem => by
        have := hin _ (mem_append_right _ hmem)
        omega
      exact h.counted_left hlt hpc
    · obtain ⟨-, hstep, pcs2, u, hpath, -⟩ := hway ht'
      exact h.counted_head (.inr rfl) hstep hpath

end CountingLoop

/-- Every walk through a loop, from its first instruction on, is counted. -/
def Counts (p : Program) (cap : Int) (counter first entry last stop : Nat)
    (Elem : Int → State → Prop) (c limit : Int64) (s : State) : Prop :=
  ∀ pcs t, Runs p cap s.callers.length s pcs t → (∀ pc ∈ pcs, first ≤ pc ∧ pc < stop) →
    t.callers.length = s.callers.length →
    Counted p cap counter entry last stop Elem c limit pcs t

lemma CountingLoop.of_start {last lo : Nat} {Inv : State → Prop}
    {Elem : Int → State → Prop} {c limit : Int64} {s : Span} {stop : Bytes}
    (h : CountingLoop p cap f counter bound test head last Inv Elem c limit s loop stop)
    (hstart : Goes p cap (fun pc => pc < head) (fun _ u => Head f counter bound head Inv c limit u)
      t) : Counts p cap counter lo (head + 3) last (last + 3) Elem c limit t := by
  intro pcs t' hruns hin ht'
  have hle := h.body_le
  rcases hstart.cases hruns with ⟨pcs1, u, pcs2, rfl, -, hcallers, -, hlow, hhead,
    h2⟩ | ⟨hlow, hway⟩
  · rw [← hcallers] at h2 ht'
    have hentry : head + 3 ∉ pcs1 := fun hmem => by
      have := hlow _ hmem
      omega
    have hcount := count_eq_zero_of_not_mem hentry
    refine (h.counted hhead le_rfl h2 (fun pc hpc => (hin pc ?_).2) ht').after ?_ ?_ (.inl hcount)
    · exact mem_append_right _ hpc
    · exact fun hlast => hentry (mem_of_getLast? hlast)
    · rw [hcount]
      exact (add_zero _).symm
  · obtain ⟨hpc, hstep, -⟩ := hway ht'
    exact .outside (fun hmem => by have := hlow _ hmem; omega) hstep (by omega) (by omega)

namespace Lowering

variable {α : Type} {c : Context α} {pre post last : Code} {x : Chunk α} {parts : Parts α}
  {bc : Code} {s1 s2 s3 s : Span} {n : Int64} {ref : Nat} {name : Name} {b : Block α} {av : Operand}

/-- The body of a loop writes its variable, what was there before the loop, and new registers. -/
theorem block_writes {func name : Bytes} {env : Env} {st st1 st' : State} {r : Nat} {l : Lowered}
    (henv : Sighted env st) (hsighted : Sighted ((name, r) :: env) st1) (hst1 : r < st1.numVars)
    (hrun : (lowerExpr c func ((name, r) :: env) (.block b)).run st1 = .ok (l, st')) :
    ∀ i ∈ l.code, ∀ d, i.val.dst? = some d → d < st.numVars ∨ r ≤ d := by
  intro i hi d hd
  rcases ((exprMade c _ hsighted.inSight).ok hrun).extent.piece.writes i hi d hd with
    hnew | ⟨y, -, hy⟩
  · exact .inr (hst1.le.trans hnew.1)
  · rw [lookup_cons] at hy
    split at hy
    · cases hy
      exact .inr le_rfl
    · exact .inl (henv.lookup_lt hy)

lemma countingLoop_of_layout {stop : Bytes} {elem : Located Instr} {Inv : Tac.State → Prop}
    {Elem : Int → Tac.State → Prop} {limit : Int64} (hpre : pre.length = head)
    (hsegment : Segment f (pre ++ loopHead s loop stop counter bound test elem) bc
      (loopTail s loop stop counter ++ post))
    (hcounter : counter ≠ test ∧ counter ≠ bound) (hbound : bound ≠ test)
    (inv_goTo : ∀ {t pc}, Inv t → Inv (t.goTo pc))
    (inv_write : ∀ {t r v}, r = test ∨ r = counter → Inv t → Inv (t.write r v))
    (helem : f.body[head + 3]? = some elem → ∀ {t n}, t.At f (head + 3) → Inv t →
      t.call.regs counter = .int n → t.call.regs bound = .int limit → first.toInt ≤ n.toInt →
      n.toInt < limit.toInt → Goes p cap (fun _ => True) (fun pcs u => pcs = [head + 3] ∧
      u.call.pc = head + 4 ∧ Inv u ∧ Elem n.toInt u ∧ u.call.regs counter = .int n ∧
      u.call.regs bound = .int limit) t)
    (hwrites : ∀ i ∈ bc, ∀ d, i.val.dst? = some d → d ≠ counter ∧ d ≠ bound)
    (hinv : ∀ {u u' pcs}, Traverses p cap f (head + 4) (head + 4 + bc.length) u pcs u' →
      (∀ r, (∀ i ∈ bc, i.val.dst? ≠ some r) → u'.call.regs r = u.call.regs r) → Inv u → Inv u') :
    CountingLoop p cap f counter bound test head (head + 4 + bc.length) Inv Elem
      first limit s loop stop := by
  subst hpre
  have hbody := hsegment.body
  have hlen : (pre ++ loopHead s loop stop counter bound test elem).length = pre.length + 4 :=
    length_append
  have hlen' : (pre ++ loopHead s loop stop counter bound test elem ++ bc).length =
      pre.length + 4 + bc.length := by
    rw [length_append, hlen]
  have hcontained : Contained p cap f _ _ := hsegment.contained
  have hkept : ∀ {u u' pcs r},
      Traverses p cap f (pre.length + 4) (pre.length + 4 + bc.length) u pcs u' →
      (∀ i ∈ bc, i.val.dst? ≠ some r) → u'.call.regs r = u.call.regs r := by
    intro u u' pcs r ht hr
    rw [← hlen', ← hlen] at ht
    exact Traverses.regs_eq hsegment ht hr
  rw [hlen, hlen'] at hcontained
  -- The instructions before and behind the body.
  have hhead : ∀ k, f.body[pre.length + k]? =
    (loopHead s loop stop counter bound test elem ++ (bc ++
      (loopTail s loop stop counter ++ post)))[k]? :=
    Func.getElem?_add (by rw [hbody]; simp)
  have htail : ∀ k, f.body[pre.length + 4 + bc.length + k]? =
      (loopTail s loop stop counter ++ post)[k]? := by
    intro k
    rw [← hlen', Func.getElem?_add hbody]
  have hloop : f.place? loop = some pre.length :=
    Func.place?_eq (by rw [hbody, append_assoc, append_assoc]; rfl) hsegment.labels
  have hstop : f.place? stop = some (pre.length + 4 + bc.length + 2) := by
    have hbody' : f.body = pre ++ loopHead s loop stop counter bound test elem ++ bc ++
        [⟨s, .binary counter (.known .add) (.reg counter) (.lit (.int 1))⟩, ⟨s, .jump loop⟩] ++
        ⟨s, .label stop⟩ :: post := by
      rw [hbody]
      simp [loopTail]
    rw [Func.place?_eq hbody' hsegment.labels, length_append, hlen']
    rfl
  exact {
    label := hhead 0
    compare := hhead 1
    leave := hhead 2
    body := hcontained
    next := htail 0
    again := htail 1
    done := htail 2
    place_loop := hloop
    place_stop := hstop
    body_le := Nat.le_add_right _ _
    counter_ne := hcounter
    bound_ne := hbound
    inv_goTo := inv_goTo
    inv_write := inv_write
    elem := helem (hhead 3)
    frame := fun ht hu => ⟨hinv ht (fun _ => hkept ht) hu,
      hkept ht fun i hi hd => (hwrites i hi _ hd).1 rfl,
      hkept ht fun i hi hd => (hwrites i hi _ hd).2 rfl⟩ }

lemma range_counts {stop : Bytes} {r : Nat} {zv : Operand} {m : Int64} {t : Tac.State}
    (hsegment : Segment f (pre ++ [⟨s1, .assign r av⟩, ⟨s2, .assign (r + 1) zv⟩] ++
      loopHead s loop stop r (r + 1) (r + 2) ⟨s3, .assign (r + 3) (.reg r)⟩) bc
      (loopTail s loop stop r ++ post))
    (hwrites : ∀ i ∈ bc, ∀ d, i.val.dst? = some d → d < r ∨ r + 3 ≤ d) (hzv : zv ≠ .reg r)
    (ht : t.At f pre.length) (hn : t.eval p av = .int n) (hm : t.eval p zv = .int m) :
    Counts p cap r pre.length (pre.length + 5) (pre.length + 6 + bc.length)
      (pre.length + 6 + bc.length + 3)
      (fun k t => ∃ i : Int64, t.call.regs (r + 3) = .int i ∧ i.toInt = k) n m t := by
  have hloop : CountingLoop p cap f r (r + 1) (r + 2) (pre.length + 2)
      (pre.length + 2 + 4 + bc.length) (fun _ => True)
      (fun k t => ∃ i, t.call.regs (r + 3) = .int i ∧ i.toInt = k) n m s loop stop := by
    refine countingLoop_of_layout length_append hsegment (by omega) (by omega) (fun _ => trivial)
      (fun _ _ => trivial) ?_ ?_ (fun _ _ _ => trivial)
    · rintro helem t i ⟨rfl, hpc⟩ - hcounter hbound - -
      rw [← hpc] at helem ⊢
      refine .assign helem trivial (.done ⟨rfl, by simp [hpc], trivial, ⟨i, ?_, rfl⟩, ?_, ?_⟩)
      · simp [hcounter]
      · exact (State.write_regs_of_ne _ _ _ (by omega)).trans hcounter
      · exact (State.write_regs_of_ne _ _ _ (by omega)).trans hbound
    · intro i hi d hd
      have := hwrites i hi d hd
      omega
  have hstart : Goes p cap (fun pc => pc < pre.length + 2) (fun _ u => CountingLoop.Head f
      r (r + 1) (pre.length + 2) (fun _ => True) n m u) t := by
    obtain ⟨rfl, hpc⟩ := ht
    have hat := Func.getElem?_add (show t.call.func.body = pre ++ ([⟨s1, .assign r av⟩,
      ⟨s2, .assign (r + 1) zv⟩] ++ _) by rw [hsegment.body]; simp only [append_assoc]; rfl)
    rw [← hpc] at hat ⊢
    refine .assign (hat 0) (by omega)
      (.assign (hat 1) (by simp) (.done ⟨⟨rfl, rfl⟩, trivial, ?_, ?_⟩))
    · rw [State.write_regs_of_ne _ _ _ (by omega), State.goTo_regs, State.write_regs, hn]
    · rw [State.write_regs, State.eval_write _ _ _ hzv, State.eval_goTo, hm]
  exact hloop.of_start hstart

/-- The law of a loop over a range.  The body writes neither the counter nor the limit, and the
variable of the loop has the numbers from the first bound up to the second one, in order, whatever
they are when the loop begins.  Between the two evaluations the first bound stays what it is, unless
it is a variable that the second one assigns. -/
def RangeLaw (p : Program) (cap : Int) (f : Func) (pre : Code) (x : Chunk α)
    (parts : Parts α) (name : Name) (start limit : Expr α) : Prop :=
  ∃ a z g b av zv counter bound v, parts = [([], a), ([], z), (g, b)] ∧ a.value? = some av ∧
    z.value? = some zv ∧ b.env = (name.text, v) :: x.env ∧
    (∀ i ∈ b.code, ∀ d, i.val.dst? = some d → d ≠ counter ∧ d ≠ bound) ∧
    ((∀ y ∈ yields start, y ∉ assigns limit) → ∀ {s s' : Tac.State} {pcs : List Nat},
      Traverses p cap f (pre ++ a.code).length (pre ++ a.code ++ z.code).length s pcs s' →
      s'.eval p av = s.eval p av) ∧
    ∀ {s : Tac.State} {n m : Int64}, s.At f (pre ++ a.code ++ z.code).length →
      s.eval p av = .int n → s.eval p zv = .int m →
      Counts p cap counter (pre ++ a.code ++ z.code).length
        ((pre ++ a.code ++ z.code ++ g).length - 1) (pre ++ a.code ++ z.code ++ g ++ b.code).length
        (pre ++ x.code).length
        (fun k t => ∃ i : Int64, t.call.regs v = .int i ∧ i.toInt = k) n m s

lemma RangeShape.law {start limit : Expr α} (hsegment : Segment f pre x.code post)
    (harranged : Arranged c f.name x parts last)
    (hshape : RangeShape s name start limit b x parts last) :
    RangeLaw p cap f pre x parts name start limit := by
  cases hshape with
  | @mk a z av zv l st1 st2 st3 loop stop ha hz hst =>
  obtain ⟨ac, _⟩ := a
  obtain ⟨zc, _⟩ := z
  cases ha
  cases hz
  obtain ⟨J, hassembled, -⟩ := harranged.assembled
  cases hassembled with
  | cons _ _ hmade1 hsighted1 _ hassembled =>
  cases hassembled with
  | cons _ _ hmade2 hsighted2 _ hassembled =>
  cases hassembled with
  | cons _ _ hmade3 hsighted3 _ _ =>
  have hwrites : ∀ i ∈ l.code, ∀ d, i.val.dst? = some d → d < st2.numVars ∨ st2.numVars + 3 ≤ d :=
    block_writes (Sighted.expr hsighted2 hmade2) hsighted3
      (by rw [hst]; exact Nat.lt_succ_self _) hmade3
  have hz' := harranged.segment (show _ = [_] ++ ([], .ofExpr limit x.env st1 ⟨zc, some zv⟩ st2) ::
    [_] from rfl)
    hsegment
  have hb := harranged.segment (show _ = [_, _] ++ (_, .ofExpr (.block b)
    ((name.text, st2.numVars + 3) :: x.env) st3 l x.after) :: [] from rfl) hsegment
  simp only [flat_cons, flat_nil, append_nil, ← append_assoc] at hz' hb
  refine ⟨_, _, _, _, av, zv, st2.numVars, st2.numVars + 1, st2.numVars + 3, rfl, rfl, rfl, rfl, ?_,
    fun hvars s s' pcs ht => ?_, ?_⟩
  · intro i hi d hd
    have := hwrites i hi d hd
    omega
  · have hspares : Spares x.env start av limit zc :=
      (pairwise_cons.mp (Lowers.spares (.cons hmade1 (.cons hmade2 .nil)) hsighted1)).1 _
        mem_cons_self
    cases av with
    | reg r =>
      refine Traverses.regs_eq hz' ht fun i hi hd => ?_
      obtain ⟨y, hy, hassigned, -⟩ := hspares i hi r hd rfl
      exact hvars y hy hassigned
    | lit | missing => rfl
  · intro t n m ht hn hm
    have hzv : zv ≠ .reg st2.numVars := by
      rintro rfl
      rcases ((exprMade c _ hsighted2.inSight).ok hmade2).source _ rfl with hnew | ⟨y, -, hy⟩
      · exact absurd hnew.2 (lt_irrefl _)
      · exact absurd ((Sighted.expr hsighted2 hmade2).lookup_lt hy) (lt_irrefl _)
    convert range_counts hb hwrites hzv ht hn hm using 1
    · simp [loopHead]
      omega
    · simp [loopHead]
      omega
    · rw [harranged.code_eq]
      simp [loopHead, loopTail]
      omega

lemma toInt_ofNat_le (n : Nat) : (Int64.ofNat n).toInt ≤ n := by
  rw [Int64.toInt_ofNat', Int.bmod_def]
  simp only [Int64.size]
  split <;> omega

lemma position_eq_ok {h : Heap} (hn : 0 ≤ n.toInt) (hlt : n.toInt < (h.elems ref).size) :
    position h (.array ref) (.int n) = .ok (ref, n.toInt.toNat) := by
  simp only [position]
  rw [if_neg (by omega)]

/-- A loop over an array keeps it in the register `r`, and counts up to its size in the next ones.
-/
theorem each_counts {s4 : Span} {stop : Bytes} {r : Nat} {t : Tac.State}
    (hsegment : Segment f (pre ++ [⟨s1, .assign r av⟩, ⟨s2, .unary (r + 1) (.known .len) (.reg r)⟩,
      ⟨s3, .assign (r + 2) (.lit (.int 0))⟩] ++ loopHead s loop stop (r + 2) (r + 1) (r + 3)
      ⟨s4, .index (r + 4) (.reg r) (.reg (r + 2))⟩) bc (loopTail s loop stop (r + 2) ++ post))
    (hwrites : ∀ i ∈ bc, ∀ d, i.val.dst? = some d → d < r ∨ r + 4 ≤ d) (ht : t.At f pre.length)
    (href : t.eval p av = .array ref) :
    Counts p cap (r + 2) pre.length (pre.length + 6) (pre.length + 7 + bc.length)
      (pre.length + 7 + bc.length + 3)
      (fun k t' => (t'.heap.elems ref)[k.toNat]? = some (t'.call.regs (r + 4))) 0
      (.ofNat (t.heap.elems ref).size) t := by
  generalize hlimit : Int64.ofNat (t.heap.elems ref).size = limit
  have hle : limit.toInt ≤ (t.heap.elems ref).size := hlimit ▸ toInt_ofNat_le _
  -- The array stays in its register, and as long as it is.
  have hloop : CountingLoop p cap f (r + 2) (r + 1) (r + 3) (pre.length + 3)
      (pre.length + 3 + 4 + bc.length)
      (fun u => u.call.regs r = .array ref ∧ limit.toInt ≤ (u.heap.elems ref).size)
      (fun k t' => (t'.heap.elems ref)[k.toNat]? = some (t'.call.regs (r + 4))) 0 limit s loop
      stop := by
    refine countingLoop_of_layout length_append hsegment (by omega) (by omega)
      (fun hinv => hinv) ?_ ?_ ?_ ?_
    · rintro u d v hd ⟨harray, hsize⟩
      exact ⟨(State.write_regs_of_ne _ _ _ (by omega)).trans harray, hsize⟩
    · rintro helem u n ⟨rfl, hpc⟩ ⟨harray, hsize⟩ hcounter hbound hfirst hlt
      rw [← hpc] at helem ⊢
      rw [show (0 : Int64).toInt = 0 from rfl] at hfirst
      have hnat : n.toInt.toNat < (u.heap.elems ref).size := by omega
      have hposition : position u.heap (u.eval p (.reg r)) (u.eval p (.reg (r + 2))) =
          .ok (ref, n.toInt.toNat) := by
        rw [State.eval_reg, State.eval_reg, harray, hcounter]
        exact position_eq_ok hfirst (by omega)
      refine .index helem trivial hposition (.done ⟨rfl, by simp [hpc], ⟨?_, hsize⟩, ?_, ?_, ?_⟩)
      · exact (State.write_regs_of_ne _ _ _ (by omega)).trans harray
      · rw [State.write_regs, State.write_heap, State.goTo_heap, Array.getElem?_eq_getElem hnat]
        rfl
      · exact (State.write_regs_of_ne _ _ _ (by omega)).trans hcounter
      · exact (State.write_regs_of_ne _ _ _ (by omega)).trans hbound
    · intro i hi d hd
      have := hwrites i hi d hd
      omega
    · rintro u u' pcs hu hkept ⟨harray, hsize⟩
      refine ⟨(hkept r fun i hi hd => ?_).trans harray, ?_⟩
      · have := hwrites i hi r hd
        omega
      · have := hu.runs.sizes ref
        omega
  have hstart : Goes p cap (fun pc => pc < pre.length + 3) (fun _ u => CountingLoop.Head f
      (r + 2) (r + 1) (pre.length + 3) (fun u => u.call.regs r = .array ref ∧
        limit.toInt ≤ (u.heap.elems ref).size) 0 limit u) t := by
    obtain ⟨rfl, hpc⟩ := ht
    have hat := Func.getElem?_add (show t.call.func.body = pre ++ ([⟨s1, .assign r av⟩,
      ⟨s2, .unary (r + 1) (.known .len) (.reg r)⟩, ⟨s3, .assign (r + 2) (.lit (.int 0))⟩] ++ _) by
        rw [hsegment.body]; simp only [append_assoc]; rfl)
    rw [← hpc] at hat ⊢
    refine .assign (hat 0) (by omega) (.unary (v := .int limit) (hat 1) (by simp) ?_
      (.assign (hat 2) (by simp) (.done ⟨⟨rfl, rfl⟩, ⟨?_, hle⟩, ?_, ?_⟩)))
    · rw [State.eval_reg, State.write_regs, href, ← hlimit]
      rfl
    · rw [State.write_regs_of_ne _ _ _ (by omega), State.goTo_regs,
        State.write_regs_of_ne _ _ _ (by omega), State.goTo_regs, State.write_regs, href]
    · rw [State.write_regs]
      rfl
    · rw [State.write_regs_of_ne _ _ _ (by omega), State.goTo_regs, State.write_regs]
  exact hloop.of_start hstart

/-- The law of a loop over an array.  The body writes none of the registers of the array, the
counter and the limit, which is the size of the array when the loop begins; the variable of the loop
has the elements of the array in order, each as it is when the body is entered. -/
def EachLaw (p : Program) (cap : Int) (f : Func) (pre : Code) (x : Chunk α)
    (parts : Parts α) (name : Name) : Prop :=
  ∃ a g b av array counter bound v, parts = [([], a), (g, b)] ∧ a.value? = some av ∧
    b.env = (name.text, v) :: x.env ∧
    (∀ i ∈ b.code, ∀ d, i.val.dst? = some d → d ≠ array ∧ d ≠ counter ∧ d ≠ bound) ∧
    ∀ {s : Tac.State} {ref : Nat}, s.At f (pre ++ a.code).length → s.eval p av = .array ref →
      Counts p cap counter (pre ++ a.code).length ((pre ++ a.code ++ g).length - 1)
        (pre ++ a.code ++ g ++ b.code).length (pre ++ x.code).length
        (fun k t => (t.heap.elems ref)[k.toNat]? = some (t.call.regs v)) 0
        (.ofNat (s.heap.elems ref).size) s

lemma EachShape.law {array : Expr α} (hsegment : Segment f pre x.code post)
    (harranged : Arranged c f.name x parts last) (hshape : EachShape s name array b x parts last) :
    EachLaw p cap f pre x parts name := by
  cases hshape with
  | @mk a av l st1 st2 loop stop ha hst =>
  obtain ⟨ac, _⟩ := a
  cases ha
  obtain ⟨J, hassembled, -⟩ := harranged.assembled
  cases hassembled with
  | cons _ _ hmade1 hsighted1 _ hassembled =>
  cases hassembled with
  | cons _ _ hmade2 hsighted2 _ _ =>
  have hwrites : ∀ i ∈ l.code, ∀ d, i.val.dst? = some d → d < st1.numVars ∨ st1.numVars + 4 ≤ d :=
    block_writes (Sighted.expr hsighted1 hmade1) hsighted2 (by rw [hst]; exact Nat.lt_succ_self _)
      hmade2
  have hb := harranged.segment (show _ = [_] ++ (_, .ofExpr (.block b)
    ((name.text, st1.numVars + 4) :: x.env) st2 l x.after) :: [] from rfl) hsegment
  simp only [flat_cons, flat_nil, append_nil, ← append_assoc] at hb
  refine ⟨_, _, _, av, st1.numVars, st1.numVars + 2, st1.numVars + 1, st1.numVars + 4, rfl, rfl,
    rfl, ?_, ?_⟩
  · intro i hi d hd
    have := hwrites i hi d hd
    omega
  · intro t ref ht href
    convert each_counts hb hwrites ht href using 1
    · simp [loopHead]
      omega
    · simp [loopHead]
      omega
    · rw [harranged.code_eq]
      simp [loopHead, loopTail]
      omega

/-- What is known of a `for` statement. -/
structure Looping (p : Program) (cap : Int) (f : Func) (pre : Code) (x : Chunk α)
    (parts : Parts α) (last post : Code) : Prop where
  body : f.body = pre ++ x.code ++ post
  contained : Contained p cap f pre.length (pre ++ x.code).length
  range : ∀ {s name start limit b}, x.node = .stmt (.forRange s name start limit b) →
    RangeLaw p cap f pre x parts name start limit
  each : ∀ {s name array b}, x.node = .stmt (.forEach s name array b) →
    EachLaw p cap f pre x parts name

lemma Placed.looping (hx : Placed c p f pre x post) (harranged : Arranged c f.name x parts last)
    (hshape : Shape x parts last) : Looping p cap f pre x parts last post where
  body := hx.segment.body
  contained := hx.segment.contained
  range := by
    intro s name start limit b hnode
    rw [Shape, hnode] at hshape
    exact RangeShape.law hx.segment harranged hshape
  each := by
    intro s name array b hnode
    rw [Shape, hnode] at hshape
    exact EachShape.law hx.segment harranged hshape

end Lowering

end Tac

end Minilang
