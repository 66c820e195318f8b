import Minilang.Proofs.Bytecode.Generation
import Minilang.Proofs.Machine.Instructions

/-!
# The machine follows three-address code

A state of the machine is related to a state of three-address code if the local variables hold the
values of the registers, the next instruction of the machine is the first of the code of the next
instruction of three-address code, and all calls around are waiting to store their results.  Values
are compared up to the payload of a NaN.

From related states, one step of three-address code is followed by steps of the machine that print
nothing, and a last one that comes to a related state, stops with the same result, or fails with the
same fault.
-/

namespace Minilang

open List

open Tac (Operand Instr Reason)

/-! ### Operations up to the payload of a NaN -/

namespace Tac

lemma position_canon (h : Heap) (a i : Value) :
    position h.canon a.canon i.canon = position h a i := by
  cases a with
  | array ref =>
    cases i with
    | int n => simp [Value.canon, position]
    | _ => rfl
  | _ => rfl

lemma fieldOf_canon (h : Heap) (v : Value) (name : Bytes) :
    fieldOf h.canon v.canon name = (fieldOf h v name).map fun r => (r.1, r.2.canon) := by
  cases v with
  | record ref =>
    simp only [Value.canon, fieldOf, Heap.record_canon, Record.get?_canon]
    cases (h.record ref).get? name <;> rfl
  | _ => rfl

lemma condition_canon (v : Value) : condition v.canon = condition v := by
  cases v <;> rfl

lemma callee_canon (p : Program) (v : Value) : callee p v.canon = callee p v := by
  cases v <;> rfl

lemma withFields_canon (r : Record) (fields : List (Bytes × Value)) :
    (withFields r fields).canon = withFields r.canon (fields.map fun f => (f.1, f.2.canon)) := by
  induction fields generalizing r with
  | nil => rfl
  | cons f fields ih =>
    simp only [withFields, map_cons, foldl_cons] at ih ⊢
    rw [ih, Record.set_canon]

lemma ofOperation_canon {r r' : Except OperationError Value}
    (h : r.map Value.canon = r'.map Value.canon) :
    (ofOperation r).map Value.canon = (ofOperation r').map Value.canon := by
  cases r <;> cases r' <;> simp_all [Except.map, ofOperation]

end Tac

/-! ### Steps that print nothing -/

variable {k : Nat} {cap : Int}

namespace Machine

/-- A number of steps that neither print nor stop. -/
inductive Quiet (b : Bytecode.Program) (cap : Int) : Nat → State → State → Prop
  | refl (s : State) : Quiet b cap 0 s s
  | step {k : Nat} {s s' s'' : State} : (step b cap).run s = .ok none s' →
      s'.output = s.output → Quiet b cap k s' s'' → Quiet b cap (k + 1) s s''

variable {b : Bytecode.Program}

lemma Quiet.one {s s' : State} (h : (Machine.step b cap).run s = .ok none s')
    (ho : s'.output = s.output) : Quiet b cap 1 s s' :=
  .step h ho (.refl s')

lemma Quiet.trans {j : Nat} {s s' s'' : State} (h : Quiet b cap j s s')
    (h' : Quiet b cap k s' s'') : Quiet b cap (j + k) s s'' := by
  induction h with
  | refl s => rwa [zero_add]
  | @step j _ _ _ hstep ho _ ih =>
    rw [add_right_comm]
    exact .step hstep ho (ih h')

lemma Quiet.output_eq {s s' : State} (h : Quiet b cap k s s') : s'.output = s.output := by
  induction h with
  | refl => rfl
  | step _ ho _ ih => exact ih.trans ho

end Machine

namespace Bytecode

open Machine (View Quiet)

variable {p : Tac.Program} {b : Program} {f : Tac.Func} {g : Func}

/-! ### Related states -/

variable {s' : Machine.State} {span : Span} {name : Bytes}

/-- The local variables of a call hold the values of its registers. -/
structure Holds (code : FuncCode p b.consts f g) (regs : Tac.Regs) (locals : List Value) :
    Prop where
  length_eq : (locals.length : Int) = g.numLocals
  value : ∀ {r n : Nat}, code.env.slot r = some n →
    ∃ v, locals[n]? = some v ∧ v.canon = (regs r).canon

/-- The place of the code of the instruction of the given number. -/
def Place (code : FuncCode p b.consts f g) (pc ip : Nat) : Prop :=
  Laid p code.env code.label ip (f.body.drop pc) (code.drafts.drop ip)

/-- The calls around the current one are waiting to store their results. -/
inductive Around (p : Tac.Program) (b : Program) :
    List (Tac.Call × Nat) → List Value → Array Machine.Frame → Prop
  | nil : Around p b [] [] #[]
  | cons {c : Tac.Call} {d : Nat} {cs : List (Tac.Call × Nat)} {w : View} {ip : Nat} {n : UInt16}
      (code : FuncCode p b.consts c.func w.func) : Holds code c.regs w.locals →
      Place code c.pc (ip + 1) → code.env.slot d = some n.toNat →
      w.func.code[ip]? = some (.of .store n) → Around p b cs w.below w.callers →
      Around p b ((c, d) :: cs) (w.below ++ w.locals) (w.callers.push (w.frame ip))

lemma Around.size_eq {cs : List (Tac.Call × Nat)} {below : List Value}
    {callers : Array Machine.Frame} (h : Around p b cs below callers) :
    callers.size = cs.length := by
  induction h with
  | nil => rfl
  | cons _ _ _ _ _ _ ih => rw [Array.size_push, ih, length_cons]

/-- What a state of three-address code and a view of the machine have in common, apart from the next
instruction. -/
structure Here (t : Tac.State) (w : View) (code : FuncCode p b.consts t.call.func w.func)
    (h : Heap) : Prop where
  holds : Holds code t.call.regs w.locals
  heap : h.canon = t.heap.canon
  around : Around p b t.callers w.below w.callers

/-- A state of the machine that stands for a state of three-address code. -/
def Related (p : Tac.Program) (b : Program) (t : Tac.State) (s : Machine.State) : Prop :=
  ∃ (w : View) (ip : Nat) (h : Heap) (code : FuncCode p b.consts t.call.func w.func),
    s = w.state [] ip h t.output ∧ Here t w code h ∧ Place code t.call.pc ip

/-- What the machine does when an instruction of three-address code is executed in the function of
the given name, at the given place. -/
inductive Follows (p : Tac.Program) (b : Program) (cap : Int) (name : Bytes) (span : Span)
    (s : Machine.State) : Except Reason (Option Value × Tac.State) → Prop
  | go {k s1 s' t} : Quiet b cap k s s1 →
      (Machine.step b cap).run s1 = .ok none s' → Related p b t s' →
      Follows p b cap name span s (.ok (none, t))
  | halt {k s1 s' v v' t} : Quiet b cap k s s1 → (Machine.step b cap).run s1 = .ok (some v) s' →
      v.canon = v'.canon → s'.heap.canon = t.heap.canon → s'.output = t.output →
      Follows p b cap name span s (.ok (some v', t))
  | fail {k s1 s' ip e} : Quiet b cap k s s1 →
      (Machine.step b cap).run s1 = .error ⟨e.1, name, ip, span, e.2⟩ s' →
      s'.output = s.output → Follows p b cap name span s (.error e)

lemma Follows.quiet {s : Machine.State}
    {r : Except Reason (Option Value × Tac.State)} (h : Quiet b cap k s s')
    (h' : Follows p b cap name span s' r) : Follows p b cap name span s r := by
  cases h' with
  | go hq hs hr => exact .go (h.trans hq) hs hr
  | halt hq hs hv hh ho => exact .halt (h.trans hq) hs hv hh ho
  | fail hq hs ho => exact .fail (h.trans hq) hs (ho.trans h.output_eq)

/-! ### The code of an instruction -/

variable {ip : Nat} {ds : List Draft} {is : List Instruction}

/-- The drafts of an instruction stand at a place of the code. -/
def CodeAt (g : Func) (label : Bytes → Option Nat) (span : Span) : Nat → List Draft → Prop
  | _, [] => True
  | ip, d :: ds => (∃ i, g.code[ip]? = some i ∧ g.span ip = span ∧ Resolves label d i) ∧
      CodeAt g label span (ip + 1) ds

lemma codeAt_plain_cons {label : Bytes → Option Nat} {i : Instruction} :
    CodeAt g label span ip (plain (i :: is)) ↔
      (g.code[ip]? = some i ∧ g.span ip = span) ∧ CodeAt g label span (ip + 1) (plain is) := by
  refine and_congr_left fun _ => ⟨?_, fun h => ⟨i, h.1, h.2, .plain⟩⟩
  rintro ⟨_, hi, hspan, ⟨⟩⟩
  exact ⟨hi, hspan⟩

lemma codeAt_append {label : Bytes → Option Nat} {ds' : List Draft} :
    CodeAt g label span ip (ds ++ ds') ↔
      CodeAt g label span ip ds ∧ CodeAt g label span (ip + ds.length) ds' := by
  induction ds generalizing ip with
  | nil => exact ⟨fun h => ⟨trivial, h⟩, fun h => h.2⟩
  | cons d ds ih =>
    have hlen : ip + (d :: ds).length = ip + 1 + ds.length := by
      rw [length_cons]
      omega
    rw [cons_append, CodeAt, CodeAt, ih, hlen, and_assoc]

lemma codeAt_plain_append {label : Bytes → Option Nat} {js : List Instruction} :
    CodeAt g label span ip (plain (is ++ js)) ↔
      CodeAt g label span ip (plain is) ∧ CodeAt g label span (ip + is.length) (plain js) := by
  rw [plain, map_append, codeAt_append, length_map]

lemma codeAt_of_drop {code : FuncCode p b.consts f g} {rest : List (Located Draft)}
    (h : code.drafts.drop ip = ds.map (fun d => (⟨span, d⟩ : Located Draft)) ++ rest) :
    CodeAt g code.label span ip ds := by
  induction ds generalizing ip with
  | nil => trivial
  | cons d ds ih =>
    have hd : code.drafts[ip]? = some ⟨span, d⟩ := by
      rw [← add_zero ip, ← getElem?_drop, h]
      rfl
    obtain ⟨i, hi, hspan, hres⟩ := code.resolves hd
    refine ⟨⟨i, hi, hspan, hres⟩, ih ?_⟩
    rw [← tail_drop, h]
    rfl

/-! ### Pushing operands -/

variable {xs : List Operand} {w : View} {x : Operand} {regs : Tac.Regs}

section Pushing

variable {code : FuncCode p b.consts f w.func} (cap : Int) {label : Bytes → Option Nat}

variable (hh : Holds code regs w.locals)

include hh

lemma Holds.push {i : Instruction} (hx : Pushes p code.env x i)
    (hi : w.func.code[ip]? = some i) (ops : List Value) (h : Heap) (o : Array Bytes) :
    ∃ v, Quiet b cap 1 (w.state ops ip h o) (w.state (ops ++ [v]) (ip + 1) h o) ∧
      v.canon = (x.eval p regs).canon := by
  cases hx with
  | reg hr =>
    obtain ⟨v, hv, hc⟩ := hh.value hr
    exact ⟨v, .one (View.step_load ops hi hv) rfl, hc⟩
  | lit hk hc => exact ⟨_, .one (View.step_const ops hi (code.const_eq hk)) rfl, hc⟩

lemma Holds.pushAll (hxs : PushesAll p code.env xs is)
    (hcode : CodeAt w.func label span ip (plain is)) (ops : List Value) (h : Heap)
    (o : Array Bytes) : ∃ vs, Quiet b cap is.length (w.state ops ip h o)
        (w.state (ops ++ vs) (ip + is.length) h o) ∧
      vs.map Value.canon = (xs.map (Operand.eval p regs)).map Value.canon := by
  induction hxs generalizing ip ops with
  | nil => exact ⟨[], by simpa using Quiet.refl _, rfl⟩
  | @cons x i xs is hx _ ih =>
    obtain ⟨⟨hi, -⟩, hrest⟩ := codeAt_plain_cons.mp hcode
    obtain ⟨v, hq, hv⟩ := hh.push cap hx hi ops h o
    obtain ⟨vs, hqs, hvs⟩ := ih hrest (ops ++ [v])
    refine ⟨v :: vs, ?_, by simp [hv, hvs]⟩
    have hlen : ip + 1 + is.length = ip + (i :: is).length := by
      rw [length_cons]
      omega
    rw [hlen, append_assoc] at hqs
    have := hq.trans hqs
    rwa [add_comm] at this

lemma Holds.pushFields {fs : List (Bytes × Operand)} (hfs : PushesFields p code.env fs is)
    (hcode : CodeAt w.func label span ip (plain is)) (ops : List Value) (h : Heap)
    (o : Array Bytes) : ∃ fields : List (Bytes × Value), Quiet b cap is.length (w.state ops ip h o)
        (w.state (ops ++ View.alternate fields) (ip + is.length) h o) ∧
      fields.map (fun f => (f.1, f.2.canon)) =
        fs.map fun f => (f.1, (f.2.eval p regs).canon) := by
  induction hfs generalizing ip ops with
  | nil => exact ⟨[], by simpa [View.alternate] using Quiet.refl _, rfl⟩
  | @cons name x n i fs is hn hx _ ih =>
    obtain ⟨⟨hc, -⟩, hcode'⟩ := codeAt_plain_cons.mp hcode
    obtain ⟨⟨hi, -⟩, hrest⟩ := codeAt_plain_cons.mp hcode'
    have hq : Quiet b cap 1 (w.state ops ip h o) (w.state (ops ++ [.string name]) (ip + 1) h o) :=
      .one (View.step_const ops hc (code.const_eq hn)) rfl
    obtain ⟨v, hq', hv⟩ := hh.push cap hx hi (ops ++ [.string name]) h o
    obtain ⟨fields, hqs, hfields⟩ := ih hrest (ops ++ [.string name] ++ [v])
    refine ⟨(name, v) :: fields, ?_, by simp [hv, hfields]⟩
    have hlen : ip + 1 + 1 + is.length =
        ip + (.of .const n :: i :: is : List Instruction).length := by
      simp only [length_cons]
      omega
    have hops : ops ++ [.string name] ++ [v] ++ View.alternate fields =
        ops ++ View.alternate ((name, v) :: fields) := by
      simp [View.alternate]
    rw [hlen, hops] at hqs
    have := hq.trans (hq'.trans hqs)
    have hcount : 1 + (1 + is.length) = (.of .const n :: i :: is : List Instruction).length := by
      omega
    rwa [hcount] at this

end Pushing

/-! ### Results and faults -/

variable {v v' : Value} {t : Tac.State} {h : Heap} {d pc : Nat} {n : UInt16} {s : Machine.State}

section Results

variable {code : FuncCode p b.consts t.call.func w.func}

lemma Holds.write {code : FuncCode p b.consts f g} {locals : List Value}
    (hh : Holds code regs locals) {n : Nat} (hd : code.env.slot d = some n)
    (hv : v.canon = v'.canon) : Holds code (Function.update regs d v') (locals.set n v) := by
  refine ⟨by rw [length_set]; exact hh.length_eq, fun {r m} hr => ?_⟩
  obtain ⟨u, hu, hc⟩ := hh.value hr
  have hlt : m < locals.length := (List.getElem?_eq_some_iff.mp hu).1
  by_cases hrd : r = d
  · subst hrd
    cases hd.symm.trans hr
    exact ⟨v, by rw [getElem?_set_self hlt], by rw [Function.update_self, hv]⟩
  · have hne : n ≠ m := by
      rintro rfl
      exact hrd (code.slot_inj hr hd)
    exact ⟨u, by rw [getElem?_set_ne hne, hu], by rw [Function.update_of_ne hrd, hc]⟩

lemma Here.store (here : Here t w code h) (hd : code.env.slot d = some n.toNat)
    (hi : w.func.code[ip]? = some (.of .store n)) (hplace : Place code t.call.pc (ip + 1))
    (hv : v.canon = v'.canon) :
    Follows p b cap name span (w.state [v] ip h t.output) (.ok (none, t.write d v')) := by
  have hlt : n.toNat < w.locals.length := by
    have := code.slot_lt hd
    have := here.holds.length_eq
    omega
  exact .go (.refl _) (View.step_store [] hi hlt v) ⟨w.setLocal n.toNat v, ip + 1, h, code, rfl,
      ⟨here.holds.write hd hv, here.heap, here.around⟩, hplace⟩

lemma Here.fail (code : FuncCode p b.consts t.call.func w.func) {e : Reason}
    (hspan : w.func.span ip = span)
    (hs : (Machine.step b cap).run s = .error (w.fault ip e.1 e.2) s') (ho : s'.output = s.output) :
    Follows p b cap t.call.func.name span s (.error e) := by
  have hs' : (Machine.step b cap).run s =
      .error ⟨e.1, t.call.func.name, ip, span, e.2⟩ s' := by
    rw [hs, ← code.name_eq, ← hspan]
    rfl
  exact .fail (.refl _) hs' ho

/-- An operation fails in the machine as in three-address code, or both have results, which `f`
gives the same. -/
theorem Here.either (code : FuncCode p b.consts t.call.func w.func) {α β : Type} {f : α → β}
    {r r' : Except Reason α} {next : α → Machine.State}
    {F : α → Except Reason (Option Value × Tac.State)} (hr : r.map f = r'.map f)
    (hs : (Machine.step b cap).run s = w.outcome ip s' next r) (hspan : w.func.span ip = span)
    (ho : s'.output = s.output)
    (hok : ∀ a a', f a = f a' → (Machine.step b cap).run s = .ok none (next a) →
      Follows p b cap t.call.func.name span s (F a')) :
    Follows p b cap t.call.func.name span s (r' >>= F) := by
  cases r with
  | error e =>
    cases r' with
    | error e' =>
      obtain rfl := Except.error.inj hr
      exact fail code hspan hs ho
    | ok a' => cases hr
  | ok a =>
    cases r' with
    | error e' => cases hr
    | ok a' => exact hok a a' (Except.ok.inj hr) hs

end Results

/-! ### Instructions -/

section Instructions

variable {code : FuncCode p b.consts t.call.func w.func} {m : UInt16} {y z : Operand}
  {i j k : Instruction}

/-- The machine follows an instruction with the given code, which is next. -/
abbrev Here.Executes (_ : Here t w code h) (cap : Int) (span : Span) (ip : Nat) (i : Instr)
    (ds : List Draft) : Prop :=
  CodeAt w.func code.label span ip ds → Place code t.call.pc (ip + ds.length) →
    Follows p b cap t.call.func.name span (w.state [] ip h t.output) (Tac.execute p cap t i)

variable {u : Value} (here : Here t w code h)
include here

lemma Here.push (cap : Int) (hx : Pushes p code.env x i)
    (hi : w.func.code[ip]? = some i) (ops : List Value) :
    ∃ v, Quiet b cap 1 (w.state ops ip h t.output) (w.state (ops ++ [v]) (ip + 1) h t.output) ∧
      v.canon = (x.eval p t.call.regs).canon :=
  here.holds.push cap hx hi ops h t.output

lemma Here.position_eq (hu : u.canon = (x.eval p t.call.regs).canon)
    (hv : v.canon = (y.eval p t.call.regs).canon) :
    Tac.position h u v = Tac.position t.heap (t.eval p x) (t.eval p y) := by
  rw [← Tac.position_canon, here.heap, hu, hv, Tac.position_canon]
  rfl

lemma Here.fieldOf_eq (hu : u.canon = (x.eval p t.call.regs).canon) (name : Bytes) :
    (Tac.fieldOf h u name).map (fun r => (r.1, r.2.canon)) =
      (Tac.fieldOf t.heap (t.eval p x) name).map fun r => (r.1, r.2.canon) := by
  rw [← Tac.fieldOf_canon, here.heap, hu, Tac.fieldOf_canon]
  rfl

section Results

variable (hd : code.env.slot d = some n.toNat)
include hd

lemma Here.array (hxs : PushesAll p code.env xs is) (hm : xs.length = m.toNat) :
    here.Executes cap span ip (.array d xs) (plain (is ++ [.of .array m, .of .store n])) := by
  intro hcode hplace
  simp only [codeAt_plain_append, codeAt_plain_cons] at hcode
  simp only [length_map, length_append] at hplace
  obtain ⟨his, ⟨hop, -⟩, ⟨hstore, -⟩, -⟩ := hcode
  obtain ⟨vs, hq, hvs⟩ := here.holds.pushAll cap hxs his [] h t.output
  have hlen : vs.length = m.toNat := by
    have := congrArg length hvs
    simp only [length_map] at this
    omega
  have hsize : h.arrays.size = t.heap.arrays.size := by
    rw [← Heap.size_arrays_canon, here.heap, Heap.size_arrays_canon]
  have hheap : (h.newArray vs.toArray).2.canon =
      (t.heap.newArray (xs.map (t.eval p)).toArray).2.canon := by
    rw [Heap.canon_newArray, Heap.canon_newArray, here.heap, map_toArray, hvs, map_toArray]
    rfl
  have here' : Here { t with heap := (t.heap.newArray (xs.map (t.eval p)).toArray).2 } w code
      (h.newArray vs.toArray).2 := ⟨here.holds, hheap, here.around⟩
  refine .quiet (hq.trans (.one (View.step_array [] hop hlen) rfl))
    (here'.store hd hstore hplace ?_)
  simp [Heap.newArray, hsize]

lemma Here.record {type : Bytes} {names : List Bytes} {l : UInt16} (hlen : names.length = xs.length)
    (hm : names.length = m.toNat) (hl : code.env.const l.toNat = some (.string type))
    (hfs : PushesFields p code.env (names.zip xs) is) :
    here.Executes cap span ip (.record d type names xs)
      (plain (.of .const l :: (is ++ [.of .record m, .of .store n]))) := by
  intro hcode hplace
  simp only [codeAt_plain_append, codeAt_plain_cons] at hcode
  rw [length_map, length_cons, length_append, add_comm (_ + _), ← add_assoc, ← add_assoc] at hplace
  obtain ⟨⟨htype, -⟩, his, ⟨hop, -⟩, ⟨hstore, -⟩, -⟩ := hcode
  have hq : Quiet b cap 1 (w.state [] ip h t.output)
      (w.state [.string type] (ip + 1) h t.output) :=
    .one (View.step_const [] htype (code.const_eq hl)) rfl
  obtain ⟨fields, hq', hfields⟩ :=
    here.holds.pushFields cap hfs his [.string type] h t.output
  have hcount : fields.length = m.toNat := by
    have := congrArg length hfields
    simp only [length_map, length_zip] at this
    omega
  have hsize : h.records.size = t.heap.records.size := by
    rw [← Heap.size_records_canon, here.heap, Heap.size_records_canon]
  have hzip : (names.zip (xs.map (t.eval p))).map (fun f => (f.1, f.2.canon)) =
      (names.zip xs).map fun f => (f.1, (f.2.eval p t.call.regs).canon) := by
    rw [zip_map_right, map_map]
    rfl
  have hheap : (h.newRecord (Tac.withFields (.empty type) fields)).2.canon =
      (t.heap.newRecord (Tac.withFields (.empty type)
        (names.zip (xs.map (t.eval p))))).2.canon := by
    rw [Heap.canon_newRecord, Heap.canon_newRecord, here.heap, Tac.withFields_canon,
      Tac.withFields_canon, hfields, hzip]
  have here' : Here { t with heap := (t.heap.newRecord (Tac.withFields (.empty type)
      (names.zip (xs.map (t.eval p))))).2 } w code
      (h.newRecord (Tac.withFields (.empty type) fields)).2 := ⟨here.holds, hheap, here.around⟩
  refine .quiet (hq.trans (hq'.trans (.one (View.step_record [] hop type hcount) rfl))) ?_
  refine here'.store hd hstore hplace ?_
  simp [Heap.newRecord, hsize]

variable (hx : Pushes p code.env x i)
include hx

lemma Here.assign : here.Executes cap span ip (.assign d x) (plain [i, .of .store n]) := by
  intro hcode hplace
  simp only [codeAt_plain_cons] at hcode
  obtain ⟨⟨hi, -⟩, ⟨hstore, -⟩, -⟩ := hcode
  obtain ⟨v, hq, hv⟩ := here.push cap hx hi []
  exact .quiet hq (here.store hd hstore hplace hv)

lemma Here.unary {op : Primitive} :
    here.Executes cap span ip (.unary d (.known op) x)
    (plain [i, .of (.primitive op) 0, .of .store n]) := by
  intro hcode hplace
  simp only [codeAt_plain_cons] at hcode
  obtain ⟨⟨hi, -⟩, ⟨hop, hspan⟩, ⟨hstore, -⟩, -⟩ := hcode
  obtain ⟨u, hq, hu⟩ := here.push cap hx hi []
  have hr := Tac.ofOperation_canon (Value.primitive_eq_of_canon op here.heap hu)
  refine .quiet hq (either code hr (View.step_primitive [] hop u) hspan rfl ?_)
  exact fun _ _ hv hs => .quiet (.one hs rfl) (here.store hd hstore hplace hv)

lemma Here.field (hm : code.env.const m.toNat = some (.string name)) :
    here.Executes cap span ip (.field d x name) (plain [i, .of .fieldGet m, .of .store n]) := by
  intro hcode hplace
  simp only [codeAt_plain_cons] at hcode
  obtain ⟨⟨hi, -⟩, ⟨hop, hspan⟩, ⟨hstore, -⟩, -⟩ := hcode
  obtain ⟨u, hq, hu⟩ := here.push cap hx hi []
  refine .quiet hq (either code (here.fieldOf_eq hu name)
    (View.step_fieldGet [] hop (code.const_eq hm) u) hspan rfl fun r r' hr hs => ?_)
  exact .quiet (.one hs rfl) (here.store hd hstore hplace (Prod.mk.inj hr).2)

variable (hy : Pushes p code.env y j)
include hy

lemma Here.binary {op : BinaryOp} :
    here.Executes cap span ip (.binary d (.known op) x y)
    (plain [i, j, .of (.binary op) 0, .of .store n]) := by
  intro hcode hplace
  simp only [codeAt_plain_cons] at hcode
  obtain ⟨⟨hi, -⟩, ⟨hj, -⟩, ⟨hop, hspan⟩, ⟨hstore, -⟩, -⟩ := hcode
  obtain ⟨u, hq, hu⟩ := here.push cap hx hi []
  obtain ⟨v, hq', hv⟩ := here.push cap hy hj [u]
  have hr := Tac.ofOperation_canon (Value.binary_eq_of_canon op here.heap hu hv)
  refine .quiet (hq.trans hq') (either code hr (View.step_binary [] hop u v) hspan rfl
    fun _ _ hv hs => ?_)
  exact .quiet (.one hs rfl) (here.store hd hstore hplace hv)

lemma Here.index :
    here.Executes cap span ip (.index d x y) (plain [i, j, .of .indexGet 0, .of .store n]) := by
  intro hcode hplace
  simp only [codeAt_plain_cons] at hcode
  obtain ⟨⟨hi, -⟩, ⟨hj, -⟩, ⟨hop, hspan⟩, ⟨hstore, -⟩, -⟩ := hcode
  obtain ⟨u, hq, hu⟩ := here.push cap hx hi []
  obtain ⟨v, hq', hv⟩ := here.push cap hy hj [u]
  have hr := congrArg (Except.map id) (here.position_eq hu hv)
  refine .quiet (hq.trans hq') (either code hr (View.step_indexGet [] hop u v) hspan rfl
    fun r r' (heq : r = r') hs => ?_)
  subst heq
  refine .quiet (.one hs rfl) (here.store hd hstore hplace ?_)
  rw [← Heap.elem_canon, here.heap, Heap.elem_canon]

end Results

section Effects

variable (hx : Pushes p code.env x i)
include hx

lemma Here.print : here.Executes cap span ip (.print x) (plain [i, .of .print 0]) := by
  intro hcode hplace
  simp only [codeAt_plain_cons] at hcode
  obtain ⟨⟨hi, -⟩, ⟨hop, -⟩, -⟩ := hcode
  obtain ⟨v, hq, hv⟩ := here.push cap hx hi []
  have htext : h.text v = t.heap.text (t.eval p x) := Heap.text_eq_of_canon here.heap hv
  refine .go hq (View.step_print [] hop v) ?_
  rw [htext]
  exact ⟨w, _, _, code, rfl, ⟨here.holds, here.heap, here.around⟩, hplace⟩

variable (hy : Pushes p code.env y j)
include hy

lemma Here.setIndex (hz : Pushes p code.env z k) :
    here.Executes cap span ip (.setIndex x y z) (plain [i, j, k, .of .indexSet 0]) := by
  intro hcode hplace
  simp only [codeAt_plain_cons] at hcode
  obtain ⟨⟨hi, -⟩, ⟨hj, -⟩, ⟨hk, -⟩, ⟨hop, hspan⟩, -⟩ := hcode
  obtain ⟨u, hq, hu⟩ := here.push cap hx hi []
  obtain ⟨v, hq', hv⟩ := here.push cap hy hj [u]
  obtain ⟨c, hq'', hc⟩ := here.push cap hz hk [u, v]
  have hr := congrArg (Except.map id) (here.position_eq hu hv)
  refine .quiet (hq.trans (hq'.trans hq'')) (either code hr (View.step_indexSet [] hop u v c)
    hspan rfl fun r r' (heq : r = r') hs => ?_)
  have hheap : (h.setElem r.1 r.2 c).canon = (t.heap.setElem r'.1 r'.2 (t.eval p z)).canon := by
    rw [Heap.canon_setElem, here.heap, hc, Heap.canon_setElem, heq]
    rfl
  exact .go (.refl _) hs ⟨w, _, _, code, rfl, ⟨here.holds, hheap, here.around⟩, hplace⟩

lemma Here.setField (hm : code.env.const m.toNat = some (.string name)) :
    here.Executes cap span ip (.setField x name y) (plain [i, j, .of .fieldSet m]) := by
  intro hcode hplace
  simp only [codeAt_plain_cons] at hcode
  obtain ⟨⟨hi, -⟩, ⟨hj, -⟩, ⟨hop, hspan⟩, -⟩ := hcode
  obtain ⟨u, hq, hu⟩ := here.push cap hx hi []
  obtain ⟨v, hq', hv⟩ := here.push cap hy hj [u]
  refine .quiet (hq.trans hq') (either code (here.fieldOf_eq hu name)
    (View.step_fieldSet [] hop (code.const_eq hm) u v) hspan rfl fun r r' hr hs => ?_)
  have hheap : (h.setField r.1 name v).canon = (t.heap.setField r'.1 name (t.eval p y)).canon := by
    rw [Heap.canon_setField, here.heap, hv, Heap.canon_setField, (Prod.mk.inj hr).1]
    rfl
  exact .go (.refl _) hs ⟨w, _, _, code, rfl, ⟨here.holds, hheap, here.around⟩, hplace⟩

end Effects

/-! ### Jumps -/

variable {target : Nat} {l : Bytes}

omit here in
lemma FuncCode.place_of_label {code : FuncCode p b.consts f g} (hl : code.label l = some target) :
    target ≤ g.code.size ∧ ∃ pc, f.place? l = some pc ∧ Place code pc target := by
  obtain ⟨i, hi, hlabel⟩ := code.label_known hl
  have hsome : (f.place? l).isSome = true := by
    rw [Tac.Func.place?, findIdx?_isSome, any_eq_true]
    exact ⟨i, hi, by simp [hlabel]⟩
  obtain ⟨pc, hpc⟩ := Option.isSome_iff_exists.mp hsome
  obtain ⟨hlt, hat, -⟩ := findIdx?_eq_some_iff_getElem.mp hpc
  obtain ⟨n, hle, hplace⟩ := code.laid.drop pc
  rw [zero_add] at hplace
  have hn : code.label l = some n := by
    rw [drop_eq_getElem_cons hlt] at hplace
    obtain ⟨_, _, _, _, hlabel', _⟩ := Laid.cons_iff.mp hplace
    exact hlabel' l (by simpa using hat)
  cases hl.symm.trans hn
  exact ⟨by rw [code.size_eq]; exact hle, pc, hpc, hplace⟩

lemma Here.goTo (hplace : Place code pc target) :
    Related p b (t.goTo pc) (w.state [] target h t.output) :=
  ⟨w, target, h, code, rfl, ⟨here.holds, here.heap, here.around⟩, hplace⟩

lemma Here.jump : here.Executes cap span ip (.jump l) [.jump .jump l] := by
  intro hcode _
  obtain ⟨⟨i, hi, -, hres⟩, -⟩ := hcode
  cases hres with
  | jump hl =>
    obtain ⟨hle, pc, hpc, hplace⟩ := code.place_of_label hl
    have hexec : Tac.execute p cap t (.jump l) = .ok (none, t.goTo pc) := by
      rw [Tac.execute, Tac.State.jump, hpc]
      rfl
    rw [hexec]
    exact .go (.refl _) (View.step_jump [] hi hle) (here.goTo hplace)

lemma Here.jumpUnless (hx : Pushes p code.env x i) :
    here.Executes cap span ip (.jumpUnless x l) [.plain i, .jump .jumpIfFalse l] := by
  intro hcode hplace
  obtain ⟨⟨_, hi, -, ⟨⟩⟩, ⟨_, hj, hspan, hres⟩, -⟩ := hcode
  obtain ⟨v, hq, hv⟩ := here.push cap hx hi []
  cases hres with
  | jump hl =>
    obtain ⟨hle, pc, hpc, hplace'⟩ := code.place_of_label hl
    have hsame : Tac.condition v = Tac.condition (t.eval p x) := by
      rw [← Tac.condition_canon v, hv, Tac.condition_canon]
      rfl
    have hexec : Tac.execute p cap t (.jumpUnless x l) = (do
        let c ← Tac.condition (t.eval p x)
        return (none, if c then t else t.goTo pc)) := by
      rw [Tac.execute, Tac.State.jump, hpc]
      rfl
    rw [hexec]
    refine .quiet hq (either code (congrArg (Except.map id) hsame)
      (View.step_jumpIfFalse [] hj hle v) hspan rfl fun c c' (heq : c = c') hs => ?_)
    subst heq
    cases c with
    | true => exact .go (.refl _) hs (here.goTo hplace)
    | false => exact .go (.refl _) hs (here.goTo hplace')

/-! ### Calls and returns -/

variable {args : List Operand}

/-- A call returns: the machine stops with the result, or goes on in the call that waits for it. -/
theorem Here.leave {ops : List Value}
    (hs : (Machine.step b cap).run s = (Machine.leave v).run (w.state ops ip h t.output))
    (ho : s.output = t.output) (hv : v.canon = v'.canon) :
    Follows p b cap name span s (.ok (t.leave v')) := by
  obtain ⟨below, locals, func, callers⟩ := w
  obtain ⟨call, cs, heap, output⟩ := t
  have haround : Around p b cs below callers := here.around
  cases haround with
  | nil =>
    obtain ⟨s', hleave, hh, ho'⟩ :=
      View.run_leave_outermost ⟨[], locals, func, #[]⟩ ops ip h output rfl v
    rw [hleave] at hs
    exact .halt (.refl _) hs hv (by rw [hh]; exact here.heap) ho'
  | @cons c d cs w ip' n code' hholds hplace hslot hstore haround' =>
    rw [show (⟨w.below ++ w.locals, locals, func, w.callers.push (w.frame ip')⟩ : View) =
      w.callee ip' func locals from rfl, View.run_leave_callee] at hs
    have here' : Here ⟨c, cs, heap, output⟩ w code' h := ⟨hholds, here.heap, haround'⟩
    exact .quiet (.one hs ho.symm) (here'.store hslot hstore hplace hv)

lemma Here.retNull : here.Executes cap span ip (.ret none) (plain [.of .null 0, .of .ret 0]) := by
  intro hcode _
  simp only [codeAt_plain_cons] at hcode
  obtain ⟨⟨hnull, -⟩, ⟨hret, -⟩, -⟩ := hcode
  have hq : Quiet b cap 1 (w.state [] ip h t.output) (w.state [.null] (ip + 1) h t.output) :=
    .one (View.step_null [] hnull) rfl
  exact .quiet hq (here.leave (View.step_ret [] hret .null) rfl rfl)

lemma Here.ret (hx : Pushes p code.env x i) :
    here.Executes cap span ip (.ret (some x)) (plain [i, .of .ret 0]) := by
  intro hcode _
  simp only [codeAt_plain_cons] at hcode
  obtain ⟨⟨hi, -⟩, ⟨hret, -⟩, -⟩ := hcode
  obtain ⟨v, hq, hv⟩ := here.push cap hx hi []
  exact .quiet hq (here.leave (View.step_ret [] hret v) rfl hv)

omit here in
lemma target_of_callee (hb : ProgramCode p b) (v : Value) :
    (∃ e, Tac.callee p v = .error e ∧ View.target b v = .error e) ∨
      ∃ f g, Tac.callee p v = .ok f ∧ View.target b v = .ok g ∧
        Nonempty (FuncCode p b.consts f g) := by
  cases v with
  | func name index =>
    let e : Reason := (.invalidOpcode,
      Bytes.concat ["function ", name, " (", Decimal.ofInt index, ") out of range"])
    by_cases hneg : index < 0
    · refine .inl ⟨e, ?_, ?_⟩
      · rw [Tac.callee, if_pos hneg]
      · rw [View.target, if_pos hneg]
    · cases hf : p.funcs[index.toNat]? with
      | some f =>
        obtain ⟨g, hg, hcode⟩ := hb.func hf
        refine .inr ⟨f, g, ?_, ?_, hcode⟩
        · rw [Tac.callee, if_neg hneg, hf]
        · rw [View.target, if_neg hneg, hg]
      | none =>
        have hg : b.funcs[index.toNat]? = none := by
          rw [getElem?_eq_none_iff] at hf
          rw [Array.getElem?_eq_none_iff, hb.size_eq]
          exact hf
        refine .inl ⟨e, ?_, ?_⟩
        · rw [Tac.callee, if_neg hneg, hf]
        · rw [View.target, if_neg hneg, hg]
  | _ => exact .inl ⟨_, rfl, rfl⟩

omit here in
lemma FuncCode.holds_call (code : FuncCode p b.consts f g) {args args' : List Value}
    (hlen : args.length ≤ f.params.length) (hargs : args.map Value.canon = args'.map Value.canon) :
    Holds code (f.call args').regs (View.localsOf g args) := by
  have hparams := code.numParams_eq
  have hle := code.numParams_le
  have hlen' : args'.length = args.length := by
    have := congrArg length hargs
    simpa using this.symm
  refine ⟨?_, fun {r n} hr => ?_⟩
  · simp only [View.localsOf, length_append, length_replicate]
    omega
  · have hlt := code.slot_lt hr
    by_cases harg : r < args.length
    · cases (code.slot_param (by omega)).symm.trans hr
      have harg' : r < args'.length := by omega
      refine ⟨args[r], ?_, ?_⟩
      · rw [View.localsOf, getElem?_append_left harg, getElem?_eq_getElem harg]
      · have := congrArg (·[r]?) hargs
        simp only [getElem?_map, getElem?_eq_getElem harg, getElem?_eq_getElem harg',
          Option.map_some, Option.some.injEq] at this
        simp [Tac.Func.call, getElem?_eq_getElem harg', this]
    · have hn : args.length ≤ n := by
        by_contra hsmall
        exact harg (code.slot_inj hr (code.slot_param (by omega)) ▸ by omega)
      refine ⟨.null, ?_, ?_⟩
      · rw [View.localsOf, getElem?_append_right hn, getElem?_replicate, if_pos (by omega)]
      · have hnone : args'[r]? = none := getElem?_eq_none (by omega)
        simp [Tac.Func.call, hnone]

omit here in
lemma FuncCode.place_start (code : FuncCode p b.consts f g) : Place code 0 0 :=
  code.laid

lemma Here.enter {vs : List Value}
    (hs : (Machine.step b cap).run s = match View.refusal? cap w g vs.length with
      | none => .ok none ((w.callee (ip + 1) g (View.localsOf g vs)).state [] 0 h t.output)
      | some e => .error (w.fault ip e.1 e.2) (w.state vs (ip + 1) h t.output))
    (hspan : w.func.span ip = span) (ho : s.output = t.output)
    (hvs : vs.map Value.canon = (args.map (t.eval p)).map Value.canon)
    (fcode : FuncCode p b.consts f g) (hstore : w.func.code[ip + 1]? = some (.of .store n))
    (hd : code.env.slot d = some n.toNat) (hplace : Place code t.call.pc (ip + 2)) :
    Follows p b cap t.call.func.name span s (do
      let t' ← Tac.enter cap t d f (args.map (t.eval p))
      return (none, t')) := by
  have hcount : vs.length = (args.map (t.eval p)).length := by
    have := congrArg length hvs
    simpa using this
  have hsize := here.around.size_eq
  have hparams := fcode.numParams_eq
  unfold Tac.enter
  by_cases harity : (args.map (t.eval p)).length = f.params.length
  · rw [if_neg (not_not.mpr harity)]
    by_cases hdepth : cap ≤ t.callers.length + 1
    · have hrefuse : View.refusal? cap w g vs.length =
          some (.stackOverflow, Machine.tooDeep cap f.name) := by
        rw [View.refusal?, if_neg (by omega), if_pos (by omega), fcode.name_eq]
      rw [if_pos hdepth]
      rw [hrefuse] at hs
      exact fail code hspan hs ho.symm
    · have hnone : View.refusal? cap w g vs.length = none := by
        rw [View.refusal?, if_neg (by omega), if_neg (by omega)]
      rw [if_neg hdepth]
      rw [hnone] at hs
      refine .go (.refl _) hs ⟨w.callee (ip + 1) g (View.localsOf g vs), 0, h, fcode, rfl,
        ⟨?_, here.heap, ?_⟩, fcode.place_start⟩
      · exact fcode.holds_call (by omega) hvs
      · exact .cons code here.holds hplace hd hstore here.around
  · have hrefuse : View.refusal? cap w g vs.length =
        some (.typeMismatch, Bytes.concat [f.name, " called with ",
          Decimal.ofNat (args.map (t.eval p)).length, " arguments, want ",
          Decimal.ofNat f.params.length]) := by
      rw [View.refusal?, if_pos (by omega), fcode.name_eq, hparams, hcount]
      rfl
    rw [if_pos harity]
    rw [hrefuse] at hs
    exact fail code hspan hs ho.symm

lemma Here.call (hb : ProgramCode p b)
    (hargs : PushesAll p code.env args is) (hx : Pushes p code.env x i) (hm : args.length = m.toNat)
    (hd : code.env.slot d = some n.toNat) :
    here.Executes cap span ip (.call d x args) (plain (is ++ [i, .of .call m, .of .store n])) := by
  intro hcode hplace
  simp only [codeAt_plain_append, codeAt_plain_cons] at hcode
  simp only [length_map, length_append] at hplace
  obtain ⟨his, ⟨hi, -⟩, ⟨hop, hspan⟩, ⟨hstore, -⟩, -⟩ := hcode
  obtain ⟨vs, hq, hvs⟩ := here.holds.pushAll cap hargs his [] h t.output
  obtain ⟨v, hq', hv⟩ := here.holds.push cap hx hi ([] ++ vs) h t.output
  have hcount : vs.length = args.length := by
    have := congrArg length hvs
    simpa using this
  have hsame : Tac.callee p (t.eval p x) = Tac.callee p v := by
    rw [← Tac.callee_canon p v, hv, Tac.callee_canon]
    rfl
  have hexec : Tac.execute p cap t (.call d x args) = (do
      let f ← Tac.callee p v
      return (none, ← Tac.enter cap t d f (args.map (t.eval p)))) := by
    rw [← hsame]
    rfl
  rw [hexec]
  refine .quiet (hq.trans hq') ?_
  obtain ⟨e, hcallee, htarget⟩ | ⟨f, g, hcallee, htarget, ⟨fcode⟩⟩ := target_of_callee hb v
  · rw [hcallee]
    exact fail code hspan (View.step_call_of_error vs hop htarget) rfl
  · have hparams := fcode.numParams_eq
    have hlocals := fcode.numLocals_le
    have hsmall := m.toNat_lt
    have hroom : (vs.length : Int) = g.numParams → g.numLocals < 2 ^ 62 := by omega
    rw [hcallee]
    exact here.enter (View.step_call_of_ok hop (hcount.trans hm) htarget hroom fcode.numParams_le)
      hspan rfl hvs fcode hstore hd hplace

end Instructions

/-! ### Steps of three-address code -/

section Steps

variable {i : Located Instr}

lemma Place.cons {code : FuncCode p b.consts f g} (h : Place code pc ip)
    (hi : f.body[pc]? = some i) :
    ∃ ds, Emits p code.env i.val ds ∧ CodeAt g code.label i.span ip ds ∧
      Place code (pc + 1) (ip + ds.length) := by
  obtain ⟨hlt, rfl⟩ := List.getElem?_eq_some_iff.mp hi
  rw [Place, drop_eq_getElem_cons hlt] at h
  obtain ⟨ds, rest, hdrop, hemits, -, hrest⟩ := Laid.cons_iff.mp h
  refine ⟨ds, hemits, codeAt_of_drop hdrop, ?_⟩
  have hskip : code.drafts.drop (ip + ds.length) = rest := by
    rw [← drop_drop, hdrop, drop_left' (length_map _)]
  rw [Place, hskip]
  exact hrest

/-- **An instruction other than a label is followed by steps of the machine.** -/
theorem Related.follows (hb : ProgramCode p b) (hr : Related p b t s)
    (hi : t.call.instr? = some i) (hlabel : i.val.label? = none) :
    Follows p b cap t.call.func.name i.span s
      (Tac.execute p cap (t.goTo (t.call.pc + 1)) i.val) := by
  obtain ⟨w, ip, h, code, rfl, here, hplace⟩ := hr
  obtain ⟨ds, hemits, hcode, hnext⟩ := hplace.cons hi
  -- The next instruction is set before the current one is executed.
  have here' : Here (t.goTo (t.call.pc + 1)) w code h := ⟨here.holds, here.heap, here.around⟩
  generalize i.val = instr at hemits hlabel
  cases hemits with
  | assign hx hd => exact here'.assign hd hx hcode hnext
  | binary hx hy hd => exact here'.binary hd hx hy hcode hnext
  | unary hx hd => exact here'.unary hd hx hcode hnext
  | call hxs hf hm hd => exact here'.call hb hxs hf hm hd hcode hnext
  | retNull => exact here'.retNull hcode hnext
  | ret hx => exact here'.ret hx hcode hnext
  | jumpUnless hx => exact here'.jumpUnless hx hcode hnext
  | jump => exact here'.jump hcode hnext
  | label => cases hlabel
  | array hxs hm hd => exact here'.array hd hxs hm hcode hnext
  | index hx hy hd => exact here'.index hd hx hy hcode hnext
  | setIndex hx hy hz => exact here'.setIndex hx hy hz hcode hnext
  | field hx hm hd => exact here'.field hd hx hm hcode hnext
  | setField hx hy hm => exact here'.setField hx hy hm hcode hnext
  | record hlen hm hl hfs hd => exact here'.record hd hlen hm hl hfs hcode hnext
  | print hx => exact here'.print hx hcode hnext

lemma Related.label (hr : Related p b t s) (hi : t.call.instr? = some i)
    {l : Bytes} (hlabel : i.val = .label l) : Related p b (t.goTo (t.call.pc + 1)) s := by
  obtain ⟨w, ip, h, code, rfl, here, hplace⟩ := hr
  obtain ⟨ds, hemits, -, hnext⟩ := hplace.cons hi
  rw [hlabel] at hemits
  cases hemits
  exact ⟨w, ip, h, code, rfl, ⟨here.holds, here.heap, here.around⟩, hnext⟩

lemma Related.end (hr : Related p b t s) (hi : t.call.instr? = none) :
    Follows p b cap name span s (.ok (t.leave .null)) := by
  obtain ⟨w, ip, h, code, rfl, here, hplace⟩ := hr
  rw [Place, drop_eq_nil_of_le (getElem?_eq_none_iff.mp hi)] at hplace
  have hdrop : code.drafts.drop ip = [] := by
    generalize code.drafts.drop ip = rest at hplace
    cases hplace
    rfl
  have hcode : w.func.code[ip]? = none := by
    rw [Array.getElem?_eq_none_iff, code.size_eq]
    exact drop_eq_nil_iff.mp hdrop
  exact here.leave (View.step_end hcode) rfl rfl

end Steps

end Bytecode

end Minilang
