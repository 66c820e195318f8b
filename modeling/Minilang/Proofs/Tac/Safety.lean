import Minilang.Proofs.Tac.HeapTypes

/-!
# Typed code does not go wrong

One step of a typed program keeps the registers, the calls and the heap typed, and a whole run does
so by induction.  What may stop the program are divisions by zero, indices out of bounds, too many
nested calls, and components of payloads that are missing where they may be.  If the program halts,
its result has the type of the result of `main`.
-/

namespace Minilang.Tac

open List

/-- The functions of a program have their signatures, and no jump goes astray. -/
structure Program.Typed (c : Static) (sigs : Signatures) (p : Program) : Prop where
  func : ∀ {name : Bytes} {sig : Signature}, (name, sig) ∈ sigs →
    ∃ k f W, p.index? name = some k ∧ p.funcs[k]? = some f ∧ W.sigs = sigs ∧ f.Typed c W sig
  target : ∀ f ∈ p.funcs, ∀ i ∈ f.body, ∀ l, i.val.target? = some l →
    ∃ j ∈ f.body, j.val.label? = some l

/-- What may stop a typed program at a place. -/
inductive Allowed (c : Static) (span : Span) : Reason → Prop
  | division {cause : Bytes} : Allowed c span (.divisionByZero, cause)
  | bounds {cause : Bytes} : Allowed c span (.indexOutOfBounds, cause)
  | depth {cause : Bytes} : Allowed c span (.stackOverflow, cause)
  | payload {type name : Bytes} : c.selects span name →
      Allowed c span (.unknownField, Bytes.concat [type, " has no field ", name])

variable (c : Static) (p : Program) (sigs : Signatures)

/-! ### Typed states -/

/-- The registers that have been written hold values of their types. -/
def RegsTyped (T : HeapTy) (W : Layout) (F : Flow) (regs : Regs) : Prop :=
  ∀ ⦃r : Nat⦄ ⦃t : Ty⦄, W.regs[r]? = some t → t = .unit ∨ F.Has r → (regs r).HasType p sigs T t

/-- A call of a function with the given result type, some of whose registers have been written, at a
place of its code with the given flow. -/
structure CallTyped (T : HeapTy) (W : Layout) (result : Ty) (written : Set Nat) (next : Flow)
    (call : Call) : Prop where
  mem : call.func ∈ p.funcs
  func : ∃ sig, sig.result = result ∧ call.func.Typed c W sig
  sigs_eq : W.sigs = sigs
  regs : RegsTyped p sigs T W (.live written) call.regs
  code : CodeTyped c W result next (call.func.body.drop call.pc) .dead

/-- The calls around a call with the given result type, in a program with the result type `main`. -/
inductive CallersTyped (T : HeapTy) (main : Ty) : Ty → List (Call × Nat) → Prop
  | nil : CallersTyped T main main []
  | cons {W result t written call d callers} :
      CallTyped c p sigs T W result written ((Flow.live written).write d t) call →
      W.regs[d]? = some t → CallersTyped T main result callers →
      CallersTyped T main t ((call, d) :: callers)

/-- A state whose next instruction is at a place with the given flow. -/
structure Ready (main : Ty) (T : HeapTy) (W : Layout) (result : Ty) (written : Set Nat)
    (next : Flow) (s : State) : Prop where
  heap : HeapTyped c p sigs T s.heap
  call : CallTyped c p sigs T W result written next s.call
  callers : CallersTyped c p sigs T main result s.callers

/-- A state whose registers, calls and heap are typed. -/
def StateTyped (main : Ty) (s : State) : Prop :=
  ∃ T W result written, Ready c p sigs main T W result written (.live written) s

/-- What comes of an instruction at a place: a typed state, a result of the right type, or a reason
to stop there. -/
def Proceeds (main : Ty) (span : Span) : Except Reason (Option Value × State) → Prop
  | .ok (none, s) => StateTyped c p sigs main s
  | .ok (some v, s) => ∃ T, HeapTyped c p sigs T s.heap ∧ v.HasType p sigs T main
  | .error e => Allowed c span e

variable {c p sigs} {main : Ty} {T T' : HeapTy} {W : Layout} {result : Ty} {written : Set Nat}
  {next : Flow} {s : State}

/-! ### Larger heaps -/

variable {h : Heap}

lemma CallTyped.mono {call : Call} (h : CallTyped c p sigs T W result written next call)
    (hT : T.Le T') : CallTyped c p sigs T' W result written next call :=
  ⟨h.mem, h.func, h.sigs_eq, fun _ _ hr hw => (h.regs hr hw).mono hT, h.code⟩

lemma CallersTyped.mono {callers : List (Call × Nat)}
    (h : CallersTyped c p sigs T main result callers) (hT : T.Le T') :
    CallersTyped c p sigs T' main result callers := by
  induction h with
  | nil => exact .nil
  | cons hcall hd _ ih => exact .cons (hcall.mono hT) hd ih

lemma Ready.withHeap (hs : Ready c p sigs main T W result written next s) (hT : T.Le T')
    (hh : HeapTyped c p sigs T' h) :
    Ready c p sigs main T' W result written next { s with heap := h } :=
  ⟨hh, hs.call.mono hT, hs.callers.mono hT⟩

/-! ### Reading and writing registers -/

variable {t : Ty} {d : Nat} {v : Value} {G : Flow}

lemma Ready.eval (hp : p.Typed c sigs) (hs : Ready c p sigs main T W result written next s)
    {x : Operand} (hx : x.HasType W (.live written) t) : (s.eval p x).HasType p sigs T t := by
  induction hx with
  | reg hr hw => exact hs.call.regs hr hw
  | int => exact .int
  | float => exact .float
  | bool => exact .bool
  | string => exact .string
  | @func name sig hsig =>
    rw [hs.call.sigs_eq] at hsig
    obtain ⟨k, -, -, hk, -⟩ := hp.func hsig
    have heval : s.eval p (.lit (.func name)) = .func name k := by
      simp [State.eval, Operand.eval, Lit.eval, hk]
    rw [heval]
    exact .func hsig hk
  | sub _ hsub ih => exact ih.sub hsub

lemma Ready.evalAll (hp : p.Typed c sigs) (hs : Ready c p sigs main T W result written next s)
    {xs : List Operand} {ts : List Ty} (hxs : Forall₂ (Operand.HasType W (.live written)) xs ts) :
    Forall₂ (Value.HasType p sigs T) (xs.map (s.eval p)) ts := by
  induction hxs with
  | nil => exact .nil
  | cons hx _ ih => exact .cons (hs.eval hp hx) ih

lemma RegsTyped.write {regs : Regs} (h : RegsTyped p sigs T W (.live written) regs)
    (hd : W.regs[d]? = some t) (hv : v.HasType p sigs T t) :
    ∃ written', (Flow.live written).write d t = .live written' ∧
      RegsTyped p sigs T W (.live written') (Function.update regs d v) := by
  have hupdate : ∀ {written'}, (∀ r ∈ written', r = d ∨ r ∈ written) →
      RegsTyped p sigs T W (.live written') (Function.update regs d v) := by
    intro written' hold r u hr hw
    by_cases hrd : r = d
    · subst hrd
      cases hr.symm.trans hd
      rw [Function.update_self]
      exact hv
    · rw [Function.update_of_ne hrd]
      exact h hr (hw.imp_right fun hr' => (hold r hr').resolve_left hrd)
  simp only [Flow.write]
  split
  · rename_i ht
    subst ht
    exact (Value.not_hasType_never hv).elim
  · split
    · exact ⟨written, rfl, hupdate fun r hr => .inr hr⟩
    · exact ⟨insert d written, rfl, hupdate fun r hr => hr⟩

lemma Ready.write (hs : Ready c p sigs main T W result written ((Flow.live written).write d t) s)
    (hd : W.regs[d]? = some t) (hv : v.HasType p sigs T t) :
    StateTyped c p sigs main (s.write d v) := by
  obtain ⟨written', hflow, hregs⟩ := hs.call.regs.write hd hv
  have hcode := hs.call.code
  rw [hflow] at hcode
  exact ⟨T, W, result, written', hs.heap,
    ⟨hs.call.mem, hs.call.func, hs.call.sigs_eq, hregs, hcode⟩, hs.callers⟩

lemma Ready.forget (hs : Ready c p sigs main T W result written G s) (hG : G.Le (.live written)) :
    StateTyped c p sigs main s := by
  cases G with
  | dead => exact hG.elim
  | live written' =>
    refine ⟨T, W, result, written', hs.heap, ⟨hs.call.mem, hs.call.func, hs.call.sigs_eq, ?_,
      hs.call.code⟩, hs.callers⟩
    exact fun _ _ hr hw => hs.call.regs hr (hw.imp_right fun h => hG h)

/-! ### Jumps, calls and returns -/

variable {f : Func} {sig : Signature} {args : List Value}

lemma Ready.jump (hs : Ready c p sigs main T W result written next s) {l : Bytes}
    (hl : (l, G) ∈ W.labels) (hG : G.Le (.live written))
    (htarget : ∃ j ∈ s.call.func.body, j.val.label? = some l) :
    StateTyped c p sigs main (s.jump l) := by
  obtain ⟨sig, hresult, hfunc⟩ := hs.call.func
  obtain ⟨j, hj, hjl⟩ := htarget
  have hsome : (s.call.func.place? l).isSome := by
    rw [Func.place?, findIdx?_isSome]
    exact any_eq_true.mpr ⟨j, hj, by simpa using hjl⟩
  obtain ⟨k, hk⟩ := Option.isSome_iff_exists.mp hsome
  have hjump : s.jump l = s.goTo k := by rw [State.jump, hk, Option.getD_some]
  obtain ⟨hlt, hlabel, -⟩ := findIdx?_eq_some_iff_getElem.mp hk
  obtain ⟨F, hcode⟩ := hfunc.body.drop k
  rw [drop_eq_getElem_cons hlt] at hcode
  rw [hjump]
  -- The label may be reached with the flow of the jump as well.
  have hcode' : CodeTyped c W result (.live written) (s.call.func.body.drop k) .dead := by
    rw [drop_eq_getElem_cons hlt, ← hresult]
    generalize s.call.func.body[k] = i at hcode hlabel
    obtain ⟨span, i⟩ := i
    have hi : i = .label l := by
      cases i <;> simp_all [Instr.label?]
    subst hi
    cases hcode with
    | cons hinstr hrest =>
      cases hinstr with
      | unreached h => cases h
      | label hl' hle =>
        obtain rfl := hfunc.labels hl hl'
        exact .cons (.label hl hG) hrest
  exact ⟨T, W, result, written, hs.heap,
    ⟨hs.call.mem, hs.call.func, hs.call.sigs_eq, hs.call.regs, hcode'⟩, hs.callers⟩

lemma Ready.leave (hs : Ready c p sigs main T W result written next s)
    (hv : v.HasType p sigs T result) (span : Span) :
    Proceeds c p sigs main span (.ok (s.leave v)) := by
  obtain ⟨call, callers, heap, output⟩ := s
  have hcallers := hs.callers
  cases hcallers with
  | nil => exact ⟨T, hs.heap, hv⟩
  | @cons _ _ _ _ caller d rest hcall hd hrest =>
    exact write (s := ⟨caller, rest, heap, output⟩) ⟨hs.heap, hcall, hrest⟩ hd hv

lemma Func.Typed.call (hf : f.Typed c W sig) (hmem : f ∈ p.funcs) (hsigs : W.sigs = sigs)
    (hargs : Forall₂ (Value.HasType p sigs T) args sig.params) :
    CallTyped c p sigs T W sig.result {r | r < sig.params.length}
      (.live {r | r < sig.params.length}) (f.call args) := by
  refine ⟨hmem, ⟨sig, rfl, hf⟩, hsigs, ?_, hf.body⟩
  intro r t hr hw
  have hlen : args.length = sig.params.length := hargs.length_eq
  by_cases hlt : r < sig.params.length
  · have hparam : sig.params[r]? = some sig.params[r] := getElem?_eq_getElem hlt
    cases (hf.params hparam).symm.trans hr
    have hreg : (f.call args).regs r = args[r] := by
      simp [Func.call, getElem?_eq_getElem (hlen ▸ hlt)]
    rw [hreg]
    exact hargs.get (hlen ▸ hlt) hlt
  · have ht : t = .unit := hw.resolve_right hlt
    have hnone : args[r]? = none := getElem?_eq_none (by omega)
    have hreg : (f.call args).regs r = .null := by
      simp [Func.call, hnone]
    rw [ht, hreg]
    exact .null

lemma Program.Typed.callee (hp : p.Typed c sigs) {params : List Ty} {r : Ty}
    (hv : v.HasType p sigs T (.func params r)) :
    ∃ f W, callee p v = .ok f ∧ f ∈ p.funcs ∧ W.sigs = sigs ∧ f.Typed c W ⟨params, r⟩ := by
  cases hv with
  | @func name sig k hsig hk =>
    obtain ⟨k', f, W, hk', hf, hsigs, htyped⟩ := hp.func hsig
    cases hk.symm.trans hk'
    refine ⟨f, W, ?_, mem_of_getElem? hf, hsigs, htyped⟩
    have hnat : ¬(k : Int) < 0 := by omega
    simp [callee, if_neg hnat, hf]

lemma Ready.enter {W' : Layout}
    (hs : Ready c p sigs main T W result written ((Flow.live written).write d sig.result) s)
    (hd : W.regs[d]? = some sig.result) (hmem : f ∈ p.funcs) (hsigs : W'.sigs = sigs)
    (hf : f.Typed c W' sig) (hargs : Forall₂ (Value.HasType p sigs T) args sig.params)
    (cap : Int) (span : Span) :
    Proceeds c p sigs main span ((enter cap s d f args).map fun s => (none, s)) := by
  have hcount : ¬args.length ≠ f.params.length :=
    not_not.mpr (hargs.length_eq.trans hf.arity.symm)
  unfold Tac.enter
  rw [if_neg hcount]
  split
  · exact .depth
  · exact ⟨T, W', sig.result, _, hs.heap, hf.call hmem hsigs hargs, .cons hs.call hd hs.callers⟩

/-! ### Arrays and records -/

variable {span : Span}

lemma position_typed (h : Heap) {w : Value} {e : Ty} (hv : v.HasType p sigs T (.array e))
    (hw : w.HasType p sigs T .int) (span : Span) :
    (∃ ref n, position h v w = .ok (ref, n) ∧ v = .array ref ∧ n < (h.elems ref).size) ∨
      ∃ e, position h v w = .error e ∧ Allowed c span e := by
  obtain ⟨ref, rfl⟩ : ∃ ref, v = .array ref := by
    cases hv <;> exact ⟨_, rfl⟩
  cases hw with
  | @int n =>
    simp only [position]
    split
    · exact .inr ⟨_, rfl, .bounds⟩
    · rename_i hn
      exact .inl ⟨ref, _, rfl, rfl, by omega⟩

lemma fieldOf_typed (hh : HeapTyped c p sigs T h) {a : Ty} {name : Bytes}
    (hv : v.HasType p sigs T a) (hs : c.Selects span a name t) :
    (∃ ref w d, fieldOf h v name = .ok (ref, w) ∧ w.HasType p sigs T t ∧
      T.records[ref]? = some d ∧ d.fields.lookup name = some t) ∨
      ∃ e, fieldOf h v name = .error e ∧ Allowed c span e := by
  have hn : ∃ n, a = .named n := by
    cases hs <;> exact ⟨_, rfl⟩
  obtain ⟨n, rfl⟩ := hn
  cases hv with
  | @record ref _ fields href =>
    rcases hs.lookup (hh.describes href) with hl | ⟨hl, hselects⟩
    · obtain ⟨w, hw, hwt⟩ := (lookup_forall₂ (hh.fields href) _).1 _ hl
      refine .inl ⟨ref, w, ⟨n, fields⟩, ?_, hwt, href, hl⟩
      simp only [fieldOf, Record.get?, hw]
    · refine .inr ⟨(.unknownField, Bytes.concat [(h.record ref).type, " has no field ", name]), ?_,
        .payload hselects⟩
      simp [fieldOf, Record.get?, (lookup_forall₂ (hh.fields href) _).2 hl]

lemma withFields_typed {fields : List (Bytes × Ty)} (hnodup : (fields.map Prod.fst).Nodup)
    (type : Bytes) {values : List Value}
    (hvalues : Forall₂ (Value.HasType p sigs T) values (fields.map Prod.snd)) :
    type = (withFields (.empty type) ((fields.map Prod.fst).zip values)).type ∧
      FieldsTyped p sigs T
        (withFields (.empty type) ((fields.map Prod.fst).zip values)).fields fields := by
  have hlen : values.length = fields.length := by rw [hvalues.length_eq, length_map]
  refine ⟨(withFields_type (.empty type) _).symm, ?_⟩
  rw [withFields_fields]
  · simp only [Record.empty]
    clear hnodup hlen
    induction fields generalizing values with
    | nil => cases hvalues; exact .nil
    | cons d fields ih =>
      cases hvalues with
      | cons hv hrest => exact .cons ⟨rfl, hv⟩ (ih hrest)
  · simp only [Record.empty, nil_append]
    rwa [map_fst_zip (by rw [length_map, hlen])]

/-! ### Steps -/

lemma Ready.operation {r : Except OperationError Value}
    (hs : Ready c p sigs main T W result written ((Flow.live written).write d t) s)
    (hd : W.regs[d]? = some t) (hr : ResultTyped p sigs T t r) (span : Span) :
    Proceeds c p sigs main span (do
      let v ← ofOperation r
      return (none, s.write d v)) := by
  cases r with
  | ok v => exact hs.write hd hr
  | error e =>
    have hkind : e.kind = .divisionByZero := hr
    show Allowed c span (e.kind, e.cause)
    rw [hkind]
    exact .division

/-- **What an instruction does in a typed state.** -/
theorem Ready.execute (hp : p.Typed c sigs) (hs : Ready c p sigs main T W result written next s)
    {i : Instr} (hi : i.Typed c W result span (.live written) next)
    (htarget : ∀ l, i.target? = some l → ∃ j ∈ s.call.func.body, j.val.label? = some l)
    (cap : Int) : Proceeds c p sigs main span (execute p cap s i) := by
  cases hi with
  | assign hx hd => exact hs.write hd (hs.eval hp hx)
  | binary hx hy hop hd =>
    exact hs.operation hd (binary_typed hop (hs.eval hp hx) (hs.eval hp hy)) span
  | unary hx hop hd => exact hs.operation hd (primitive_typed hop (hs.eval hp hx)) span
  | @call _ d f args params r hf hargs hd =>
    obtain ⟨g, W', hcallee, hmem, hsigs, hg⟩ := hp.callee (hs.eval hp hf)
    have hexecute : execute p cap s (.call d f args) =
        (Tac.enter cap s d g (args.map (s.eval p))).map fun s => (none, s) := by
      simp only [execute, hcallee, bind, Except.bind]
      cases Tac.enter cap s d g (args.map (s.eval p)) <;> rfl
    rw [hexecute]
    exact hs.enter hd hmem hsigs hg (hs.evalAll hp hargs) cap span
  | retNull hresult => exact hs.leave (hresult ▸ .null) span
  | ret hx => exact hs.leave (hs.eval hp hx) span
  | @jumpUnless _ G x l hx hl hG =>
    have hcond := hs.eval hp hx
    generalize hv : s.eval p x = v at hcond
    cases hcond with
    | @bool b =>
      simp only [execute, hv]
      cases b with
      | true => exact hs.forget (.refl _)
      | false => exact hs.jump hl hG (htarget l rfl)
  | jump hl hG => exact hs.jump hl hG (htarget _ rfl)
  | label _ hG => exact hs.forget hG
  | @array _ d xs e hxs hd =>
    have helems : ∀ v ∈ (xs.map (s.eval p)).toArray, v.HasType p sigs T e := by
      intro v hv
      obtain ⟨x, hx, rfl⟩ := mem_map.mp (mem_toArray.mp hv)
      exact hs.eval hp (hxs x hx)
    obtain ⟨T', hT, hheap, hv⟩ := hs.heap.newArray helems
    exact (hs.withHeap hT hheap).write hd hv
  | @index _ d x i e hx hi hd =>
    simp only [execute]
    rcases position_typed s.heap (hs.eval hp hx) (hs.eval hp hi) span with
      ⟨ref, n, hpos, hv, hn⟩ | ⟨reason, hpos, hallowed⟩
    · rw [hpos]
      have helem : ((s.heap.elems ref)[n]?.getD .null).HasType p sigs T e := by
        rw [Array.getElem?_eq_getElem hn]
        exact hs.heap.elem (hv ▸ hs.eval hp hx) (Array.getElem_mem hn)
      exact hs.write hd helem
    · rw [hpos]
      exact hallowed
  | setIndex hx hi hv =>
    simp only [execute]
    rcases position_typed s.heap (hs.eval hp hx) (hs.eval hp hi) span with
      ⟨ref, n, hpos, href, hn⟩ | ⟨reason, hpos, hallowed⟩
    · rw [hpos]
      have hheap := hs.heap.setElem n (href ▸ hs.eval hp hx) hn (hs.eval hp hv)
      exact (hs.withHeap (.refl T) hheap).forget (.refl _)
    · rw [hpos]
      exact hallowed
  | field hx hselects hd =>
    simp only [execute]
    rcases fieldOf_typed hs.heap (hs.eval hp hx) hselects with
      ⟨ref, w, desc, hfield, hw, -⟩ | ⟨reason, hfield, hallowed⟩
    · rw [hfield]
      exact hs.write hd hw
    · rw [hfield]
      exact hallowed
  | setField hx hselects hv =>
    simp only [execute]
    rcases fieldOf_typed hs.heap (hs.eval hp hx) hselects with
      ⟨ref, w, desc, hfield, -, href, hl⟩ | ⟨reason, hfield, hallowed⟩
    · rw [hfield]
      have hheap := hs.heap.setField href hl (hs.eval hp hv)
      exact (hs.withHeap (.refl T) hheap).forget (.refl _)
    · rw [hfield]
      exact hallowed
  | @record _ d n type fields values hdesc hnodup hvalues hd =>
    obtain ⟨htype, hfields⟩ := withFields_typed hnodup type (hs.evalAll hp hvalues)
    obtain ⟨T', hT, hheap, hv⟩ := hs.heap.newRecord (htype ▸ hdesc) hfields
    exact (hs.withHeap hT hheap).write hd hv
  | print hx => exact ⟨T, W, result, written, hs.heap, hs.call, hs.callers⟩

/-- **One step of a typed program.** -/
theorem StateTyped.step (hp : p.Typed c sigs) (hs : StateTyped c p sigs main s) (cap : Int) :
    match step p cap s with
    | .ok (none, s') => StateTyped c p sigs main s'
    | .ok (some v, s') => ∃ T, HeapTyped c p sigs T s'.heap ∧ v.HasType p sigs T main
    | .error f => Allowed c f.span (f.kind, f.cause) := by
  obtain ⟨T, W, result, written, hheap, hcall, hcallers⟩ := hs
  have hcode := hcall.code
  cases hi : s.call.instr? with
  | none =>
    -- The end of a function is not reached.
    rw [drop_of_length_le (getElem?_eq_none_iff.mp hi)] at hcode
    cases hcode
  | some i =>
    obtain ⟨hlt, hget⟩ := List.getElem?_eq_some_iff.mp hi
    rw [drop_eq_getElem_cons hlt, hget] at hcode
    cases hcode with
    | @cons _ next _ _ _ hinstr hrest =>
      have hready : Ready c p sigs main T W result written next (s.goTo (s.call.pc + 1)) :=
        ⟨hheap, ⟨hcall.mem, hcall.func, hcall.sigs_eq, hcall.regs, hrest⟩, hcallers⟩
      have hproceeds := hready.execute hp hinstr
        (hp.target s.call.func hcall.mem i (mem_of_getElem? hi)) cap
      simp only [Tac.step, hi]
      generalize execute p cap (s.goTo (s.call.pc + 1)) i.val = r at hproceeds
      cases r with
      | error e => exact hproceeds
      | ok r =>
        obtain ⟨v?, s'⟩ := r
        cases v? <;> exact hproceeds

/-! ### Runs -/

/-- What a run of a typed program may come to: a result of the type of `main`, a fault that is
allowed, or no end. -/
def OutcomeTyped (c : Static) (p : Program) (sigs : Signatures) (main : Ty)
    (h : Heap) : Machine.Outcome → Prop
  | .halted v => ∃ T, HeapTyped c p sigs T h ∧ v.HasType p sigs T main
  | .failed f => Allowed c f.span (f.kind, f.cause)
  | .unfinished => True

lemma StateTyped.runFrom (hp : p.Typed c sigs) (cap : Int) (n : Nat)
    (hs : StateTyped c p sigs main s) :
    OutcomeTyped c p sigs main (runFrom p cap n s).heap (runFrom p cap n s).outcome := by
  induction n generalizing s with
  | zero => trivial
  | succ n ih =>
    have hstep := hs.step hp cap
    rw [runFrom]
    cases h : Tac.step p cap s with
    | error f =>
      rw [h] at hstep
      exact hstep
    | ok r =>
      rw [h] at hstep
      obtain ⟨v?, s'⟩ := r
      cases v? with
      | none => exact ih hstep
      | some v => exact hstep

/-- **Typed programs do not go wrong.** -/
theorem Program.Typed.run (hp : p.Typed c sigs) (hmain : (Bytes.ofString "main", ⟨[], main⟩) ∈ sigs)
    (cap : Int) (n : Nat) :
    OutcomeTyped c p sigs main (run p cap n).heap (run p cap n).outcome := by
  obtain ⟨k, f, W, hk, hf, hsigs, htyped⟩ := hp.func hmain
  obtain ⟨f', hf', hfind⟩ := find?_of_index? hk
  cases hf'.symm.trans hf
  have hcall := htyped.call (T := ⟨[], []⟩) (mem_of_getElem? hf) hsigs .nil
  have hheap : HeapTyped c p sigs ⟨[], []⟩ .empty :=
    ⟨rfl, rfl, (fun h => by cases h), (fun h => by cases h), (fun h => by cases h)⟩
  rw [Tac.run, start, hfind]
  by_cases hdepth : cap ≤ 0
  · simp only [if_pos hdepth]
    exact .depth
  · simp only [if_neg hdepth]
    exact StateTyped.runFrom hp cap n ⟨_, W, main, _, hheap, hcall, .nil⟩

end Minilang.Tac
