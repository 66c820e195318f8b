import Minilang.Proofs.Tac.Fixpoint
import Minilang.Proofs.Tac.LoweredProgram

/-!
# The capacity of bytecode

The argument of an instruction of bytecode has 16 bits.  This is the only limit that a whole program
can exceed: if its functions pass the check, and nothing in it is missing or unknown, then either
the program has bytecode or one of its functions has too many local variables, constants, arguments,
elements, fields or instructions (`generate_within_capacity`).

The check and the generator agree on what is defined in different ways.  The check keeps the
registers that have been written, the generator gives a register its local variable when it emits
the store.  `Ready` ties the two together: a register that the check takes for written has a local
variable.
-/

namespace Minilang

open List

variable {i : Instr}

/-- The number is that of an operator. -/
def OpCode.isKnown {α : Type} : OpCode α → Bool
  | .known _ => true
  | .unknown _ => false

namespace Tac

/-! ### Whole programs -/

variable {p : Program}

/-- Whether a literal is of a kind that exists; one of a function has to be among the names. -/
def Lit.isKnown (names : List Bytes) : Lit → Bool
  | .int _ | .float _ | .bool _ | .string _ => true
  | .func name => names.contains name
  | .invalid _ => false

/-- Whether an operand is there, and can be known. -/
def Operand.isKnown (names : List Bytes) : Operand → Bool
  | .reg _ => true
  | .lit l => l.isKnown names
  | .missing => false

/-- Whether the operator of an instruction is known, and a record has as many values as fields. -/
def Instr.isFormed : Instr → Bool
  | .binary _ op _ _ => op.isKnown
  | .unary _ op _ => op.isKnown
  | .record _ _ fields values => fields.length == values.length
  | _ => true

/-- Whether nothing in an instruction is missing or unknown. -/
def Instr.isWhole (names : List Bytes) (i : Instr) : Bool :=
  i.uses.all (·.isKnown names) && i.isFormed

/-- The names of the functions. -/
def Program.names (p : Program) : List Bytes :=
  p.funcs.map Func.name

/-- A program with different names for its functions, one of which is the main function, and with
nothing missing or unknown in its instructions. -/
structure Program.Whole (p : Program) : Prop where
  names : p.names.Nodup
  main : Bytes.ofString "main" ∈ p.names
  instrs : ∀ f ∈ p.funcs, ∀ i ∈ f.body, i.val.isWhole p.names = true

lemma Program.names_fold (p : Program) : p.fold.1.names = p.names := by
  rw [names, funcs_fold, map_map]
  rfl

lemma Instr.isWhole_folded {names : List Bytes} (h : i.isWhole names = true) :
    i.folded.isWhole names = true := by
  obtain heq | ⟨d, l, v, -, -, -, hl, heq⟩ := i.folded_cases
  · rwa [heq]
  · rw [heq]
    -- The literal is one of a value of a basic type.
    cases v <;> cases hl <;> rfl

lemma Program.Whole.fold (h : p.Whole) : p.fold.1.Whole where
  names := by
    rw [names_fold]
    exact h.names
  main := by
    rw [names_fold]
    exact h.main
  instrs f hf i hi := by
    rw [funcs_fold] at hf
    obtain ⟨g, hg, rfl⟩ := mem_map.mp hf
    obtain ⟨j, hj, heq⟩ := Func.mem_body_fold hi
    rw [names_fold, heq]
    exact Instr.isWhole_folded (h.instrs g hg j hj)

/-- **Folding keeps programs whole, and keeps what the check has found out.** -/
theorem Program.Whole.foldTimes (h : p.Whole) (haccepted : ∀ f ∈ p.funcs, f.Accepted)
    (passes : Nat) :
    (p.foldTimes passes).1.Whole ∧ ∀ f ∈ (p.foldTimes passes).1.funcs, f.Accepted := by
  induction passes generalizing p with
  | zero => exact ⟨h, haccepted⟩
  | succ n ih =>
    have hsucc : (p.foldTimes (n + 1)).1 = (p.fold.1.foldTimes n).1 := rfl
    rw [hsucc]
    refine ih h.fold fun f hf => ?_
    rw [funcs_fold] at hf
    obtain ⟨g, hg, rfl⟩ := mem_map.mp hf
    exact g.accepted_fold.mpr (haccepted g hg)

end Tac

namespace Bytecode

open Tac (Lit Operand Instr Code labelsOf after)

/-- A number in a function that is too large for the argument of an instruction. -/
inductive Exceeds (f : Tac.Func) : GenerateCause → Prop where
  /-- There are not that many registers. -/
  | slot {n} (h : Instruction.maxArg < n) (hn : n < f.numVars) : Exceeds f (.outOfRange .slot n)
  | constant {n} (h : Instruction.maxArg < n) : Exceeds f (.outOfRange .constant n)
  | arguments {span d callee args}
      (hi : ⟨span, .call d callee args⟩ ∈ f.body) (h : Instruction.maxArg < args.length) :
      Exceeds f (.outOfRange .arguments args.length)
  | elements {span d elems} (hi : ⟨span, .array d elems⟩ ∈ f.body)
      (h : Instruction.maxArg < elems.length) : Exceeds f (.outOfRange .elements elems.length)
  | fields {span d type fields values} (hi : ⟨span, .record d type fields values⟩ ∈ f.body)
      (h : Instruction.maxArg < fields.length) : Exceeds f (.outOfRange .fields fields.length)
  | target {n} (h : Instruction.maxArg < n) : Exceeds f (.outOfRange .target n)
  | tooLong {n} (h : Instruction.maxArg < n) : Exceeds f (.tooLong n)

/-- The generator has stopped at such a number. -/
abbrev Exceeded (f : Tac.Func) (e : Located GenerateCause) : Prop :=
  Exceeds f e.val

namespace Generate

/-! ### What is ready to be used -/

variable {fs : List Tac.Func} {f : Tac.Func} {W : Set Nat} {L : List Bytes} {s : FuncState}

/-- The registers in `W` have local variables and the labels in `L` their places, and all else that
there is belongs to the function. -/
structure Ready (f : Tac.Func) (W : Set Nat) (L : List Bytes) (s : FuncState) : Prop where
  slots : ∀ r ∈ W, ∃ n, s.slots[r]? = some n
  lt : ∀ {r n : Nat}, s.slots[r]? = some n → n < s.slots.size
  regs : ∀ r ∈ s.slots, r < f.numVars
  labels : ∀ l, l ∈ s.labels ↔ l ∈ L
  jumps : ∀ d ∈ s.code, ∀ op l, d.val = .jump op l → l ∈ labelsOf f.body

lemma Ready.size_le (h : Ready f W L s) : s.slots.size ≤ f.numVars := by
  have hnodup : s.slots.keys.Nodup :=
    s.slots.distinct_keys.imp fun hne heq => by simp [heq] at hne
  have hsub : s.slots.keys ⊆ range f.numVars := fun r hr =>
    mem_range.mpr (h.regs r (Std.HashMap.mem_keys.mp hr))
  rw [← Std.HashMap.length_keys, ← length_range (n := f.numVars)]
  exact (hnodup.subperm hsub).length_le

section Parts

variable {funcs : FuncTable} {span : Span} {names : List Bytes} {op : Opcode} {l : Bytes}
  {P P' P'' : FuncState → Prop} {α β : Type} {m : M α}

/-- A part of the generator leads from states of one kind to states of another, or stops at a number
that is too large. -/
def Leads (f : Tac.Func) (P : FuncState → Prop) (m : M α) (P' : FuncState → Prop) : Prop :=
  ∀ s, P s → Ends m s (fun _ s' => P' s') (Exceeded f)

lemma Leads.seq {m' : M β} (h : Leads f P m P') (h' : Leads f P' m' P'') :
    Leads f P (m >>= fun _ => m') P'' :=
  fun s hs => .chain (h s hs) fun _ => h'

lemma Leads.imp (h : Leads f P m P') (h' : ∀ s, P' s → P'' s) : Leads f P m P'' :=
  fun s hs => (h s hs).mono fun _ => h'

/-- A part of the generator that needs no more to be ready. -/
abbrev Keeps (f : Tac.Func) (W : Set Nat) (L : List Bytes) (m : M α) : Prop :=
  Leads f (Ready f W L) m (Ready f W L)

lemma add_keeps {d : Draft} (hd : ∀ op l, d = .jump op l → l ∈ labelsOf f.body) :
    Keeps f W L (add span d) := by
  refine fun s h => ⟨h.slots, h.lt, h.regs, h.labels, fun d' hd' => ?_⟩
  rcases Array.mem_push.mp hd' with hold | rfl
  · exact h.jumps d' hold
  · exact hd

lemma emit_keeps : Keeps f W L (emit span op) :=
  add_keeps fun _ _ hd => absurd hd (by simp)

lemma jump_keeps (hl : l ∈ labelsOf f.body) : Keeps f W L (add span (.jump op l)) :=
  add_keeps fun _ _ hd => by
    cases hd
    exact hl

lemma emitArg_keeps {what : Quantity} {n : Nat}
    (hn : Instruction.maxArg < n → Exceeds f (.outOfRange what n)) :
    Keeps f W L (emitArg span op what n) := by
  unfold emitArg
  split
  · exact add_keeps fun _ _ hd => absurd hd (by simp)
  · rename_i hlarge
    exact fun _ _ => .throw (hn (Nat.lt_of_not_le hlarge))

lemma emitConst_keeps {v : Value} : Keeps f W L (do emitArg span op .constant (← constant v)) := by
  intro s h
  have hconst : Ends (constant v) s (fun _ s' => Ready f W L s') (Exceeded f) :=
    ⟨h.slots, h.lt, h.regs, h.labels, h.jumps⟩
  exact .chain hconst fun _ => emitArg_keeps .constant

lemma store_leads {d : Nat} (hd : d < f.numVars) :
    Leads f (Ready f W L) (store span d) (Ready f (insert d W) L) := by
  intro s h
  have hslot : Ends (slot d) s (fun n s' => Ready f (insert d W) L s' ∧ n < s'.slots.size)
      (Exceeded f) := by
    cases hn : s.slots[d]? with
    | some n =>
      rw [Ends, slot_of_some hn]
      refine ⟨⟨?_, h.lt, h.regs, h.labels, h.jumps⟩, h.lt hn⟩
      rintro r (rfl | hr)
      · exact ⟨n, hn⟩
      · exact h.slots r hr
    | none =>
      rw [Ends, slot_of_none hn]
      have hnot : ¬d ∈ s.slots := by
        rw [Std.HashMap.mem_iff_isSome_getElem?, hn]
        exact Bool.false_ne_true
      have hsize : (s.slots.insert d s.slots.size).size = s.slots.size + 1 := by
        rw [Std.HashMap.size_insert, if_neg hnot]
      refine ⟨⟨?_, ?_, ?_, h.labels, h.jumps⟩, by simp only [hsize]; omega⟩
      · intro r hr
        simp only [Std.HashMap.getElem?_insert]
        split
        · exact ⟨_, rfl⟩
        · rename_i hne
          exact h.slots r (hr.resolve_left fun heq => hne (by simp [heq]))
      · intro r n hr
        simp only [Std.HashMap.getElem?_insert] at hr
        simp only [hsize]
        split at hr
        · cases hr
          omega
        · exact (h.lt hr).trans (Nat.lt_succ_self _)
      · intro r hr
        rcases Std.HashMap.mem_insert.mp hr with heq | hr
        · exact eq_of_beq heq ▸ hd
        · exact h.regs r hr
  refine .chain hslot fun n s' hs' => emitArg_keeps (fun hlarge => ?_) s' hs'.1
  exact .slot hlarge (hs'.2.trans_le hs'.1.size_le)

variable (hfuncs : ∀ name ∈ names, ∃ k, funcs[name]? = some k) {d : Nat} {x : Operand}
  {xs : List Operand}

include hfuncs

lemma literal_ends {l : Lit} (hl : l.isKnown names = true) {Q : Value → FuncState → Prop}
    (hQ : ∀ v, Q v s) : Ends (literal funcs span l) s Q (Exceeded f) := by
  cases l with
  | int n | float x | bool b | string t => exact .pure (hQ _)
  | func name =>
    obtain ⟨k, hk⟩ := hfuncs name (contains_iff_mem.mp hl)
    simp only [literal, hk]
    exact .pure (hQ _)
  | invalid k => cases hl

lemma push_keeps (hx : x.isKnown names = true) (hW : ∀ r, x = .reg r → r ∈ W) :
    Keeps f W L (push funcs span x) := by
  intro s h
  cases x with
  | reg r =>
    obtain ⟨n, hn⟩ := h.slots r (hW r rfl)
    refine .bind (.get ?_)
    simp only [hn]
    exact emitArg_keeps (fun hlarge => .slot hlarge ((h.lt hn).trans_le h.size_le)) s h
  | lit l => exact .bind (literal_ends hfuncs hx fun _ => emitConst_keeps s h)
  | missing => cases hx

lemma pushAll_keeps (hxs : ∀ x ∈ xs, x.isKnown names = true) (hW : ∀ r, .reg r ∈ xs → r ∈ W) :
    Keeps f W L (pushAll funcs span xs) := by
  induction xs with
  | nil => exact fun _ h => .pure h
  | cons x xs ih =>
    refine (push_keeps hfuncs (hxs x mem_cons_self) fun r hr => hW r (hr ▸ mem_cons_self)).seq ?_
    exact ih (fun y hy => hxs y (mem_cons_of_mem x hy)) fun r hr => hW r (mem_cons_of_mem x hr)

lemma pushFields_keeps {fs : List (Bytes × Operand)} (hfs : ∀ e ∈ fs, e.2.isKnown names = true)
    (hW : ∀ e ∈ fs, ∀ r, e.2 = .reg r → r ∈ W) : Keeps f W L (pushFields funcs span fs) := by
  induction fs with
  | nil => exact fun _ h => .pure h
  | cons e fs ih =>
    refine emitConst_keeps.seq
      ((push_keeps hfuncs (hfs e mem_cons_self) (hW e mem_cons_self)).seq ?_)
    exact ih (fun y hy => hfs y (mem_cons_of_mem e hy)) fun y hy => hW y (mem_cons_of_mem e hy)

/-! ### Instructions -/

/-- What has to hold of an instruction before its code is generated. -/
structure Fits (f : Tac.Func) (names : List Bytes) (W : Set Nat) (L : List Bytes)
    (i : Located Instr) : Prop where
  mem : i ∈ f.body
  whole : i.val.isWhole names = true
  reads : ∀ r, .reg r ∈ i.val.uses → r ∈ W
  write : ∀ d, i.val.dst? = some d → d < f.numVars
  target : ∀ l, i.val.target? = some l → l ∈ labelsOf f.body
  label : ∀ l, i.val.label? = some l → l ∉ L

/-- A part of the generator that makes ready what an instruction makes ready. -/
abbrev Completes (f : Tac.Func) (W : Set Nat) (L : List Bytes) (i : Located Instr) (m : M α) :
    Prop :=
  Leads f (Ready f W L) m (Ready f (after W [i]) (L ++ labelsOf [i]))

section Rules

variable {i : Instr} (hi : Fits f names W L ⟨span, i⟩)
include hi

omit hfuncs in
lemma Fits.parts : (∀ x ∈ i.uses, x.isKnown names = true) ∧ i.isFormed = true := by
  have hwhole := hi.whole
  rwa [Instr.isWhole, Bool.and_eq_true, all_eq_true] at hwhole

lemma Fits.push (hx : x ∈ i.uses) : Keeps f W L (push funcs span x) :=
  push_keeps hfuncs (hi.parts.1 x hx) fun r hr => hi.reads r (hr ▸ hx)

lemma Fits.pushAll (hxs : xs ⊆ i.uses) : Keeps f W L (pushAll funcs span xs) :=
  pushAll_keeps hfuncs (fun x hx => hi.parts.1 x (hxs hx)) fun r hr => hi.reads r (hxs hr)

omit hfuncs in
lemma Fits.store (hd : i.dst? = some d) (hl : i.label? = none) :
    Completes f W L ⟨span, i⟩ (store span d) := by
  have hlabels : labelsOf [⟨span, i⟩] = [] := filterMap_cons_none hl
  refine (store_leads (hi.write d hd)).imp fun s h => ?_
  rw [hlabels, append_nil]
  refine ⟨fun r hr => h.slots r ?_, h.lt, h.regs, h.labels, h.jumps⟩
  rcases hr with hr | ⟨j, hj, hdst⟩
  · exact .inr hr
  · obtain rfl := mem_singleton.mp hj
    exact .inl (Option.some.inj (hdst.symm.trans hd))

omit hfuncs hi in
lemma Leads.completes (h : Keeps f W L m) (hd : i.dst? = none) (hl : i.label? = none) :
    Completes f W L ⟨span, i⟩ m := by
  have hlabels : labelsOf [⟨span, i⟩] = [] := filterMap_cons_none hl
  refine h.imp fun s h => ?_
  rw [hlabels, append_nil]
  refine ⟨fun r hr => h.slots r (hr.resolve_right ?_), h.lt, h.regs, h.labels, h.jumps⟩
  rintro ⟨j, hj, hdst⟩
  obtain rfl := mem_singleton.mp hj
  simp [hd] at hdst

end Rules

omit hfuncs in
lemma label_completes (hi : Fits f names W L ⟨span, .label l⟩) :
    Completes f W L ⟨span, .label l⟩ (instr funcs span (.label l)) := by
  intro s h
  have hnew : s.labels.contains l = false := by
    rw [← Bool.not_eq_true, ← Std.HashMap.mem_iff_contains, h.labels]
    exact hi.label l rfl
  refine .bind (.get ?_)
  rw [hnew]
  refine ⟨fun r hr => h.slots r (hr.resolve_right ?_), h.lt, h.regs, fun l' => ?_, h.jumps⟩
  · rintro ⟨j, hj, hdst⟩
    obtain rfl := mem_singleton.mp hj
    cases hdst
  · have hlabels : labelsOf [(⟨span, .label l⟩ : Located Instr)] = [l] := rfl
    rw [Std.HashMap.mem_insert, h.labels, hlabels, mem_append, mem_singleton, beq_iff_eq,
      or_comm, eq_comm]

/-- **The code of an instruction.**  Every register that it reads has a local variable. -/
theorem instr_completes (hi : Fits f names W L ⟨span, i⟩) :
    Completes f W L ⟨span, i⟩ (instr funcs span i) := by
  have hformed := hi.parts.2
  cases i with
  | assign d x => exact (hi.push hfuncs (by simp [Instr.uses])).seq (hi.store rfl rfl)
  | binary d op x y =>
    cases op with
    | unknown c => cases hformed
    | known op => exact (hi.pushAll hfuncs (Subset.refl _)).seq (emit_keeps.seq (hi.store rfl rfl))
  | unary d op x =>
    cases op with
    | unknown c => cases hformed
    | known op =>
      exact (hi.push hfuncs (by simp [Instr.uses])).seq (emit_keeps.seq (hi.store rfl rfl))
  | call d callee args =>
    refine (hi.pushAll hfuncs (by simp [Instr.uses])).seq
      ((hi.push hfuncs (by simp [Instr.uses])).seq ?_)
    exact (emitArg_keeps (.arguments hi.mem)).seq (hi.store rfl rfl)
  | ret value =>
    cases value with
    | none => exact (emit_keeps.seq emit_keeps).completes rfl rfl
    | some x => exact ((hi.push hfuncs (by simp [Instr.uses])).seq emit_keeps).completes rfl rfl
  | jumpUnless x l =>
    exact ((hi.push hfuncs (by simp [Instr.uses])).seq (jump_keeps (hi.target l rfl))).completes rfl
      rfl
  | jump l => exact (jump_keeps (hi.target l rfl)).completes rfl rfl
  | label l => exact label_completes hi
  | array d xs =>
    exact (hi.pushAll hfuncs (Subset.refl _)).seq
      ((emitArg_keeps (.elements hi.mem)).seq (hi.store rfl rfl))
  | index d x y => exact (hi.pushAll hfuncs (Subset.refl _)).seq (emit_keeps.seq (hi.store rfl rfl))
  | setIndex x y z => exact ((hi.pushAll hfuncs (Subset.refl _)).seq emit_keeps).completes rfl rfl
  | field d x name =>
    refine (hi.push hfuncs (by simp [Instr.uses])).seq ?_
    rw [← bind_assoc]
    exact emitConst_keeps.seq (hi.store rfl rfl)
  | setField x name y =>
    exact ((hi.pushAll hfuncs (Subset.refl _)).seq emitConst_keeps).completes rfl rfl
  | record d type fields values =>
    have hlen : fields.length = values.length := eq_of_beq hformed
    rw [instr, if_neg (not_not.mpr hlen)]
    refine emitConst_keeps.seq ((pushFields_keeps hfuncs ?_ ?_).seq ?_)
    · exact fun e he => hi.parts.1 e.2 (of_mem_zip he).2
    · exact fun e he r hr => hi.reads r (hr ▸ (of_mem_zip he).2)
    · exact (emitArg_keeps (.fields hi.mem)).seq (hi.store rfl rfl)
  | print x => exact ((hi.push hfuncs (by simp [Instr.uses])).seq emit_keeps).completes rfl rfl

lemma instrs_leads {is : Code} (hmem : ∀ i ∈ is, i ∈ f.body)
    (hwhole : ∀ i ∈ is, i.val.isWhole names = true) (haccepted : f.Accepted)
    (hreads : Tac.Reads W is) (hnodup : (L ++ labelsOf is).Nodup) :
    Leads f (Ready f W L) (instrs funcs is) (Ready f (after W is) (L ++ labelsOf is)) := by
  induction is generalizing W L with
  | nil =>
    rw [Tac.after_nil, show labelsOf [] = [] from rfl, append_nil]
    exact fun _ h => .pure h
  | cons i is ih =>
    have hcons : labelsOf (i :: is) = labelsOf [i] ++ labelsOf is := Tac.labelsOf_append [i] is
    have hafter : after W (i :: is) = after (after W [i]) is := Tac.after_append W [i] is
    rw [hcons, ← append_assoc] at hnodup ⊢
    rw [hafter]
    have hi : Fits f names W L i := by
      refine ⟨hmem i mem_cons_self, hwhole i mem_cons_self, hreads.1,
        haccepted.writes i (hmem i mem_cons_self),
        haccepted.jumps i (hmem i mem_cons_self), fun l hl hL => ?_⟩
      have hl' : l ∈ labelsOf [i] := Tac.mem_labelsOf.mpr ⟨i, mem_singleton.mpr rfl, hl⟩
      exact disjoint_of_nodup_append hnodup.of_append_left hL hl'
    exact (instr_completes hfuncs hi).seq (ih (fun j hj => hmem j (mem_cons_of_mem i hj))
      (fun j hj => hwhole j (mem_cons_of_mem i hj)) hreads.2 hnodup)

/-! ### Functions and programs -/

omit hfuncs in
lemma ready_start (hparams : f.params.length ≤ f.numVars) (pool : Pool) :
    Ready f {r | r < f.params.length} [] ⟨#[], paramSlots f.params.length, ∅, pool⟩ where
  slots r (hr : r < f.params.length) := ⟨r, by rw [getElem?_paramSlots, if_pos hr]⟩
  lt {r n} hr := by
    rw [getElem?_paramSlots] at hr
    rw [size_paramSlots]
    split at hr
    · cases hr
      assumption
    · cases hr
  regs r hr := by
    rw [Std.HashMap.mem_iff_isSome_getElem?, getElem?_paramSlots] at hr
    split at hr
    · omega
    · cases hr
  labels l := by simp
  jumps d hd := absurd hd (Array.not_mem_empty d)

omit hfuncs in
lemma resolve_ends {labels : Std.HashMap Bytes Nat} {ds : List (Located Draft)}
    (h : ∀ d ∈ ds, ∀ op l, d.val = .jump op l → l ∈ labels) (last : Span)
    (done : Array (Located Instruction)) : (∃ code, resolve labels last [] done ds = .ok code) ∨
      ∃ n, resolve labels last [] done ds = .error ⟨last, .outOfRange .target n⟩ ∧
        Instruction.maxArg < n := by
  induction ds generalizing done with
  | nil => exact .inl ⟨done, rfl⟩
  | cons d ds ih =>
    have hrest := ih fun d' hd' => h d' (mem_cons_of_mem d hd')
    obtain ⟨span, d⟩ := d
    cases d with
    | plain i => exact hrest (done.push ⟨span, i⟩)
    | jump op l =>
      have hl := h _ mem_cons_self op l rfl
      rw [Std.HashMap.mem_iff_isSome_getElem?, Option.isSome_iff_exists] at hl
      obtain ⟨t, ht⟩ := hl
      simp only [resolve, ht]
      split
      · exact hrest _
      · rename_i hlarge
        exact .inr ⟨t, rfl, Nat.lt_of_not_le hlarge⟩

lemma func_ends (haccepted : f.Accepted) (hwhole : ∀ i ∈ f.body, i.val.isWhole names = true)
    (pool : Pool) : (∃ r, func funcs f pool = .ok r) ∨
      ∃ e, func funcs f pool = .error e ∧ Exceeds f e.val := by
  have hends :=
    instrs_leads hfuncs (fun _ hi => hi) hwhole haccepted haccepted.reads haccepted.labels _
    (ready_start haccepted.params pool)
  unfold Ends at hends
  unfold func
  simp only [bind, Except.bind]
  generalize (f.body.getLast?.map (·.span)).getD .none = last
  cases hrun : (instrs funcs f.body).run ⟨#[], paramSlots f.params.length, ∅, pool⟩ with
  | error e =>
    rw [hrun] at hends
    exact .inr ⟨e, rfl, hends⟩
  | ok r =>
    obtain ⟨⟨⟩, s⟩ := r
    rw [hrun] at hends
    have hready : Ready f _ _ s := hends
    have hjumps : ∀ d ∈ s.code.toList, ∀ op l, d.val = .jump op l → l ∈ s.labels := by
      intro d hd op l heq
      rw [hready.labels]
      exact hready.jumps d (Array.mem_toList_iff.mp hd) op l heq
    obtain ⟨code, hcode⟩ | ⟨n, herror, hn⟩ := resolve_ends hjumps last #[]
    · simp only [hcode]
      split
      · rename_i hlarge
        exact .inr ⟨_, rfl, .tooLong hlarge⟩
      · exact .inl ⟨_, rfl⟩
    · simp only [herror]
      exact .inr ⟨_, rfl, .target hn⟩

lemma allFuncs_ends (haccepted : ∀ f ∈ fs, f.Accepted)
    (hwhole : ∀ f ∈ fs, ∀ i ∈ f.body, i.val.isWhole names = true) (pool : Pool)
    (done : Array Func) : (∃ r, allFuncs funcs pool done fs = .ok r) ∨
      ∃ f ∈ fs, ∃ span cause, allFuncs funcs pool done fs = .error ⟨span, .inFunc f.name cause⟩ ∧
        Exceeds f cause := by
  induction fs generalizing pool done with
  | nil => exact .inl ⟨_, rfl⟩
  | cons f fs ih =>
    simp only [allFuncs]
    obtain ⟨⟨g, pool'⟩, hf⟩ | ⟨e, he, hexceeds⟩ := func_ends hfuncs
      (haccepted f mem_cons_self) (hwhole f mem_cons_self) pool
    · simp only [hf]
      obtain hok | ⟨f', hf', hrest⟩ := ih (fun f' hf' => haccepted f' (mem_cons_of_mem f hf'))
        (fun f' hf' => hwhole f' (mem_cons_of_mem f hf')) pool' (done.push g)
      · exact .inl hok
      · exact .inr ⟨f', mem_cons_of_mem f hf', hrest⟩
    · simp only [he]
      exact .inr ⟨f, mem_cons_self, e.span, e.val, rfl, hexceeds⟩

end Parts

end Generate

lemma generate_ends {p : Tac.Program} (hwhole : p.Whole) (haccepted : ∀ f ∈ p.funcs, f.Accepted) :
    (∃ b, generate p = .ok b) ∨
      ∃ f ∈ p.funcs, ∃ span cause, generate p = .error ⟨span, .inFunc f.name cause⟩ ∧
        Exceeds f cause := by
  obtain ⟨table, hnumber⟩ := (Generate.exists_number_iff (k := 0)).mpr
    ⟨hwhole.names, fun _ _ => Std.HashMap.not_mem_empty⟩
  have htable : ∀ name ∈ p.funcs.map Tac.Func.name, ∃ n, table[name]? = some n := by
    intro name hname
    obtain ⟨f, hf, rfl⟩ := mem_map.mp hname
    rw [Generate.number_spec hnumber, ← Option.isSome_iff_exists]
    simpa using ⟨f, hf, rfl⟩
  obtain ⟨entry, hentry⟩ := htable _ hwhole.main
  simp only [generate, bind, Except.bind, hnumber, hentry]
  obtain ⟨r, hr⟩ | ⟨f, hf, span, cause, herror, hexceeds⟩ :=
    Generate.allFuncs_ends htable haccepted hwhole.instrs .empty #[]
  · simp only [hr]
    exact .inl ⟨_, rfl⟩
  · simp only [herror]
    exact .inr ⟨f, hf, span, cause, rfl, hexceeds⟩

/-- **A whole program that passes the check has bytecode, unless a function exceeds the capacity of
an instruction's argument.**  The same holds after any number of passes of folding. -/
theorem generate_within_capacity {p : Tac.Program} (hcheck : p.check = .ok ()) (hwhole : p.Whole)
    (passes : Nat) : (∃ b, generate (p.foldTimes passes).1 = .ok b) ∨
      ∃ f ∈ (p.foldTimes passes).1.funcs, ∃ span cause,
        generate (p.foldTimes passes).1 = .error ⟨span, .inFunc f.name cause⟩ ∧
          Exceeds f cause := by
  obtain ⟨hwhole', haccepted'⟩ := hwhole.foldTimes (Tac.checkFuncs_eq_ok_iff.mp hcheck) passes
  exact generate_ends hwhole' haccepted'

theorem generate_within_capacity_chatter : chatter.check = .ok () ∧ chatter.Whole ∧
    ((∃ b, generate (chatter.foldTimes 1).1 = .ok b) ∨
      ∃ f ∈ (chatter.foldTimes 1).1.funcs, ∃ span cause,
        generate (chatter.foldTimes 1).1 = .error ⟨span, .inFunc f.name cause⟩ ∧
          Exceeds f cause) := by
  have hlabels : Bytes.ofString "loop.0" ≠ Bytes.ofString "end.1" := by decide
  have hcheck : chatter.check = .ok () := by
    simp [hlabels, chatter, looping, joining, Tac.Program.check, Tac.checkFuncs, Tac.Func.check,
      Tac.checkLabels, Tac.checkInstrs, Tac.checkInstr, Tac.firstUnwritten?, Instr.label?,
      Instr.uses, Instr.dst?, Instr.target?, bind, Except.bind, pure, Except.pure]
  have hwhole : chatter.Whole := ⟨by decide, by decide, by decide⟩
  exact ⟨hcheck, hwhole, generate_within_capacity hcheck hwhole 1⟩

end Bytecode

end Minilang
