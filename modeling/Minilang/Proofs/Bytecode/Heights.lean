import Minilang.Proofs.Bytecode.Generation
import Minilang.Proofs.Machine.Effects
import Minilang.Proofs.Machine.Instructions

/-!
# The heights of the operands in generated code

The number of operands of a call before each of its instructions is known from the code: the code of
an instruction of three-address code begins and ends without operands, and within it one instruction
comes after the other.  A function is well formed if every instruction has as many operands as it
takes, wherever it is reached from, and if the arguments of its instructions are in range.
Generated functions are well formed.
-/

namespace Minilang

open List

variable {op : Opcode}

/-- The number of operands that an instruction takes. -/
def Instruction.takes (i : Instruction) : Nat :=
  (i.opcode?.map (Opcode.takes i.arg.toNat)).getD 0

/-- The number of values that an instruction gives. -/
def Instruction.gives (i : Instruction) : Nat :=
  (i.opcode?.map Opcode.gives).getD 0

lemma Instruction.takes_of (op : Opcode) (n : UInt16) : (of op n).takes = op.takes n.toNat := by
  rw [takes, opcode?_of]
  rfl

lemma Instruction.gives_of (op : Opcode) (n : UInt16) : (of op n).gives = op.gives := by
  rw [gives, opcode?_of]
  rfl

lemma Opcode.takes_of_jumps (h : op.jumps) (n : Nat) : op.takes n = op.takes 0 := by
  rcases eq_of_jumps h with rfl | rfl <;> rfl

lemma Opcode.gives_of_jumps (h : op.jumps) : op.gives = 0 := by
  rcases eq_of_jumps h with rfl | rfl <;> rfl

namespace Bytecode

open Tac (Operand Instr Code)

/-- The number of operands after instructions in a row, from the number before them. -/
def climb (h : Nat) (is : List Instruction) : Nat :=
  is.foldl (fun h i => h - i.takes + i.gives) h

/-- The number of operands before the instruction at a place. -/
def Func.height (f : Func) (ip : Nat) : Nat :=
  climb 0 (f.code.toList.take ip)

/-- The number of bytecode instructions that an instruction becomes. -/
def width : Instr → Nat
  | .assign .. | .ret _ | .jumpUnless .. | .print _ => 2
  | .unary .. | .field .. | .setField .. => 3
  | .binary .. | .index .. | .setIndex .. => 4
  | .call _ _ args => args.length + 3
  | .array _ xs => xs.length + 2
  | .record _ _ names _ => 2 * names.length + 3
  | .jump _ => 1
  | .label _ => 0

/-- The place in the code of the instruction number `k`. -/
def offset (body : Code) (k : Nat) : Nat :=
  ((body.take k).map fun i => width i.val).sum

/-- The place of the code of an instruction of a function, or the end of all code. -/
def IsBoundary (f : Tac.Func) (ip : Nat) : Prop :=
  ∃ k ≤ f.body.length, ip = offset f.body k

/-- An instruction has its operands, and its argument is in range. -/
structure Func.Admits (consts : Array Value) (boundary : Nat → Prop) (f : Func) (ip : Nat)
    (op : Opcode) (arg : Nat) : Prop where
  constant : op.argIsConst → ∃ v, consts[arg]? = some v ∧ (op ≠ .const → ∃ name, v = .string name)
  local_lt : op.argIsLocal → (arg : Int) < f.numLocals
  target : op.jumps → arg ≤ f.code.size ∧ boundary arg
  takes : op.takes arg ≤ f.height ip
  next : ∀ ip' ∈ op.next ip arg, f.height ip' + op.takes arg = f.height ip + op.gives

/-- A well-formed function. -/
structure Func.WellFormed (consts : Array Value) (boundary : Nat → Prop) (f : Func) : Prop where
  spans_size : f.spans.size = f.code.size
  height_eq : ∀ {ip}, boundary ip → f.height ip = 0
  admits : ∀ {ip i}, f.code[ip]? = some i →
    ∃ op, i.opcode? = some op ∧ f.Admits consts boundary ip op i.arg.toNat

/-! ### Instructions in a row -/

variable {is : List Instruction} {fs : List (Bytes × Operand)} {p : Tac.Program} {e : Env}
  {ds : List Draft} {n : UInt16} {h' : Nat}

/-- The argument of an instruction is known, and the instruction does not jump. -/
structure Env.Knows (e : Env) (op : Opcode) (n : UInt16) : Prop where
  const : op.argIsConst → ∃ v, e.const n.toNat = some v ∧ (op ≠ .const → ∃ name, v = .string name)
  slot : op.argIsLocal → ∃ r, e.slot r = some n.toNat
  stays : op.jumps = false

namespace Env.Knows

lemma of_const {v : Value} (h : e.const n.toNat = some v) : e.Knows .const n :=
  ⟨fun _ => ⟨v, h, fun hne => (hne rfl).elim⟩, nofun, rfl⟩

lemma of_name {name : Bytes} (h : e.const n.toNat = some (.string name))
    (hop : (op.argIsLocal || op.jumps) = false) : e.Knows op n := by
  obtain ⟨hslot, hstays⟩ := Bool.or_eq_false_iff.mp hop
  exact ⟨fun _ => ⟨_, h, fun _ => ⟨name, rfl⟩⟩, fun hs => by simp [hslot] at hs, hstays⟩

lemma of_slot {r : Nat} (h : e.slot r = some n.toNat)
    (hop : (op.argIsConst || op.jumps) = false) : e.Knows op n := by
  obtain ⟨hconst, hstays⟩ := Bool.or_eq_false_iff.mp hop
  exact ⟨fun hc => by simp [hconst] at hc, fun _ => ⟨r, h⟩, hstays⟩

lemma other (hop : (op.argIsConst || op.argIsLocal || op.jumps) = false) : e.Knows op n := by
  obtain ⟨hargs, hstays⟩ := Bool.or_eq_false_iff.mp hop
  obtain ⟨hconst, hslot⟩ := Bool.or_eq_false_iff.mp hargs
  exact ⟨fun hc => by simp [hconst] at hc, fun hs => by simp [hslot] at hs, hstays⟩

end Env.Knows

/-- Drafts in a row that have their operands, with the numbers of operands before and after them.
There are none after a jump. -/
inductive Climbs (e : Env) : Nat → List Draft → Nat → Prop
  | nil {h} : Climbs e h [] h
  | cons {h h' op n ds} : e.Knows op n →
      op.takes n.toNat ≤ h → Climbs e (h - op.takes n.toNat + op.gives) ds h' →
      Climbs e h (.plain (.of op n) :: ds) h'
  | jump {h h' op l ds} : op.jumps →
      op.takes 0 = h → Climbs e 0 ds h' → Climbs e h (.jump op l :: ds) h'

namespace Climbs

variable {h h'' : Nat} {ds ds' : List Draft}

lemma append (hds : Climbs e h ds h') (hds' : Climbs e h' ds' h'') :
    Climbs e h (ds ++ ds') h'' := by
  induction hds with
  | nil => exact hds'
  | cons hknows htakes _ ih => exact .cons hknows htakes (ih hds')
  | jump hjumps htakes _ ih => exact .jump hjumps htakes (ih hds')

lemma all (hknows : e.Knows op n) (htakes : op.takes n.toNat = h)
    (hds : Climbs e op.gives ds h') : Climbs e h (.plain (.of op n) :: ds) h' := by
  refine .cons hknows (le_of_eq htakes) ?_
  rwa [htakes, Nat.sub_self, zero_add]

lemma store {d : Nat} (hd : e.slot d = some n.toNat) : Climbs e 1 [.plain (.of .store n)] 0 :=
  all (.of_slot hd rfl) rfl .nil

lemma push {x : Operand} {i : Instruction} (hx : Pushes p e x i) (hds : Climbs e (h + 1) ds h') :
    Climbs e h (.plain i :: ds) h' := by
  cases hx with
  | reg hr => exact .cons (.of_slot hr rfl) (Nat.zero_le _) hds
  | lit hc _ => exact .cons (.of_const hc) (Nat.zero_le _) hds

lemma pushAll {xs : List Operand} (hxs : PushesAll p e xs is)
    (hds : Climbs e (h + xs.length) ds h') : Climbs e h (plain is ++ ds) h' := by
  induction hxs generalizing h with
  | nil => exact hds
  | @cons x i xs is hx _ ih =>
    refine push hx (ih ?_)
    rwa [add_assoc, add_comm 1]

lemma pushFields (hfs : PushesFields p e fs is) (hds : Climbs e (h + 2 * fs.length) ds h') :
    Climbs e h (plain is ++ ds) h' := by
  induction hfs generalizing h with
  | nil => exact hds
  | @cons name x n i fs is hn hx _ ih =>
    refine .cons (.of_const hn) (Nat.zero_le _) (push hx (ih ?_))
    have hlength : h + 1 + 1 + 2 * fs.length = h + 2 * (fs.length + 1) := by omega
    exact hlength ▸ hds

end Climbs

/-- **The code of an instruction begins and ends without operands.** -/
theorem Emits.climbs {i : Instr} (h : Emits p e i ds) : Climbs e 0 ds 0 := by
  cases h with
  | assign hx hd => exact .push hx (.store hd)
  | binary hx hy hd => exact .push hx (.push hy (.all (.other rfl) rfl (.store hd)))
  | unary hx hd => exact .push hx (.all (.other rfl) rfl (.store hd))
  | call hxs hf hm hd =>
    rw [plain, map_append]
    refine .pushAll hxs (.push hf (.all (.other rfl) ?_ (.store hd)))
    rw [Opcode.takes, ← hm, zero_add]
  | retNull => exact .cons (.other rfl) (Nat.zero_le _) (.all (.other rfl) rfl .nil)
  | ret hx => exact .push hx (.all (.other rfl) rfl .nil)
  | jumpUnless hx => exact .push hx (.jump rfl rfl .nil)
  | jump => exact .jump rfl rfl .nil
  | label => exact .nil
  | array hxs hm hd =>
    rw [plain, map_append]
    refine .pushAll hxs (.all (.other rfl) ?_ (.store hd))
    rw [Opcode.takes, ← hm, zero_add]
  | index hx hy hd => exact .push hx (.push hy (.all (.other rfl) rfl (.store hd)))
  | setIndex hx hy hz => exact .push hx (.push hy (.push hz (.all (.other rfl) rfl .nil)))
  | field hx hm hd => exact .push hx (.all (.of_name hm rfl) rfl (.store hd))
  | setField hx hy hm => exact .push hx (.push hy (.all (.of_name hm rfl) rfl .nil))
  | record hlen hm hk hfs hd =>
    rw [plain, map_cons, map_append]
    refine .cons (.of_const hk) (Nat.zero_le _) (.pushFields hfs (.all (.other rfl) ?_ (.store hd)))
    rw [length_zip, ← hlen, min_self, ← hm]
    rfl
  | print hx => exact .push hx (.all (.other rfl) rfl .nil)

lemma PushesFields.length_eq (h : PushesFields p e fs is) : is.length = 2 * fs.length := by
  induction h with
  | nil => rfl
  | cons _ _ _ ih =>
    rw [length_cons, length_cons, length_cons]
    omega

lemma Emits.length_eq {i : Instr} (h : Emits p e i ds) : ds.length = width i := by
  cases h with
  | call hxs _ _ _ => simp [width, ← hxs.length_eq]
  | array hxs _ _ => simp [width, ← hxs.length_eq]
  | record hlen _ _ hfs _ => simp [width, hfs.length_eq, hlen]
  | _ => rfl

/-! ### The code of a function -/

variable {i : Located Instr} {k j ip : Nat} {l : Bytes} {label : Bytes → Option Nat}

section Laid

variable {is : Code} {ds : List (Located Draft)}

lemma offset_zero (is : Code) : offset is 0 = 0 := by
  simp [offset]

lemma offset_succ (i : Located Instr) (is : Code) (k : Nat) :
    offset (i :: is) (k + 1) = width i.val + offset is k := by
  simp [offset]

variable (h : Laid p e label ip is ds)

include h

lemma Laid.take (k : Nat) :
    offset is k ≤ ds.length ∧ Laid p e label ip (is.take k) (ds.take (offset is k)) := by
  induction k generalizing ip is ds with
  | zero =>
    exact ⟨Nat.zero_le _, .nil⟩
  | succ k ih =>
    cases h with
    | nil => simpa [offset] using nil
    | @cons _ i is ds rest hi hlabel hrest =>
      obtain ⟨hle, htake⟩ := ih hrest
      have hlength : (ds.map (fun d => (⟨i.span, d⟩ : Located Draft))).length = width i.val := by
        rw [length_map, hi.length_eq]
      rw [offset_succ, ← hlength, take_length_add_append, length_append]
      exact ⟨by omega, .cons hi hlabel htake⟩

lemma Laid.length_eq : ds.length = offset is is.length := by
  induction h with
  | nil => rfl
  | cons hi _ _ ih =>
    rw [length_append, length_map, hi.length_eq, ih, length_cons, offset_succ]

lemma Laid.span_eq (hi : is[k]? = some i) (hj : j < width i.val) :
    ∃ d, ds[offset is k + j]? = some d ∧ d.span = i.span := by
  induction h generalizing k with
  | nil => simp at hi
  | @cons ip i' is ds rest hi' _ _ ih =>
    have hlength : (ds.map (fun d => (⟨i'.span, d⟩ : Located Draft))).length = width i'.val := by
      rw [length_map, hi'.length_eq]
    cases k with
    | zero =>
      obtain rfl : i' = i := by simpa using hi
      have hlt : j < ds.length := by rwa [hi'.length_eq]
      refine ⟨⟨i'.span, ds[j]⟩, ?_, rfl⟩
      rw [offset_zero, zero_add, getElem?_append_left (by omega), getElem?_map,
        getElem?_eq_getElem hlt]
      rfl
    | succ k =>
      obtain ⟨d, hd, hspan⟩ := ih (by simpa using hi)
      refine ⟨d, ?_, hspan⟩
      rw [offset_succ, getElem?_append_right (by omega), ← hd]
      congr 1
      omega

lemma Laid.label_eq (hi : i ∈ is) (hl : i.val.label? = some l) :
    ∃ k ≤ is.length, label l = some (ip + offset is k) := by
  induction h with
  | nil => cases hi
  | @cons ip j is ds rest hj hlabel _ ih =>
    rcases mem_cons.mp hi with rfl | hi
    · exact ⟨0, Nat.zero_le _, by rw [offset_zero]; exact hlabel l hl⟩
    · obtain ⟨k, hk, hplace⟩ := ih hi
      refine ⟨k + 1, Nat.succ_le_succ hk, ?_⟩
      rw [offset_succ, hplace, hj.length_eq, add_assoc]

lemma Laid.climbs : Climbs e 0 (ds.map (·.val)) 0 := by
  induction h with
  | nil => exact .nil
  | cons hi _ _ ih =>
    rw [map_append, map_map]
    have hval : ∀ span (ds : List Draft),
        ds.map ((·.val) ∘ fun d => (⟨span, d⟩ : Located Draft)) = ds := fun _ ds => map_id ds
    rw [hval]
    exact hi.climbs.append ih

end Laid

/-- What is known of an instruction of a row. -/
structure Stands (e : Env) (label : Bytes → Option Nat) (before after : Nat) (op : Opcode)
    (n : UInt16) : Prop where
  const : op.argIsConst → ∃ v, e.const n.toNat = some v ∧ (op ≠ .const → ∃ name, v = .string name)
  slot : op.argIsLocal → ∃ r, e.slot r = some n.toNat
  takes : op.takes n.toNat ≤ before
  after_eq : after = before - op.takes n.toNat + op.gives
  jump : op.jumps → after = 0 ∧ ∃ l, label l = some n.toNat

lemma climb_cons (h : Nat) (i : Instruction) (is : List Instruction) :
    climb h (i :: is) = climb (h - i.takes + i.gives) is := rfl

/-- A row of instructions leads from one height to the other, and each of them stands. -/
def StandAll (e : Env) (label : Bytes → Option Nat) (h : Nat) (is : List Instruction)
    (h' : Nat) : Prop :=
  climb h is = h' ∧ ∀ k i, is[k]? = some i → ∃ op n, i = .of op n ∧
    Stands e label (climb h (is.take k)) (climb h (is.take (k + 1))) op n

lemma StandAll.cons {h h1 : Nat} {op : Opcode} {n : UInt16} (hfirst : Stands e label h h1 op n)
    (hrest : StandAll e label h1 is h') : StandAll e label h (.of op n :: is) h' := by
  have hstep : ∀ js, climb h (.of op n :: js) = climb h1 js := by
    intro js
    rw [climb_cons, Instruction.takes_of, Instruction.gives_of, hfirst.after_eq]
  refine ⟨(hstep is).trans hrest.1, fun k i hk => ?_⟩
  cases k with
  | zero =>
    obtain rfl := Option.some.inj hk
    refine ⟨op, n, rfl, ?_⟩
    rw [take_succ_cons, hstep]
    exact hfirst
  | succ k =>
    rw [take_succ_cons, take_succ_cons, hstep, hstep]
    exact hrest.2 k i hk

/-- **Every instruction of a row has its operands.** -/
theorem Climbs.stands {h : Nat} (hds : Climbs e h ds h') (his : Forall₂ (Resolves label) ds is) :
    StandAll e label h is h' := by
  induction hds generalizing is with
  | nil =>
    cases his
    exact ⟨rfl, by simp⟩
  | cons hknows htakes _ ih =>
    cases his with
    | cons hres his =>
      cases hres
      refine .cons ⟨hknows.const, hknows.slot, htakes, rfl, fun hjumps => ?_⟩ (ih his)
      rw [hknows.stays] at hjumps
      cases hjumps
  | @jump h h' op l ds hjumps htakes _ ih =>
    cases his with
    | cons hres his =>
      cases hres with
      | @jump _ _ n hl =>
        have htakes' : op.takes n.toNat = h := (Opcode.takes_of_jumps hjumps _).trans htakes
        refine .cons ⟨fun hc => ?_, fun hs => ?_, htakes'.le, ?_, fun _ => ⟨rfl, l, hl⟩⟩ (ih his)
        · rcases Opcode.eq_of_jumps hjumps with rfl | rfl <;> cases hc
        · rcases Opcode.eq_of_jumps hjumps with rfl | rfl <;> cases hs
        · rw [htakes', Opcode.gives_of_jumps hjumps]
          exact (Nat.sub_self h).symm

section

variable {consts : Array Value} {f : Tac.Func} {g : Func}

variable (code : FuncCode p consts f g)

include code

lemma FuncCode.forall₂_resolves :
    Forall₂ (Resolves code.label) (code.drafts.map (·.val)) g.code.toList := by
  refine forall₂_iff_get.mpr ⟨?_, fun ip h h' => ?_⟩
  · rw [length_map, Array.length_toList, code.size_eq]
  · rw [length_map] at h
    obtain ⟨i, hi, -, hres⟩ := code.resolves (getElem?_eq_getElem h)
    rw [← Array.getElem?_toList, getElem?_eq_getElem h'] at hi
    obtain rfl := Option.some.inj hi
    simpa using hres

lemma FuncCode.label_boundary {t : Nat} (hl : code.label l = some t) :
    t ≤ g.code.size ∧ IsBoundary f t := by
  obtain ⟨i, hi, hlabel⟩ := code.label_known hl
  obtain ⟨k, hk, hplace⟩ := code.laid.label_eq hi hlabel
  rw [zero_add] at hplace
  cases hl.symm.trans hplace
  exact ⟨by rw [code.size_eq]; exact (code.laid.take k).1, k, hk, rfl⟩

lemma FuncCode.height_boundary (h : IsBoundary f ip) : g.height ip = 0 := by
  obtain ⟨k, -, rfl⟩ := h
  have htake := forall₂_take (offset f.body k) code.forall₂_resolves
  rw [← map_take] at htake
  exact ((code.laid.take k).2.climbs.stands htake).1

lemma FuncCode.span_eq (hi : f.body[k]? = some i) (hj : j < width i.val) :
    g.span (offset f.body k + j) = i.span := by
  obtain ⟨d, hd, hspan⟩ := code.laid.span_eq hi hj
  obtain ⟨-, -, hg, -⟩ := code.resolves hd
  rw [hg, hspan]

/-- **A generated function is well formed.** -/
theorem FuncCode.wellFormed : g.WellFormed consts (IsBoundary f) where
  spans_size := by rw [code.spans_size_eq, code.size_eq]
  height_eq := code.height_boundary
  admits := by
    intro ip i hi
    rw [← Array.getElem?_toList] at hi
    obtain ⟨op, n, rfl, hstands⟩ := (code.laid.climbs.stands code.forall₂_resolves).2 ip i hi
    refine ⟨op, Instruction.opcode?_of op n, ?_⟩
    rw [Instruction.arg_of]
    have hafter : g.height (ip + 1) = g.height ip - op.takes n.toNat + op.gives := hstands.after_eq
    have htakes : op.takes n.toNat ≤ g.height ip := hstands.takes
    refine ⟨fun hc => ?_, fun hs => ?_, fun hj => ?_, htakes, fun ip' hip' => ?_⟩
    · obtain ⟨v, hv, hname⟩ := hstands.const hc
      exact ⟨v, code.const_eq hv, hname⟩
    · obtain ⟨r, hr⟩ := hstands.slot hs
      exact code.slot_lt hr
    · obtain ⟨-, l, hl⟩ := hstands.jump hj
      exact code.label_boundary hl
    · rcases Opcode.of_mem_next hip' with rfl | ⟨hj, rfl⟩
      · omega
      · -- Both the instruction after a jump and its target have no operands.
        obtain ⟨hzero, l, hl⟩ := hstands.jump hj
        have hzero' : g.height (ip + 1) = 0 := hzero
        have htarget := code.height_boundary (code.label_boundary hl).2
        omega

end

end Bytecode

end Minilang
