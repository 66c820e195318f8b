import Minilang.Proofs.Bytecode.Constants
import Minilang.Proofs.Tac.Semantics
import Mathlib.Data.List.Forall2

/-!
# The code of instructions

What the code of an instruction looks like, told without the generator: `Emits` relates an
instruction of three-address code to its bytecode, `Laid` relates a list of instructions to the
code that begins at some place.  Both depend on the local variables of registers and on the places
of constants, of which the generator only ever adds new ones.
-/

namespace Minilang.Bytecode

open Tac (Operand Instr Code)
open Generate (FuncTable)

/-- What the arguments of instructions stand for. -/
structure Env where
  /-- The local variables of registers. -/
  slot : Nat → Option Nat
  /-- The constants by their numbers. -/
  const : Nat → Option Value

variable {e e' : Env}

/-- An environment with more local variables and constants. -/
structure Env.Extends (e e' : Env) : Prop where
  slot : ∀ {r n}, e.slot r = some n → e'.slot r = some n
  const : ∀ {k v}, e.const k = some v → e'.const k = some v

lemma Env.Extends.refl (e : Env) : e.Extends e := ⟨id, id⟩

lemma Env.Extends.trans {e'' : Env} (h : e.Extends e') (h' : e'.Extends e'') : e.Extends e'' :=
  ⟨fun hs => h'.slot (h.slot hs), fun hc => h'.const (h.const hc)⟩

/-! ### Operands -/

variable {p : Tac.Program} {is : List Instruction}

/-- An instruction that pushes the value of an operand. -/
inductive Pushes (p : Tac.Program) (e : Env) : Operand → Instruction → Prop
  | reg {r n} : e.slot r = some n.toNat → Pushes p e (.reg r) (.of .load n)
  | lit {l n v} : e.const n.toNat = some v →
      v.canon = (l.eval p).canon → Pushes p e (.lit l) (.of .const n)

lemma Pushes.mono (he : e.Extends e') {x : Operand} {i : Instruction} (h : Pushes p e x i) :
    Pushes p e' x i := by
  cases h with
  | reg hr => exact .reg (he.slot hr)
  | lit hc hv => exact .lit (he.const hc) hv

/-- Instructions that push the values of operands in order. -/
abbrev PushesAll (p : Tac.Program) (e : Env) : List Operand → List Instruction → Prop :=
  List.Forall₂ (Pushes p e)

lemma PushesAll.mono (he : e.Extends e') {xs : List Operand} (h : PushesAll p e xs is) :
    PushesAll p e' xs is :=
  h.imp fun _ _ hx => hx.mono he

/-- Instructions that push the names and the values of fields in turn. -/
inductive PushesFields (p : Tac.Program) (e : Env) :
    List (Bytes × Operand) → List Instruction → Prop
  | nil : PushesFields p e [] []
  | cons {name x n i fs is} :
      e.const n.toNat = some (.string name) → Pushes p e x i → PushesFields p e fs is →
      PushesFields p e ((name, x) :: fs) (.of .const n :: i :: is)

lemma PushesFields.mono (he : e.Extends e') {fs : List (Bytes × Operand)}
    (h : PushesFields p e fs is) : PushesFields p e' fs is := by
  induction h with
  | nil => exact .nil
  | cons hn hx _ ih => exact .cons (he.const hn) (hx.mono he) ih

/-! ### Instructions -/

/-- Instructions without a label. -/
abbrev plain (is : List Instruction) : List Draft := is.map .plain

/-- The code of an instruction. -/
inductive Emits (p : Tac.Program) (e : Env) : Instr → List Draft → Prop
  | assign {d x i n} : Pushes p e x i →
      e.slot d = some n.toNat → Emits p e (.assign d x) (plain [i, .of .store n])
  | binary {d op x y i j n} : Pushes p e x i → Pushes p e y j → e.slot d = some n.toNat →
      Emits p e (.binary d (.known op) x y) (plain [i, j, .of (.binary op) 0, .of .store n])
  | unary {d op x i n} : Pushes p e x i → e.slot d = some n.toNat →
      Emits p e (.unary d (.known op) x) (plain [i, .of (.primitive op) 0, .of .store n])
  | call {d f args i is n m} : PushesAll p e args is → Pushes p e f i → args.length = m.toNat →
      e.slot d = some n.toNat →
      Emits p e (.call d f args) (plain (is ++ [i, .of .call m, .of .store n]))
  | retNull : Emits p e (.ret none) (plain [.of .null 0, .of .ret 0])
  | ret {x i} : Pushes p e x i → Emits p e (.ret (some x)) (plain [i, .of .ret 0])
  | jumpUnless {x l i} : Pushes p e x i →
      Emits p e (.jumpUnless x l) [.plain i, .jump .jumpIfFalse l]
  | jump {l} : Emits p e (.jump l) [.jump .jump l]
  | label {l} : Emits p e (.label l) []
  | array {d xs is n m} : PushesAll p e xs is → xs.length = m.toNat → e.slot d = some n.toNat →
      Emits p e (.array d xs) (plain (is ++ [.of .array m, .of .store n]))
  | index {d x y i j n} : Pushes p e x i → Pushes p e y j → e.slot d = some n.toNat →
      Emits p e (.index d x y) (plain [i, j, .of .indexGet 0, .of .store n])
  | setIndex {x y z i j k} : Pushes p e x i → Pushes p e y j →
      Pushes p e z k → Emits p e (.setIndex x y z) (plain [i, j, k, .of .indexSet 0])
  | field {d x name i n m} :
      Pushes p e x i → e.const m.toNat = some (.string name) → e.slot d = some n.toNat →
      Emits p e (.field d x name) (plain [i, .of .fieldGet m, .of .store n])
  | setField {x y name i j m} : Pushes p e x i →
      Pushes p e y j → e.const m.toNat = some (.string name) →
      Emits p e (.setField x name y) (plain [i, j, .of .fieldSet m])
  | record {d type names xs is n m k} : names.length = xs.length →
      names.length = m.toNat → e.const k.toNat = some (.string type) →
      PushesFields p e (names.zip xs) is → e.slot d = some n.toNat →
      Emits p e (.record d type names xs)
        (plain (.of .const k :: (is ++ [.of .record m, .of .store n])))
  | print {x i} : Pushes p e x i → Emits p e (.print x) (plain [i, .of .print 0])

lemma Emits.mono (he : e.Extends e') {i : Instr} {ds : List Draft} (h : Emits p e i ds) :
    Emits p e' i ds := by
  cases h with
  | assign hx hd => exact .assign (hx.mono he) (he.slot hd)
  | binary hx hy hd => exact .binary (hx.mono he) (hy.mono he) (he.slot hd)
  | unary hx hd => exact .unary (hx.mono he) (he.slot hd)
  | call hxs hf hm hd => exact .call (hxs.mono he) (hf.mono he) hm (he.slot hd)
  | retNull => exact .retNull
  | ret hx => exact .ret (hx.mono he)
  | jumpUnless hx => exact .jumpUnless (hx.mono he)
  | jump => exact .jump
  | label => exact .label
  | array hxs hm hd => exact .array (hxs.mono he) hm (he.slot hd)
  | index hx hy hd => exact .index (hx.mono he) (hy.mono he) (he.slot hd)
  | setIndex hx hy hz => exact .setIndex (hx.mono he) (hy.mono he) (hz.mono he)
  | field hx hm hd => exact .field (hx.mono he) (he.const hm) (he.slot hd)
  | setField hx hy hm => exact .setField (hx.mono he) (hy.mono he) (he.const hm)
  | record hlen hm hk hfs hd => exact .record hlen hm (he.const hk) (hfs.mono he) (he.slot hd)
  | print hx => exact .print (hx.mono he)

/-! ### Lists of instructions -/

variable {is : Code} {ds : List (Located Draft)} {label : Bytes → Option Nat}
  {ip : Nat}

/-- The code of instructions from a place on; `label` gives the places of labels. -/
inductive Laid (p : Tac.Program) (e : Env) (label : Bytes → Option Nat) :
    Nat → Code → List (Located Draft) → Prop
  | nil {ip : Nat} : Laid p e label ip [] []
  | cons {ip : Nat} {i : Located Instr} {is : Code} {ds : List Draft}
      {rest : List (Located Draft)} : Emits p e i.val ds →
      (∀ l, i.val.label? = some l → label l = some ip) →
      Laid p e label (ip + ds.length) is rest →
      Laid p e label ip (i :: is) (ds.map (⟨i.span, ·⟩) ++ rest)

lemma Laid.cons_iff {i : Located Instr} :
    Laid p e label ip (i :: is) ds ↔ ∃ code rest,
      ds = code.map (⟨i.span, ·⟩) ++ rest ∧ Emits p e i.val code ∧
      (∀ l, i.val.label? = some l → label l = some ip) ∧
      Laid p e label (ip + code.length) is rest := by
  constructor
  · rintro (_ | ⟨hi, hlabel, hrest⟩)
    exact ⟨_, _, rfl, hi, hlabel, hrest⟩
  · rintro ⟨code, rest, rfl, hi, hlabel, hrest⟩
    exact .cons hi hlabel hrest

lemma Laid.drop (h : Laid p e label ip is ds) (pc : Nat) :
    ∃ n ≤ ds.length, Laid p e label (ip + n) (is.drop pc) (ds.drop n) := by
  induction pc generalizing ip is ds with
  | zero => exact ⟨0, Nat.zero_le _, h⟩
  | succ pc ih =>
    cases h with
    | nil => exact ⟨0, Nat.zero_le _, .nil⟩
    | @cons _ i is ds rest hi hlabel hrest =>
      obtain ⟨n, hle, hn⟩ := ih hrest
      have hdrop : (ds.map (fun d => (⟨i.span, d⟩ : Located Draft)) ++ rest).drop (ds.length + n) =
          rest.drop n := by
        rw [← List.length_map (fun d => (⟨i.span, d⟩ : Located Draft)), List.drop_length_add_append]
      refine ⟨ds.length + n, by simp [hle], ?_⟩
      rw [hdrop, ← add_assoc]
      exact hn

/-! ### The constants of instructions -/

/-- The constants that an operand needs. -/
def Operand.constants (p : Tac.Program) : Operand → List Value
  | .lit l => [l.eval p]
  | .reg _ | .missing => []

/-- The constants that an instruction pushes or names, in order. -/
def Instr.constants (p : Tac.Program) : Instr → List Value
  | .field _ x name => Operand.constants p x ++ [.string name]
  | .setField x name y => Operand.constants p x ++ (Operand.constants p y ++ [.string name])
  | .record _ type names xs => .string type ::
      (names.zip xs).flatMap fun e => .string e.1 :: Operand.constants p e.2
  | i => i.uses.flatMap (Operand.constants p)

lemma Instr.constants_call (p : Tac.Program) (d : Nat) (f : Operand) (args : List Operand) :
    constants p (.call d f args) =
      args.flatMap (Operand.constants p) ++ (Operand.constants p f ++ []) :=
  List.flatMap_append

/-- The constants that a function needs. -/
def Func.constants (p : Tac.Program) (f : Tac.Func) : List Value :=
  f.body.flatMap fun i => Instr.constants p i.val

end Minilang.Bytecode
