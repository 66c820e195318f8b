import Minilang.Proofs.Bytecode.Emission
import Minilang.Proofs.Outcomes

/-!
# The generator makes the code of instructions

Every part of the generator adds code at the end and keeps what there is: local variables,
constants and labels stay where they are.  What it adds is the code that `Emits` describes, in the
environment at the end, and to the pool the constants of the instructions, in order.
-/

namespace Minilang.Bytecode

open List

open Tac (Operand Instr Code)
open Generate (FuncTable M)

variable {ds : List Draft} {k params : Nat} {pool pool' : Pool} {table : FuncTable} {f : Tac.Func}
  {g : Func} {p : Tac.Program} {span : Span} {s s' s'' : FuncState}

/-- What the arguments of instructions stand for so far. -/
def FuncState.env (s : FuncState) : Env :=
  ⟨fun r => s.slots[r]?, fun k => s.pool.values[k]?⟩

/-- What always holds of the state of the generator in a function. -/
structure FuncState.Valid (table : FuncTable) (params : Nat) (s : FuncState) : Prop where
  pool : s.pool.Valid table
  lt : ∀ {r n : Nat}, s.slots[r]? = some n → n < s.slots.size
  inj : ∀ {r r' n : Nat}, s.slots[r]? = some n → s.slots[r']? = some n → r = r'
  param : ∀ {r : Nat}, r < params → s.slots[r]? = some r
  size_le : s.slots.size ≤ max params 65536

/-- From one state of the generator to a later one, with the given code and constants between. -/
structure Grown (table : FuncTable) (params : Nat) (span : Span) (s s' : FuncState)
    (ds : List Draft) (vs : List Value) : Prop where
  valid : s'.Valid table params
  env : s.env.Extends s'.env
  labels : s'.labels = s.labels
  code : s'.code = s.code ++ (ds.map (fun d => (⟨span, d⟩ : Located Draft))).toArray
  pool : s'.pool = s.pool.putAll vs

section

variable {ds' : List Draft} {vs vs' : List Value}

lemma Grown.trans (h : Grown table params span s s' ds vs)
    (h' : Grown table params span s' s'' ds' vs') :
    Grown table params span s s'' (ds ++ ds') (vs ++ vs') where
  valid := h'.valid
  env := h.env.trans h'.env
  labels := h'.labels.trans h.labels
  code := by rw [h'.code, h.code]; simp
  pool := by rw [h'.pool, h.pool, Pool.putAll_append]

lemma Grown.emit (h : Grown table params span s s' ds vs)
    (h' : Grown table params span s' s'' ds' []) :
    Grown table params span s s'' (ds ++ ds') vs := by
  simpa using h.trans h'

end

namespace Generate

/-! ### Single instructions -/

variable {op : Opcode} {n : Nat} {what : Quantity}

section

variable (hs : s.Valid table params)

include hs

lemma grown_push (d : Draft) :
    Grown table params span s { s with code := s.code.push ⟨span, d⟩ } [d] [] where
  valid := ⟨hs.pool, hs.lt, hs.inj, hs.param, hs.size_le⟩
  env := .refl _
  labels := rfl
  code := by simp
  pool := rfl

lemma emit_spec (h : (emit span op).run s = .ok ((), s')) :
    Grown table params span s s' [.plain (.of op 0)] [] := by
  cases h
  exact grown_push hs _

lemma add_spec {d : Draft} (h : (add span d).run s = .ok ((), s')) :
    Grown table params span s s' [d] [] := by
  cases h
  exact grown_push hs _

omit hs in
lemma toNat_toUInt16 (h : n ≤ Instruction.maxArg) : n.toUInt16.toNat = n := by
  rw [UInt16.toNat_ofNat']
  unfold Instruction.maxArg at h
  omega

lemma emitArg_spec (h : (emitArg span op what n).run s = .ok ((), s')) :
    ∃ m : UInt16, m.toNat = n ∧ Grown table params span s s' [.plain (.of op m)] [] ∧
      s'.env = s.env := by
  unfold emitArg at h
  split at h
  · rename_i hle
    cases h
    exact ⟨n.toUInt16, toNat_toUInt16 hle, grown_push hs _, rfl⟩
  · cases h

end

/-! ### Constants -/

variable {v : Value}

lemma constant_spec (hs : s.Valid table params) (hv : IsConstant table v)
    (h : (constant v).run s = .ok (k, s')) :
    Grown table params span s s' [] [v] ∧ ∃ w, s'.env.const k = some w ∧ w.canon = v.canon := by
  obtain ⟨hpool, hext, hw⟩ := Pool.index_spec hs.pool hv
  cases h
  exact ⟨⟨⟨hpool, hs.lt, hs.inj, hs.param, hs.size_le⟩, ⟨id, fun hc => hext _ _ hc⟩, rfl, by simp,
    rfl⟩, hw⟩

lemma emitConst_spec (hs : s.Valid table params) (hv : IsConstant table v)
    (h : (do emitArg span op what (← constant v) : M Unit).run s = .ok ((), s')) :
    ∃ m : UInt16, Grown table params span s s' [.plain (.of op m)] [v] ∧
      ∃ w, s'.env.const m.toNat = some w ∧ w.canon = v.canon := by
  obtain ⟨k, s1, hk, h1⟩ := run_bind_ok h
  obtain ⟨hg, w, hw, hc⟩ := constant_spec hs hv hk
  obtain ⟨m, rfl, hg', henv⟩ := emitArg_spec hg.valid h1
  exact ⟨m, hg.trans hg', w, by rw [henv]; exact hw, hc⟩

lemma emitName_spec (hs : s.Valid table params) {name : Bytes}
    (h : (do emitArg span op what (← constant (.string name)) : M Unit).run s = .ok ((), s')) :
    ∃ m : UInt16, Grown table params span s s' [.plain (.of op m)] [.string name] ∧
      s'.env.const m.toNat = some (.string name) := by
  obtain ⟨m, hg, w, hw, hc⟩ := emitConst_spec hs (v := .string name) trivial h
  rw [Value.canon_eq_string hc] at hw
  exact ⟨m, hg, hw⟩

/-! ### Operands -/

section

variable (htable : ∀ name : Bytes, table[name]? = p.index? name)

include htable

lemma literal_spec {l : Tac.Lit} (h : (literal table span l).run s = .ok (v, s')) :
    s' = s ∧ IsConstant table v ∧ v = l.eval p := by
  cases l with
  | int n | float x | bool b | string t =>
    cases h
    exact ⟨rfl, trivial, rfl⟩
  | func name =>
    simp only [literal] at h
    cases hn : table[name]? with
    | none => rw [hn] at h; cases h
    | some n =>
      rw [hn] at h
      cases h
      refine ⟨rfl, ⟨n, hn, rfl⟩, ?_⟩
      rw [Tac.Lit.eval, ← htable, hn]
  | invalid k => cases h

lemma push_spec (hs : s.Valid table params) {x : Operand}
    (h : (push table span x).run s = .ok ((), s')) :
    ∃ i, Grown table params span s s' [.plain i] (Operand.constants p x) ∧ Pushes p s'.env x i := by
  cases x with
  | reg r =>
    obtain ⟨_, _, hget, h1⟩ := run_bind_ok h
    cases hget
    cases hr : s.slots[r]? with
    | none => rw [hr] at h1; cases h1
    | some n =>
      rw [hr] at h1
      obtain ⟨m, rfl, hg, henv⟩ := emitArg_spec hs h1
      exact ⟨_, hg, .reg (by rw [henv]; exact hr)⟩
  | lit l =>
    obtain ⟨v, s1, hl, h1⟩ := run_bind_ok h
    obtain ⟨rfl, hv, rfl⟩ := literal_spec htable hl
    obtain ⟨m, hg, w, hw, hc⟩ := emitConst_spec hs hv h1
    exact ⟨_, hg, .lit hw hc⟩
  | missing => cases h

lemma pushAll_spec {xs : List Operand} :
    ∀ {s}, s.Valid table params → (pushAll table span xs).run s = .ok ((), s') →
    ∃ is, Grown table params span s s' (plain is) (xs.flatMap (Operand.constants p)) ∧
      PushesAll p s'.env xs is := by
  induction xs with
  | nil =>
    intro s hs h
    cases h
    exact ⟨[], ⟨hs, .refl _, rfl, by simp, rfl⟩, .nil⟩
  | cons x xs ih =>
    intro s hs h
    obtain ⟨_, s1, hx, h1⟩ := run_bind_ok h
    obtain ⟨i, hg, hi⟩ := push_spec htable hs hx
    obtain ⟨is, hg', his⟩ := ih hg.valid h1
    exact ⟨i :: is, hg.trans hg', .cons (hi.mono hg'.env) his⟩

lemma pushFields_spec {fs : List (Bytes × Operand)} :
    ∀ {s}, s.Valid table params → (pushFields table span fs).run s = .ok ((), s') →
    ∃ is, Grown table params span s s' (plain is)
      (fs.flatMap fun e => .string e.1 :: Operand.constants p e.2) ∧
      PushesFields p s'.env fs is := by
  induction fs with
  | nil =>
    intro s hs h
    cases h
    exact ⟨[], ⟨hs, .refl _, rfl, by simp, rfl⟩, .nil⟩
  | cons f fs ih =>
    intro s hs h
    obtain ⟨_, s1, hname, h1⟩ := run_bind_ok h
    obtain ⟨_, s2, hx, h2⟩ := run_bind_ok h1
    obtain ⟨m, hg, hm⟩ := emitName_spec hs hname
    obtain ⟨i, hg', hi⟩ := push_spec htable hg.valid hx
    obtain ⟨is, hg'', his⟩ := ih hg'.valid h2
    exact ⟨.of .const m :: i :: is, hg.trans (hg'.trans hg''),
      .cons (hg''.env.const (hg'.env.const hm)) (hi.mono hg''.env) his⟩

end

/-! ### Results -/

variable {d : Nat}

lemma valid_insert (hs : s.Valid table params) {r : Nat} (hr : s.slots[r]? = none)
    (hsize : s.slots.size < 65536) :
    FuncState.Valid table params { s with slots := s.slots.insert r s.slots.size } := by
  have hnot : ¬r ∈ s.slots := by
    rw [Std.HashMap.mem_iff_isSome_getElem?, hr]
    exact Bool.false_ne_true
  have hsize' : (s.slots.insert r s.slots.size).size = s.slots.size + 1 := by
    rw [Std.HashMap.size_insert, if_neg hnot]
  have hget : ∀ {k n}, (s.slots.insert r s.slots.size)[k]? = some n →
      (k = r ∧ n = s.slots.size) ∨ s.slots[k]? = some n := by
    intro k n hk
    rw [Std.HashMap.getElem?_insert] at hk
    split at hk
    · rename_i heq
      exact .inl ⟨(eq_of_beq heq).symm, (Option.some.inj hk).symm⟩
    · exact .inr hk
  refine ⟨hs.pool, ?_, ?_, ?_, ?_⟩
  · intro k n hk
    rw [hsize']
    rcases hget hk with ⟨-, rfl⟩ | hk
    · omega
    · have := hs.lt hk
      omega
  · intro k k' n hk hk'
    rcases hget hk with ⟨rfl, rfl⟩ | hold
    · rcases hget hk' with ⟨rfl, -⟩ | hold'
      · rfl
      · exact absurd (hs.lt hold') (lt_irrefl _)
    · rcases hget hk' with ⟨rfl, rfl⟩ | hold'
      · exact absurd (hs.lt hold) (lt_irrefl _)
      · exact hs.inj hold hold'
  · intro k hk
    have hold := hs.param hk
    simp only [Std.HashMap.getElem?_insert]
    rw [if_neg (by rintro heq; rw [eq_of_beq heq, hold] at hr; cases hr), hold]
  · rw [hsize']
    omega

lemma slot_of_some (hd : s.slots[d]? = some n) : (slot d).run s = .ok (n, s) := by
  simp only [slot, StateT.run_modifyGet, hd]
  rfl

lemma slot_of_none (hd : s.slots[d]? = none) :
    (slot d).run s = .ok (s.slots.size, { s with slots := s.slots.insert d s.slots.size }) := by
  simp only [slot, StateT.run_modifyGet, hd]
  rfl

lemma store_spec (hs : s.Valid table params) (h : (store span d).run s = .ok ((), s')) :
    ∃ m : UInt16, Grown table params span s s' [.plain (.of .store m)] [] ∧
      s'.env.slot d = some m.toNat := by
  obtain ⟨n, s1, hn, h1⟩ := run_bind_ok h
  cases hd : s.slots[d]? with
  | some k =>
    rw [slot_of_some hd] at hn
    cases hn
    obtain ⟨m, rfl, hg, henv⟩ := emitArg_spec hs h1
    exact ⟨m, hg, by rw [henv]; exact hd⟩
  | none =>
    rw [slot_of_none hd] at hn
    cases hn
    -- The new local variable is in range, as the argument of the instruction is.
    have hsize : s.slots.size < 65536 := by
      by_contra hlarge
      rw [emitArg, if_neg (by unfold Instruction.maxArg; omega)] at h1
      cases h1
    have hvalid := valid_insert hs hd hsize
    obtain ⟨m, hm, hg, henv⟩ := emitArg_spec hvalid h1
    have hext : s.env.Extends (FuncState.env
        { s with slots := s.slots.insert d s.slots.size }) := by
      refine ⟨fun {r n} hr => ?_, id⟩
      have hr' : s.slots[r]? = some n := hr
      simp only [FuncState.env, Std.HashMap.getElem?_insert]
      rw [if_neg (by rintro heq; rw [← eq_of_beq heq, hd] at hr'; cases hr')]
      exact hr'
    refine ⟨m, ⟨hg.valid, hext.trans hg.env, hg.labels, hg.code, hg.pool⟩, ?_⟩
    rw [henv, hm]
    simp [FuncState.env]

lemma emitArg_store_spec (hs : s.Valid table params)
    (h : (do emitArg span op what k; store span d : M Unit).run s = .ok ((), s')) :
    ∃ m n : UInt16, k = m.toNat ∧
      Grown table params span s s' (plain [.of op m, .of .store n]) [] ∧
      s'.env.slot d = some n.toNat := by
  obtain ⟨_, s1, hop, h1⟩ := run_bind_ok h
  obtain ⟨m, hm, hg, henv⟩ := emitArg_spec hs hop
  obtain ⟨n, hg', hn⟩ := store_spec hg.valid h1
  exact ⟨m, n, hm.symm, hg.trans hg', hn⟩

lemma emit_store_spec (hs : s.Valid table params)
    (h : (do emit span op; store span d : M Unit).run s = .ok ((), s')) :
    ∃ n : UInt16, Grown table params span s s' (plain [.of op 0, .of .store n]) [] ∧
      s'.env.slot d = some n.toNat := by
  obtain ⟨_, s1, hop, h1⟩ := run_bind_ok h
  have hg := emit_spec hs hop
  obtain ⟨n, hg', hn⟩ := store_spec hg.valid h1
  exact ⟨n, hg.trans hg', hn⟩

/-! ### Instructions of three-address code -/

variable {l : Bytes} {i : Located Instr} {is : Code} {rest : List (Located Draft)}

lemma instr_spec (htable : ∀ name : Bytes, table[name]? = p.index? name) (hs : s.Valid table params)
    {i : Instr} (hi : i.label? = none) (h : (instr table span i).run s = .ok ((), s')) :
    ∃ ds, Grown table params span s s' ds (Instr.constants p i) ∧ Emits p s'.env i ds := by
  cases i with
  | assign d x =>
    obtain ⟨_, s1, hx, h1⟩ := run_bind_ok h
    obtain ⟨i, hg, hi⟩ := push_spec htable hs hx
    obtain ⟨n, hg', hn⟩ := store_spec hg.valid h1
    exact ⟨_, hg.trans hg', .assign (hi.mono hg'.env) hn⟩
  | binary d op x y =>
    cases op with
    | unknown c => cases h
    | known op =>
      obtain ⟨_, s1, hxy, h1⟩ := run_bind_ok h
      obtain ⟨_, hg, _ | ⟨hx, _ | ⟨hy, _ | _⟩⟩⟩ := pushAll_spec htable hs hxy
      obtain ⟨n, hg', hn⟩ := emit_store_spec hg.valid h1
      exact ⟨_, hg.emit hg', .binary (hx.mono hg'.env) (hy.mono hg'.env) hn⟩
  | unary d op x =>
    cases op with
    | unknown c => cases h
    | known op =>
      obtain ⟨_, s1, hx, h1⟩ := run_bind_ok h
      obtain ⟨i, hg, hi⟩ := push_spec htable hs hx
      obtain ⟨n, hg', hn⟩ := emit_store_spec hg.valid h1
      exact ⟨_, hg.trans hg', .unary (hi.mono hg'.env) hn⟩
  | call d f args =>
    obtain ⟨_, s1, hargs, h1⟩ := run_bind_ok h
    obtain ⟨_, s2, hf, h2⟩ := run_bind_ok h1
    obtain ⟨is, hg, his⟩ := pushAll_spec htable hs hargs
    obtain ⟨i, hg', hi⟩ := push_spec htable hg.valid hf
    obtain ⟨m, n, hm, hg'', hn⟩ := emitArg_store_spec hg'.valid h2
    rw [Instr.constants_call]
    refine ⟨_, hg.trans (hg'.trans hg''), ?_⟩
    simpa using Emits.call (his.mono (hg'.env.trans hg''.env)) (hi.mono hg''.env) hm hn
  | ret value =>
    cases value with
    | none =>
      obtain ⟨_, s1, hnull, h1⟩ := run_bind_ok h
      have hg := emit_spec hs hnull
      exact ⟨_, hg.trans (emit_spec hg.valid h1), .retNull⟩
    | some x =>
      obtain ⟨_, s1, hx, h1⟩ := run_bind_ok h
      obtain ⟨i, hg, hi⟩ := push_spec htable hs hx
      have hg' := emit_spec hg.valid h1
      exact ⟨_, hg.trans hg', .ret (hi.mono hg'.env)⟩
  | jumpUnless x l =>
    obtain ⟨_, s1, hx, h1⟩ := run_bind_ok h
    obtain ⟨i, hg, hi⟩ := push_spec htable hs hx
    have hg' := add_spec hg.valid h1
    exact ⟨_, hg.trans hg', .jumpUnless (hi.mono hg'.env)⟩
  | jump l => exact ⟨_, add_spec hs h, .jump⟩
  | label l => cases hi
  | array d xs =>
    obtain ⟨_, s1, hxs, h1⟩ := run_bind_ok h
    obtain ⟨is, hg, his⟩ := pushAll_spec htable hs hxs
    obtain ⟨m, n, hm, hg', hn⟩ := emitArg_store_spec hg.valid h1
    refine ⟨_, hg.emit hg', ?_⟩
    simpa using Emits.array (his.mono hg'.env) hm hn
  | index d x y =>
    obtain ⟨_, s1, hxy, h1⟩ := run_bind_ok h
    obtain ⟨_, hg, _ | ⟨hx, _ | ⟨hy, _ | _⟩⟩⟩ := pushAll_spec htable hs hxy
    obtain ⟨n, hg', hn⟩ := emit_store_spec hg.valid h1
    exact ⟨_, hg.emit hg', .index (hx.mono hg'.env) (hy.mono hg'.env) hn⟩
  | setIndex x y z =>
    obtain ⟨_, s1, hxyz, h1⟩ := run_bind_ok h
    obtain ⟨_, hg, _ | ⟨hx, _ | ⟨hy, _ | ⟨hz, _ | _⟩⟩⟩⟩ := pushAll_spec htable hs hxyz
    have hg' := emit_spec hg.valid h1
    exact ⟨_, hg.emit hg', .setIndex (hx.mono hg'.env) (hy.mono hg'.env) (hz.mono hg'.env)⟩
  | field d x name =>
    obtain ⟨_, s1, hx, h1⟩ := run_bind_ok h
    obtain ⟨i, hg, hi⟩ := push_spec htable hs hx
    rw [← bind_assoc] at h1
    obtain ⟨_, s2, hname, h2⟩ := run_bind_ok h1
    obtain ⟨m, hg', hm⟩ := emitName_spec hg.valid hname
    obtain ⟨n, hg'', hn⟩ := store_spec hg'.valid h2
    exact ⟨_, hg.trans (hg'.trans hg''),
      .field (hi.mono (hg'.env.trans hg''.env)) (hg''.env.const hm) hn⟩
  | setField x name y =>
    obtain ⟨_, s1, hxy, h1⟩ := run_bind_ok h
    obtain ⟨_, hg, _ | ⟨hx, _ | ⟨hy, _ | _⟩⟩⟩ := pushAll_spec htable hs hxy
    obtain ⟨m, hg', hm⟩ := emitName_spec hg.valid h1
    refine ⟨_, ?_, .setField (hx.mono hg'.env) (hy.mono hg'.env) hm⟩
    simpa [Instr.constants] using hg.trans hg'
  | record d type names xs =>
    by_cases hlen : names.length = xs.length
    · rw [instr, if_neg (not_not.mpr hlen)] at h
      obtain ⟨_, s1, htype, h1⟩ := run_bind_ok h
      obtain ⟨_, s2, hfields, h2⟩ := run_bind_ok h1
      obtain ⟨k, hg, hk⟩ := emitName_spec hs htype
      obtain ⟨is, hg', his⟩ := pushFields_spec htable hg.valid hfields
      obtain ⟨m, n, hm, hg'', hn⟩ := emitArg_store_spec hg'.valid h2
      refine ⟨_, hg.trans (hg'.emit hg''), ?_⟩
      simpa using Emits.record hlen hm ((hg'.env.trans hg''.env).const hk) (his.mono hg''.env) hn
    · rw [instr, if_pos hlen] at h
      cases h
  | print x =>
    obtain ⟨_, s1, hx, h1⟩ := run_bind_ok h
    obtain ⟨i, hg, hi⟩ := push_spec htable hs hx
    have hg' := emit_spec hg.valid h1
    exact ⟨_, hg.trans hg', .print (hi.mono hg'.env)⟩

lemma label_spec (h : (instr table span (.label l)).run s = .ok ((), s')) :
    s.labels[l]? = none ∧ s' = { s with labels := s.labels.insert l s.code.size } := by
  obtain ⟨_, _, hget, h1⟩ := run_bind_ok h
  cases hget
  cases hl : s.labels.contains l with
  | true => simp only [hl] at h1; cases h1
  | false =>
    simp only [hl] at h1
    cases h1
    exact ⟨Std.HashMap.getElem?_eq_none_of_contains_eq_false hl, rfl⟩

/-- From one state of the generator to a later one, with the code of instructions between. -/
structure Written (p : Tac.Program) (table : FuncTable) (params : Nat) (s s' : FuncState)
    (is : Code) (ds : List (Located Draft)) : Prop where
  valid : s'.Valid table params
  env : s.env.Extends s'.env
  labels : ∀ {l : Bytes} {t : Nat}, s.labels[l]? = some t → s'.labels[l]? = some t
  /-- Every new label is one of the instructions. -/
  known : ∀ {l : Bytes} {t : Nat}, s'.labels[l]? = some t →
    s.labels[l]? = some t ∨ ∃ i ∈ is, i.val.label? = some l
  code : s'.code = s.code ++ ds.toArray
  laid : Laid p s'.env (fun l => s'.labels[l]?) s.code.size is ds
  pool : s'.pool = s.pool.putAll (is.flatMap fun i => Instr.constants p i.val)

lemma Written.nil (hs : s.Valid table params) : Written p table params s s [] [] :=
  ⟨hs, .refl _, id, .inl, by simp, .nil, rfl⟩

lemma Written.cons (hi : i.val.label? = none)
    (hg : Grown table params i.span s s' ds (Instr.constants p i.val))
    (he : Emits p s'.env i.val ds) (h : Written p table params s' s'' is rest) :
    Written p table params s s'' (i :: is) (ds.map (⟨i.span, ·⟩) ++ rest) where
  valid := h.valid
  env := hg.env.trans h.env
  labels hl := h.labels (by rw [hg.labels]; exact hl)
  known hl := by
    rcases h.known hl with hl | ⟨j, hj, hlabel⟩
    · rw [hg.labels] at hl
      exact .inl hl
    · exact .inr ⟨j, mem_cons_of_mem _ hj, hlabel⟩
  code := by rw [h.code, hg.code]; simp
  laid := by
    have hsize : s'.code.size = s.code.size + ds.length := by rw [hg.code]; simp
    refine .cons (he.mono h.env) (fun l hl => ?_) (by rw [← hsize]; exact h.laid)
    rw [hi] at hl
    cases hl
  pool := by rw [h.pool, hg.pool, flatMap_cons, Pool.putAll_append]

lemma Written.cons_label (hi : i.val = .label l) (hl : s.labels[l]? = none)
    (h : Written p table params { s with labels := s.labels.insert l s.code.size } s'' is rest) :
    Written p table params s s'' (i :: is) rest where
  valid := h.valid
  env := h.env
  labels {l' t} hl' := h.labels (by
    have hne : ¬(l == l') = true := by
      intro heq
      rw [← eq_of_beq heq, hl] at hl'
      cases hl'
    rw [Std.HashMap.getElem?_insert, if_neg hne]
    exact hl')
  known {l' t} hl' := by
    rcases h.known hl' with hold | ⟨j, hj, hlabel⟩
    · rw [Std.HashMap.getElem?_insert] at hold
      split at hold
      · rename_i heq
        exact .inr ⟨i, mem_cons_self, by rw [hi, ← eq_of_beq heq]; rfl⟩
      · exact .inl hold
    · exact .inr ⟨j, mem_cons_of_mem _ hj, hlabel⟩
  code := h.code
  laid := by
    have hemits : Emits p s''.env i.val [] := by rw [hi]; exact .label
    refine .cons hemits (fun l' hl' => ?_) h.laid
    rw [hi] at hl'
    obtain rfl := Option.some.inj hl'
    exact h.labels (by simp)
  pool := by rw [h.pool, flatMap_cons, hi]; rfl

lemma instrs_spec (htable : ∀ name : Bytes, table[name]? = p.index? name) :
    ∀ {s}, s.Valid table params → (instrs table is).run s = .ok ((), s') →
    ∃ ds, Written p table params s s' is ds := by
  induction is with
  | nil =>
    intro s hs h
    cases h
    exact ⟨[], .nil hs⟩
  | cons i is ih =>
    intro s hs h
    obtain ⟨_, s1, hi, h1⟩ := run_bind_ok h
    cases hlabel : i.val.label? with
    | none =>
      obtain ⟨ds, hg, he⟩ := instr_spec htable hs hlabel hi
      obtain ⟨rest, hrest⟩ := ih hg.valid h1
      exact ⟨_, .cons hlabel hg he hrest⟩
    | some l =>
      have hval : i.val = .label l := by
        cases hv : i.val <;> simp_all [Instr.label?]
      rw [hval] at hi
      obtain ⟨hnone, rfl⟩ := label_spec hi
      have hs' : FuncState.Valid table params
          { s with labels := s.labels.insert l s.code.size } :=
        ⟨hs.pool, hs.lt, hs.inj, hs.param, hs.size_le⟩
      obtain ⟨rest, hrest⟩ := ih hs' h1
      exact ⟨_, .cons_label hval hnone hrest⟩

/-! ### Functions -/

lemma paramSlots_succ (n : Nat) : paramSlots (n + 1) = (paramSlots n).insert n n := by
  simp [paramSlots, range_succ]

lemma getElem?_paramSlots (n r : Nat) : (paramSlots n)[r]? = if r < n then some r else none := by
  induction n with
  | zero => simp [paramSlots]
  | succ n ih =>
    rw [paramSlots_succ, Std.HashMap.getElem?_insert, ih]
    split
    · rename_i heq
      obtain rfl := eq_of_beq heq
      rw [if_pos (by omega)]
    · rename_i hne
      have : n ≠ r := fun heq => hne (by simp [heq])
      by_cases hr : r < n
      · rw [if_pos hr, if_pos (by omega)]
      · rw [if_neg hr, if_neg (by omega)]

lemma size_paramSlots (n : Nat) : (paramSlots n).size = n := by
  induction n with
  | zero => rfl
  | succ n ih =>
    have hnot : ¬n ∈ paramSlots n := by
      rw [Std.HashMap.mem_iff_isSome_getElem?, getElem?_paramSlots, if_neg (by omega)]
      exact Bool.false_ne_true
    rw [paramSlots_succ, Std.HashMap.size_insert, if_neg hnot, ih]

lemma valid_start (hpool : pool.Valid table) (params : Nat) :
    FuncState.Valid table params ⟨#[], paramSlots params, ∅, pool⟩ := by
  refine ⟨hpool, ?_, ?_, ?_, ?_⟩
  · intro r n hr
    rw [getElem?_paramSlots] at hr
    rw [size_paramSlots]
    split at hr
    · obtain rfl := Option.some.inj hr
      assumption
    · cases hr
  · intro r r' n hr hr'
    rw [getElem?_paramSlots] at hr hr'
    split at hr
    · split at hr'
      · rw [Option.some.inj hr, Option.some.inj hr']
      · cases hr'
    · cases hr
  · intro r hr
    rw [getElem?_paramSlots, if_pos hr]
  · rw [size_paramSlots]
    exact le_max_left _ _

end Generate

/-- The instruction that a draft becomes. -/
inductive Resolves (label : Bytes → Option Nat) : Draft → Instruction → Prop
  | plain {i} : Resolves label (.plain i) i
  | jump {op l n} : label l = some n.toNat → Resolves label (.jump op l) (.of op n)

lemma Generate.resolve_spec {labels : Std.HashMap Bytes Nat} {last : Span}
    {undefined : List Bytes} {done code : Array (Located Instruction)} {ds : List (Located Draft)}
    (h : resolve labels last undefined done ds = .ok code) :
    undefined = [] ∧ ∃ is : List (Located Instruction), code = done ++ is.toArray ∧
      Forall₂ (fun d i => i.span = d.span ∧ Resolves (fun l => labels[l]?) d.val i.val) ds is := by
  induction ds generalizing last undefined done with
  | nil =>
    rw [resolve] at h
    split at h
    · rename_i hempty
      cases h
      exact ⟨isEmpty_iff.mp hempty, [], by simp, .nil⟩
    · cases h
  | cons d ds ih =>
    obtain ⟨span, d⟩ := d
    cases d with
    | plain i =>
      obtain ⟨hempty, is, hcode, his⟩ := ih h
      exact ⟨hempty, ⟨span, i⟩ :: is, by rw [hcode]; simp, .cons ⟨rfl, .plain⟩ his⟩
    | jump op l =>
      rw [resolve] at h
      split at h
      · obtain ⟨hempty, -⟩ := ih h
        cases hempty
      · rename_i t ht
        split at h
        · rename_i hle
          obtain ⟨hempty, is, hcode, his⟩ := ih h
          exact ⟨hempty, ⟨span, .of op t.toUInt16⟩ :: is, by rw [hcode]; simp,
            .cons ⟨rfl, .jump (by rw [toNat_toUInt16 hle]; exact ht)⟩ his⟩
        · cases h

/-- The code of a function, with what its places stand for. -/
structure FuncCode (p : Tac.Program) (consts : Array Value) (f : Tac.Func) (g : Func) where
  env : Env
  /-- The places of the labels. -/
  label : Bytes → Option Nat
  /-- The code with labels as the targets of jumps. -/
  drafts : List (Located Draft)
  name_eq : g.name = f.name
  numParams_eq : g.numParams = f.params.length
  numParams_le : g.numParams ≤ g.numLocals
  numLocals_le : g.numLocals ≤ max (f.params.length : Int) 65536
  const_eq : ∀ {k v}, env.const k = some v → consts[k]? = some v
  slot_lt : ∀ {r n}, env.slot r = some n → (n : Int) < g.numLocals
  slot_inj : ∀ {r r' n}, env.slot r = some n → env.slot r' = some n → r = r'
  slot_param : ∀ {r}, r < f.params.length → env.slot r = some r
  laid : Laid p env label 0 f.body drafts
  label_known : ∀ {l t}, label l = some t → ∃ i ∈ f.body, i.val.label? = some l
  size_eq : g.code.size = drafts.length
  spans_size_eq : g.spans.size = drafts.length
  resolves : ∀ {ip d}, drafts[ip]? = some d →
    ∃ i, g.code[ip]? = some i ∧ g.span ip = d.span ∧ Resolves label d.val i

/-- Code is good for every larger pool. -/
def FuncCode.extend {p : Tac.Program} {pool pool' : Pool} {f : Tac.Func} {g : Func}
    (c : FuncCode p pool.values f g) (h : pool.Extends pool') : FuncCode p pool'.values f g :=
  { c with const_eq := fun hc => h _ _ (c.const_eq hc) }

lemma Generate.func_cases (h : func table f pool = .ok (g, pool')) :
    ∃ s last code,
      (instrs table f.body).run ⟨#[], paramSlots f.params.length, ∅, pool⟩ = .ok ((), s) ∧
      resolve s.labels last [] #[] s.code.toList = .ok code ∧ pool' = s.pool ∧
      g = ⟨f.name, f.params.length, s.slots.size, code.map (·.val), code.map (·.span)⟩ := by
  unfold func at h
  simp only [bind, Except.bind] at h
  cases hrun : (instrs table f.body).run ⟨#[], paramSlots f.params.length, ∅, pool⟩ with
  | error e => rw [hrun] at h; cases h
  | ok r =>
    obtain ⟨⟨⟩, s⟩ := r
    rw [hrun] at h
    simp only [] at h
    generalize (f.body.getLast?.map (·.span)).getD .none = last at h
    cases hcode : resolve s.labels last [] #[] s.code.toList with
    | error e => rw [hcode] at h; cases h
    | ok code =>
      rw [hcode] at h
      simp only [] at h
      split at h
      · cases h
      cases h
      exact ⟨s, last, code, rfl, hcode, rfl, rfl⟩

lemma Generate.func_spec (htable : ∀ name : Bytes, table[name]? = p.index? name)
    (hpool : pool.Valid table) (h : func table f pool = .ok (g, pool')) :
    pool'.Valid table ∧ pool.Extends pool' ∧ pool' = pool.putAll (Func.constants p f) ∧
      Nonempty (FuncCode p pool'.values f g) := by
  obtain ⟨s, last, code, hrun, hresolve, rfl, rfl⟩ := func_cases h
  obtain ⟨ds, hw⟩ := instrs_spec htable (valid_start hpool f.params.length) hrun
  obtain ⟨-, is, hcode, his⟩ := resolve_spec hresolve
  have hds : s.code.toList = ds := by rw [hw.code]; simp
  have his' : code.toList = is := by rw [hcode]; simp
  rw [hds] at his
  refine ⟨hw.valid.pool, fun k v hk => hw.env.const hk, hw.pool, ⟨{
    env := s.env
    label := fun l => s.labels[l]?
    drafts := ds
    name_eq := rfl
    numParams_eq := rfl
    numParams_le := ?_
    numLocals_le := ?_
    const_eq := id
    slot_lt := fun hr => Int.ofNat_lt.mpr (hw.valid.lt hr)
    slot_inj := hw.valid.inj
    slot_param := hw.valid.param
    laid := hw.laid
    label_known := fun hl => ?_
    size_eq := ?_
    spans_size_eq := ?_
    resolves := fun hd => ?_ }⟩⟩
  · -- The last parameter has a local variable.
    cases hparams : f.params.length with
    | zero => simp
    | succ n =>
      have := hw.valid.lt (hw.valid.param (r := n) (by omega))
      simp only []
      omega
  · have := hw.valid.size_le
    simp only []
    omega
  · rcases hw.known hl with hold | hi
    · simp at hold
    · exact hi
  · rw [Array.size_map, his.length_eq, ← his', Array.length_toList]
  · rw [Array.size_map, his.length_eq, ← his', Array.length_toList]
  · rename_i ip d
    obtain ⟨hlt, hd'⟩ := List.getElem?_eq_some_iff.mp hd
    have hlt' : ip < is.length := his.length_eq ▸ hlt
    obtain ⟨hspan, hres⟩ := his.get hlt hlt'
    have hget : code[ip]? = some is[ip] := by
      rw [← Array.getElem?_toList, his', getElem?_eq_getElem hlt']
    refine ⟨is[ip].val, by rw [Array.getElem?_map, hget]; rfl, ?_, ?_⟩
    · rw [Func.span, Array.getElem?_map, hget, ← hd']
      exact hspan
    · rw [← hd']
      exact hres

/-! ### Programs -/

variable {fs : List Tac.Func} {table' : FuncTable} {b : Program}

lemma Generate.allFuncs_spec (htable : ∀ name : Bytes, table[name]? = p.index? name)
    {done gs : Array Func} (hpool : pool.Valid table)
    (h : allFuncs table pool done fs = .ok (gs, pool')) :
    pool'.Valid table ∧ pool.Extends pool' ∧ pool' = pool.putAll (fs.flatMap (Func.constants p)) ∧
      ∃ new : List Func, gs = done ++ new.toArray ∧
        Forall₂ (fun f g => Nonempty (FuncCode p pool'.values f g)) fs new := by
  induction fs generalizing pool done with
  | nil =>
    cases h
    exact ⟨hpool, fun _ _ hv => hv, rfl, [], by simp, .nil⟩
  | cons f fs ih =>
    rw [allFuncs] at h
    cases hf : func table f pool with
    | error e => rw [hf] at h; cases h
    | ok r =>
      obtain ⟨g, pool1⟩ := r
      rw [hf] at h
      obtain ⟨hpool1, hext, hput, ⟨c⟩⟩ := func_spec htable hpool hf
      obtain ⟨hpool', hext', hput', new, hgs, hnew⟩ := ih hpool1 h
      refine ⟨hpool', hext.trans hext', ?_, g :: new, by rw [hgs]; simp,
        .cons ⟨c.extend hext'⟩ hnew⟩
      rw [hput', hput, flatMap_cons, Pool.putAll_append]

lemma Generate.number_spec (h : number table (fs.zipIdx k) = .ok table') (name : Bytes) :
    table'[name]? =
      (table[name]?).or ((fs.findIdx? fun f => f.name = name).map (· + k)) := by
  induction fs generalizing k table with
  | nil =>
    cases h
    simp
  | cons f fs ih =>
    rw [zipIdx_cons, number] at h
    split at h
    · cases h
    rename_i hnew
    have hnone : table[f.name]? = none :=
      Std.HashMap.getElem?_eq_none_of_contains_eq_false (by simpa using hnew)
    rw [ih h, Std.HashMap.getElem?_insert, findIdx?_cons]
    by_cases hname : f.name = name
    · subst hname
      simp [hnone]
    · have hshift : (fun i => i + (k + 1)) = (fun i => i + k) ∘ (fun i : Nat => i + 1) := by
        funext i
        simp only [Function.comp]
        omega
      simp [hname, hshift]

lemma Generate.exists_number_iff : (∃ table', number table (fs.zipIdx k) = .ok table') ↔
    (fs.map Tac.Func.name).Nodup ∧ ∀ f ∈ fs, f.name ∉ table := by
  induction fs generalizing k table with
  | nil => simp [number]
  | cons f fs ih =>
    rw [zipIdx_cons, number, map_cons, nodup_cons, forall_mem_cons]
    by_cases hnew : f.name ∈ table
    · simp [hnew]
    · simp only [Std.HashMap.contains_iff_mem, if_neg hnew, ih, Std.HashMap.mem_insert, beq_iff_eq]
      grind

lemma generate_cases (h : generate p = .ok b) : ∃ table k gs pool,
    Generate.number ∅ p.funcs.zipIdx = .ok table ∧ (∀ name : Bytes, table[name]? = p.index? name) ∧
      p.index? "main" = some k ∧ Generate.allFuncs table .empty #[] p.funcs = .ok (gs, pool) ∧
      b = ⟨pool.values, .empty, gs, k⟩ := by
  unfold generate at h
  simp only [bind, Except.bind] at h
  cases htable : Generate.number ∅ p.funcs.zipIdx with
  | error e => rw [htable] at h; cases h
  | ok table =>
    rw [htable] at h
    simp only [] at h
    have hindex (name : Bytes) : table[name]? = p.index? name := by
      rw [Generate.number_spec htable name]
      simp [Tac.Program.index?]
    cases hentry : table[Bytes.ofString "main"]? with
    | none => rw [hentry] at h; cases h
    | some k =>
      rw [hentry] at h
      cases hfuncs : Generate.allFuncs table .empty #[] p.funcs with
      | error e => rw [hfuncs] at h; cases h
      | ok r =>
        rw [hfuncs] at h
        cases h
        exact ⟨table, k, r.1, r.2, rfl, hindex, by rw [← hindex]; exact hentry, hfuncs, rfl⟩

/-- The code of a program. -/
structure ProgramCode (p : Tac.Program) (b : Program) : Prop where
  names : (p.funcs.map Tac.Func.name).Nodup
  heap_eq : b.heap = .empty
  constant : ∀ {name : Bytes} {index : Int}, .func name index ∈ b.consts →
    ∃ k : Nat, p.index? name = some k ∧ index = k
  size_eq : b.funcs.size = p.funcs.length
  func : ∀ {k : Nat} {f : Tac.Func}, p.funcs[k]? = some f →
    ∃ g, b.funcs[k]? = some g ∧ Nonempty (FuncCode p b.consts f g)
  entry : ∃ k : Nat, b.entry = k ∧ p.index? "main" = some k

/-- **The generator makes the code of a program.** -/
theorem programCode_of_generate (h : generate p = .ok b) : ProgramCode p b := by
  obtain ⟨table, k, gs, pool, htable, hindex, hentry, hfuncs, rfl⟩ := generate_cases h
  obtain ⟨hpool, -, -, new, hgs, hnew⟩ :=
    Generate.allFuncs_spec hindex (Pool.valid_empty table) hfuncs
  have hlist : gs = new.toArray := by rw [hgs]; simp
  refine ⟨(Generate.exists_number_iff.mp ⟨_, htable⟩).1, rfl, fun {name index} hmem => ?_, ?_,
    fun {k f} hf => ?_, k, rfl, hentry⟩
  · obtain ⟨i, hi, hget⟩ := Array.mem_iff_getElem.mp hmem
    obtain ⟨n, hn, rfl⟩ := hpool.constant (getElem?_eq_some_iff.mpr ⟨hi, hget⟩)
    exact ⟨n, by rw [← hindex]; exact hn, rfl⟩
  · rw [hlist, size_toArray, hnew.length_eq]
  · obtain ⟨hlt, rfl⟩ := List.getElem?_eq_some_iff.mp hf
    have hlt' : k < new.length := hnew.length_eq ▸ hlt
    refine ⟨new[k], ?_, hnew.get hlt hlt'⟩
    rw [hlist, getElem?_toArray, getElem?_eq_getElem hlt']

end Minilang.Bytecode
