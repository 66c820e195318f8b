import Minilang.Proofs.Bytecode.Refinement

/-!
# The pool of constants

The pool of a program has the constants that its instructions push or name, each once, in the order
in which they come first.  Two constants are the same if they have the same kind and the same text.
-/

namespace Minilang.Bytecode

open List

open Tac (Operand Instr Code)
open Generate (FuncTable)

variable {p : Tac.Program} {table : FuncTable}

/-! ### What instructions refer to -/

/-- The number of the constant that an instruction refers to. -/
def constant? (i : Instruction) : Option Nat :=
  if i.opcode?.any Opcode.argIsConst then some i.arg.toNat else none

@[simp] lemma constant?_of (op : Opcode) (n : UInt16) :
    constant? (.of op n) = if op.argIsConst then some n.toNat else none := by
  rw [constant?, Instruction.opcode?_of]
  rfl

variable {e : Env} {label : Bytes → Option Nat} {is js : List Instruction} {vs : List Value}
  {op : Opcode}

/-- Instructions refer to these constants, in order. -/
def Refers (const : Nat → Option Value) (is : List Instruction) (vs : List Value) : Prop :=
  Forall₂ (fun k v => ∃ w, const k = some w ∧ w.canon = v.canon) (is.filterMap constant?) vs

lemma Refers.append {ws : List Value} (h : Refers e.const is vs) (h' : Refers e.const js ws) :
    Refers e.const (is ++ js) (vs ++ ws) := by
  unfold Refers
  rw [filterMap_append]
  exact rel_append h h'

lemma Refers.skip (hop : op.argIsConst = false) (n : UInt16)
    (h : Refers e.const is vs) : Refers e.const (.of op n :: is) vs := by
  simpa [Refers, hop] using h

lemma Refers.cons {n : UInt16} {v w : Value} (hop : op.argIsConst = true)
    (hn : e.const n.toNat = some w) (hw : w.canon = v.canon) (h : Refers e.const is vs) :
    Refers e.const (.of op n :: is) (v :: vs) := by
  simpa [Refers, hop] using ⟨⟨w, hn, hw⟩, h⟩

lemma Pushes.refers {x : Operand} {i : Instruction} (hx : Pushes p e x i)
    (h : Refers e.const is vs) : Refers e.const (i :: is) (Operand.constants p x ++ vs) := by
  cases hx with
  | reg hr => exact h.skip rfl _
  | lit hn hw => exact h.cons rfl hn hw

lemma PushesAll.refers {xs : List Operand} (hxs : PushesAll p e xs js) (h : Refers e.const is vs) :
    Refers e.const (js ++ is) (xs.flatMap (Operand.constants p) ++ vs) := by
  induction hxs with
  | nil => exact h
  | cons hx _ ih =>
    rw [flatMap_cons, append_assoc]
    exact hx.refers ih

lemma PushesFields.refers {fs : List (Bytes × Operand)} (hfs : PushesFields p e fs js)
    (h : Refers e.const is vs) : Refers e.const (js ++ is)
      (fs.flatMap (fun f => .string f.1 :: Operand.constants p f.2) ++ vs) := by
  induction hfs with
  | nil => exact h
  | cons hn hx _ ih =>
    rw [flatMap_cons, append_assoc]
    exact .cons rfl hn rfl (hx.refers ih)

lemma eq_of_resolves_plain (h : Forall₂ (Resolves label) (plain js) is) : is = js := by
  induction js generalizing is with
  | nil => cases h; rfl
  | cons j js ih =>
    obtain _ | ⟨⟨⟩, hrest⟩ := h
    rw [ih hrest]

lemma Emits.refers {i : Instr} {ds : List Draft} (h : Emits p e i ds)
    (hds : Forall₂ (Resolves label) ds is) : Refers e.const is (Instr.constants p i) := by
  have hnil : Refers e.const [] [] := .nil
  have hstore {n : UInt16} : Refers e.const [.of .store n] [] := hnil.skip rfl n
  cases h
  case jump =>
    obtain _ | ⟨⟨⟩, ⟨⟩⟩ := hds
    exact hnil.skip rfl _
  case jumpUnless hx =>
    obtain _ | ⟨⟨⟩, _ | ⟨⟨⟩, ⟨⟩⟩⟩ := hds
    exact hx.refers (hnil.skip rfl _)
  case label =>
    cases hds
    exact hnil
  all_goals obtain rfl := eq_of_resolves_plain hds
  case assign hx hd => exact hx.refers hstore
  case binary hx hy hd => exact hx.refers (hy.refers (hstore.skip rfl _))
  case unary hx hd => exact hx.refers (hstore.skip rfl _)
  case call hargs hf hm hd =>
    rw [Instr.constants_call]
    exact hargs.refers (hf.refers (hstore.skip rfl _))
  case retNull => exact (hnil.skip rfl _).skip rfl _
  case ret hx => exact hx.refers (hnil.skip rfl _)
  case array hxs hm hd => simpa [Instr.constants, Instr.uses] using hxs.refers (hstore.skip rfl _)
  case index hx hy hd => exact hx.refers (hy.refers (hstore.skip rfl _))
  case setIndex hx hy hz => exact hx.refers (hy.refers (hz.refers (hnil.skip rfl _)))
  case field hx hm hd => exact hx.refers (.cons rfl hm rfl hstore)
  case setField hx hy hm => exact hx.refers (hy.refers (.cons rfl hm rfl hnil))
  case record hlen hm hk hfs hd =>
    simpa [Instr.constants] using Refers.cons rfl hk rfl (hfs.refers (hstore.skip rfl _))
  case print hx => exact hx.refers (hnil.skip rfl _)

lemma Laid.refers {l : Bytes → Option Nat} {ip : Nat} {body : Code} {ds : List (Located Draft)}
    (h : Laid p e l ip body ds) (hds : Forall₂ (fun d i => Resolves label d.val i) ds is) :
    Refers e.const is (body.flatMap fun i => Instr.constants p i.val) := by
  induction h generalizing is with
  | nil =>
    cases hds
    exact .nil
  | cons hi _ _ ih =>
    have hfront := (forall₂_take_append _ _ _ hds.flip).flip
    have hback := (forall₂_drop_append _ _ _ hds.flip).flip
    rw [forall₂_map_left_iff] at hfront
    rw [← take_append_drop _ is]
    exact (hi.refers hfront).append (ih hback)

lemma FuncCode.refers {consts : Array Value} {f : Tac.Func} {g : Func}
    (c : FuncCode p consts f g) : Refers (consts[·]?) g.code.toList (Func.constants p f) := by
  have hresolves : Forall₂ (fun d i => Resolves c.label d.val i) c.drafts g.code.toList := by
    rw [forall₂_iff_get]
    refine ⟨by simp [c.size_eq], fun k hk hk' => ?_⟩
    obtain ⟨i, hi, -, hres⟩ := c.resolves (getElem?_eq_getElem hk)
    obtain ⟨_, rfl⟩ := getElem?_eq_some_iff.mp hi
    exact hres
  refine (c.laid.refers hresolves).imp fun k v => ?_
  rintro ⟨w, hk, hw⟩
  exact ⟨w, c.const_eq hk, hw⟩

/-! ### Programs -/

variable {b : Program}

lemma Pool.keys_eq {pool : Pool} (h : OrderedMap.Valid pool) (hpool : pool.Valid table) :
    pool.keys.toList = pool.values.toList.map keyOf := by
  refine ext_getElem? fun i => ?_
  rw [getElem?_map, Array.getElem?_toList, Array.getElem?_toList]
  cases hi : pool.keys[i]? with
  | none =>
    have hsize : pool.values[i]? = none := by
      rw [Array.getElem?_eq_none_iff] at hi ⊢
      rwa [← h.size_eq]
    rw [hsize]
    rfl
  | some k =>
    obtain ⟨v, hv, hkind, htext⟩ := hpool.place (h.place.mpr hi)
    rw [hv, Option.map_some, keyOf, hkind, htext]

lemma exists_of_forall₂ {α β : Type} {R : α → β → Prop} {xs : List α} {ys : List β} {x : α}
    (h : Forall₂ R xs ys) (hx : x ∈ xs) : ∃ y ∈ ys, R x y := by
  induction h with
  | nil => cases hx
  | cons hxy _ ih =>
    rcases mem_cons.mp hx with rfl | hx
    · exact ⟨_, mem_cons_self, hxy⟩
    · obtain ⟨y, hy, hxy⟩ := ih hx
      exact ⟨y, mem_cons_of_mem _ hy, hxy⟩

/-- **The pool of a program is exact.**  Its entries are the constants that the instructions of all
functions push or name, one for each kind and text, in the order in which they come first; the
instructions of a function refer to entries equal to the constants that they push or name, up to the
payload of a NaN; and there is no entry to which no instruction refers. -/
theorem generate_pool (h : generate p = .ok b) :
    b.consts.toList.map keyOf = ((p.funcs.flatMap (Func.constants p)).map keyOf).eraseDups ∧
      (b.consts.toList.map keyOf).Nodup ∧
      Forall₂ (fun f g => Refers (b.consts[·]?) g.code.toList (Func.constants p f)) p.funcs
        b.funcs.toList ∧
      ∀ k < b.consts.size, ∃ g ∈ b.funcs, k ∈ g.code.toList.filterMap constant? := by
  obtain ⟨table, k, gs, pool, -, hindex, -, hfuncs, rfl⟩ := generate_cases h
  obtain ⟨hpool, -, hput, new, hgs, hnew⟩ :=
    Generate.allFuncs_spec hindex (Pool.valid_empty table) hfuncs
  obtain ⟨hvalid, hkeys⟩ := OrderedMap.keys_internAll
    ((p.funcs.flatMap (Func.constants p)).map fun v => (keyOf v, v))
  have hkeysOf : pool.keys.toList = pool.values.toList.map keyOf := by
    refine Pool.keys_eq ?_ hpool
    rw [hput]
    exact hvalid
  have hpoolKeys : pool.values.toList.map keyOf =
      ((p.funcs.flatMap (Func.constants p)).map keyOf).eraseDups := by
    rw [← hkeysOf, hput, Pool.putAll, hkeys, map_map]
    rfl
  have hnodup : (pool.values.toList.map keyOf).Nodup := by
    rw [← hkeysOf, hput]
    exact hvalid.nodup
  have hrefers : Forall₂ (fun f g => Refers (pool.values[·]?) g.code.toList (Func.constants p f))
      p.funcs gs.toList := by
    have hlist : gs.toList = new := by rw [hgs]; simp
    rw [hlist]
    exact hnew.imp fun f g hg => hg.elim FuncCode.refers
  refine ⟨hpoolKeys, hnodup, hrefers, fun k hk => ?_⟩
  -- The entry is one of the constants, and the instruction for that constant refers to it.
  have hmem : keyOf pool.values[k] ∈ (p.funcs.flatMap (Func.constants p)).map keyOf := by
    rw [← mem_eraseDups, ← hpoolKeys]
    exact mem_map_of_mem (by simp)
  obtain ⟨v, hv, hkey⟩ := mem_map.mp hmem
  obtain ⟨f, hf, hv⟩ := mem_flatMap.mp hv
  obtain ⟨g, hg, hfg⟩ := exists_of_forall₂ hrefers hf
  obtain ⟨j, hj, w, hw, hcanon⟩ := exists_of_forall₂ hfg.flip hv
  refine ⟨g, Array.mem_toList_iff.mp hg, ?_⟩
  obtain ⟨hlt, rfl⟩ := Array.getElem?_eq_some_iff.mp hw
  have hsame : keyOf pool.values[j] = keyOf pool.values[k] := by
    rw [← hkey, keyOf, Value.kind_eq_of_canon hcanon, Heap.text_eq_of_canon rfl hcanon]
  have hjk : j = k := (List.getElem?_inj (by simpa using hlt) hnodup).mp (by simp [hlt, hk, hsame])
  exact hjk ▸ hj

theorem generate_pool_chatter : ∃ b, generate chatter = .ok b ∧ b.consts.toList.map keyOf =
    ((chatter.funcs.flatMap (Func.constants chatter)).map keyOf).eraseDups ∧
      (b.consts.toList.map keyOf).Nodup ∧
      Forall₂ (fun f g => Refers (b.consts[·]?) g.code.toList (Func.constants chatter f))
        chatter.funcs b.funcs.toList ∧
      ∀ k < b.consts.size, ∃ g ∈ b.funcs, k ∈ g.code.toList.filterMap constant? := by
  obtain ⟨b, hb⟩ := generate_chatter
  exact ⟨b, hb, generate_pool hb⟩

end Minilang.Bytecode
