import Minilang.Bytecode.Generate
import Minilang.Proofs.Collection.OrderedMap
import Minilang.Proofs.Double.Printing
import Minilang.Proofs.Value.Payload
import Mathlib.Logic.Basic

/-!
# The constants of a program

A constant is looked up by its kind and its text.  The text of a constant determines it, up to the
payload of a NaN: integers, booleans and strings are their texts, different numbers print
differently, and a function is given by its name.  So the constant that is found for a value is as
good as the value itself.
-/

namespace Minilang.Bytecode

open Generate (FuncTable)

variable {table : FuncTable} {v : Value}

/-- A value that a program may have as a constant.  A function has the number of its name. -/
def IsConstant (table : FuncTable) : Value → Prop
  | .int _ | .float _ | .bool _ | .string _ => True
  | .func name index => ∃ n : Nat, table[name]? = some n ∧ index = n
  | .null | .array _ | .record _ => False

/-- **Constants of the same kind with the same text are equal, up to the payload of a NaN.** -/
theorem canon_eq_of_constants {w : Value} (hv : IsConstant table v) (hw : IsConstant table w)
    (hkind : v.kind = w.kind) (htext : Heap.empty.text v = Heap.empty.text w) :
    v.canon = w.canon := by
  cases v with
  | null | array _ | record _ => exact hv.elim
  | int a =>
    cases w with
    | int b =>
      have hab : a.toInt = b.toInt := Decimal.ofInt_injective htext
      rw [Int64.toInt_inj.mp hab]
    | _ => cases hkind
  | float a =>
    cases w with
    | float b =>
      have hab : a.canon = b.canon := Double.canon_eq_of_text htext
      simp [Value.canon, hab]
    | _ => cases hkind
  | bool a =>
    cases w with
    | bool b => cases a <;> cases b <;> first | rfl | exact absurd htext (by decide)
    | _ => cases hkind
  | string a =>
    cases w with
    | string b =>
      have hab : a = b := htext
      rw [hab]
    | _ => cases hkind
  | func name index =>
    cases w with
    | func name' index' =>
      have hname : name = name' := List.append_cancel_right (List.append_cancel_left htext)
      subst hname
      obtain ⟨n, hn, rfl⟩ := hv
      obtain ⟨n', hn', rfl⟩ := hw
      rw [Option.some.inj (hn.symm.trans hn')]
    | _ => cases hkind

/-! ### The pool -/

variable {p : Pool}

/-- A pool finds its constants by their kinds and texts. -/
structure Pool.Valid (table : FuncTable) (p : Pool) : Prop where
  size_eq : p.keys.size = p.values.size
  constant : ∀ {i : Nat} {v : Value}, p.values[i]? = some v → IsConstant table v
  place : ∀ {k : ValueKind × Bytes} {i : Nat}, p.places[k]? = some i →
    ∃ v, p.values[i]? = some v ∧ v.kind = k.1 ∧ Heap.empty.text v = k.2

/-- The constants of a pool are in another one, at the same places. -/
def Pool.Extends (p q : Pool) : Prop :=
  ∀ (i : Nat) (v : Value), p.values[i]? = some v → q.values[i]? = some v

lemma Pool.valid_empty (table : FuncTable) : Valid table (.empty : Pool) where
  size_eq := rfl
  constant h := by simp [OrderedMap.empty] at h
  place h := by simp [OrderedMap.empty] at h

lemma Pool.Extends.trans {q r : Pool} (h : Extends p q) (h' : Extends q r) : Extends p r :=
  fun i v hv => h' i v (h i v hv)

lemma Pool.valid_push (h : Valid table p) (hv : IsConstant table v) :
    Valid table (p.push (v.kind, Heap.empty.text v) v) where
  size_eq := by simp [OrderedMap.push, h.size_eq]
  constant := by
    intro i w hw
    simp only [OrderedMap.push, Array.getElem?_push] at hw
    split at hw
    · rw [← Option.some.inj hw]
      exact hv
    · exact h.constant hw
  place := by
    intro k i hk
    simp only [OrderedMap.push, Std.HashMap.getElem?_insert] at hk
    split at hk
    · rename_i heq
      obtain rfl := Option.some.inj hk
      obtain rfl := eq_of_beq heq
      exact ⟨v, by simp [OrderedMap.push, h.size_eq], rfl, rfl⟩
    · obtain ⟨w, hw, hrest⟩ := h.place hk
      refine ⟨w, ?_, hrest⟩
      have hlt := (getElem?_eq_some_iff.mp hw).1
      simp only [OrderedMap.push, Array.getElem?_push, hw]
      rw [if_neg (by omega)]

lemma Pool.extends_push (p : Pool) (k : ValueKind × Bytes) (v : Value) :
    Extends p (p.push k v) := by
  intro i w hw
  have hlt := (getElem?_eq_some_iff.mp hw).1
  simp only [OrderedMap.push, Array.getElem?_push, hw]
  rw [if_neg (by omega)]

/-- **The constant found for a value is the value, up to the payload of a NaN.** -/
theorem Pool.index_spec (h : Valid table p) (hv : IsConstant table v) :
    Valid table (p.index v).1 ∧ Extends p (p.index v).1 ∧
      ∃ w, (p.index v).1.values[(p.index v).2]? = some w ∧ w.canon = v.canon := by
  rw [index]
  cases hi : p.index? (v.kind, Heap.empty.text v) with
  | some i =>
    rw [OrderedMap.intern_of_some hi]
    obtain ⟨w, hw, hkind, htext⟩ := h.place hi
    exact ⟨h, fun _ _ hx => hx, w, hw, canon_eq_of_constants (h.constant hw) hv hkind htext⟩
  | none =>
    rw [OrderedMap.intern_of_none hi]
    refine ⟨valid_push h hv, extends_push p _ v, v, ?_, rfl⟩
    simp [OrderedMap.push, OrderedMap.size, h.size_eq]

/-! ### Pools of many constants -/

/-- What tells the constants of a pool apart. -/
abbrev keyOf (v : Value) : ValueKind × Bytes :=
  (v.kind, Heap.empty.text v)

/-- The pool with more constants. -/
def Pool.putAll (pool : Pool) (vs : List Value) : Pool :=
  pool.internAll (vs.map fun v => (keyOf v, v))

lemma Pool.putAll_append (pool : Pool) (vs ws : List Value) :
    pool.putAll (vs ++ ws) = (pool.putAll vs).putAll ws := by
  simp [putAll, OrderedMap.internAll]

end Minilang.Bytecode
