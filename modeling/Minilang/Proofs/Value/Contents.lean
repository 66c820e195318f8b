import Minilang.Proofs.Collection.OrderedMap
import Minilang.Value.Operation

/-!
# What a heap holds

The fields of a record have different names, so a field is found by its name.

A new array or record and a change of an element or of a field put values into a heap that they are
given, and keep the others.  So a property of all values in a heap stays true if it is true of the
new ones.
-/

namespace Minilang

open List

/-! ### References -/

variable {h : Heap} {ref : Nat}

lemma Heap.lt_size_of_elems (helems : h.elems ref ≠ #[]) : ref < h.arrays.size := by
  refine Nat.lt_of_not_le fun hle => helems ?_
  rw [elems, Array.getElem?_eq_none hle, Option.getD_none]

lemma Heap.lt_size_of_fields (hfields : (h.record ref).fields ≠ []) : ref < h.records.size := by
  refine Nat.lt_of_not_le fun hle => hfields ?_
  rw [record, Array.getElem?_eq_none hle]
  rfl

/-! ### Changes of the heap -/

lemma Heap.elems_newArray (h : Heap) (es : Array Value) (ref : Nat) :
    (h.newArray es).2.elems ref = if ref = h.arrays.size then es else h.elems ref := by
  simp only [elems, newArray, Array.getElem?_push]
  split <;> rfl

lemma Heap.record_newRecord (h : Heap) (r : Record) (ref : Nat) :
    (h.newRecord r).2.record ref = if ref = h.records.size then r else h.record ref := by
  simp only [record, newRecord, Array.getElem?_push]
  split <;> rfl

lemma Heap.elems_setElem (h : Heap) (ref i : Nat) (v : Value) (ref' : Nat) :
    (h.setElem ref i v).elems ref' =
      if ref = ref' then (h.elems ref').setIfInBounds i v else h.elems ref' := by
  simp only [elems, setElem, Array.getElem?_modify]
  split
  · cases h.arrays[ref']? <;> simp
  · rfl

lemma Heap.record_setField (h : Heap) (ref : Nat) (name : Bytes) (v : Value) (ref' : Nat)
    (hlt : ref' < h.records.size) : (h.setField ref name v).record ref' =
      if ref = ref' then (h.record ref').set name v else h.record ref' := by
  simp only [record, setField, Array.getElem?_modify, Array.getElem?_eq_getElem hlt]
  split <;> rfl

/-! ### Properties of all values -/

variable {r : Record} {v : Value} {name : Bytes} {f : Bytes × Value} {P : Value → Prop}

/-- All values in a heap have a property. -/
structure Heap.All (P : Value → Prop) (h : Heap) : Prop where
  elem : ∀ {ref v}, v ∈ h.elems ref → P v
  field : ∀ {ref f}, f ∈ (h.record ref).fields → P f.2

namespace Heap.All

variable {h : Heap}

lemma empty : empty.All P where
  elem hv := by simp [elems, Heap.empty] at hv
  field hf := by simp [record, Heap.empty, Record.empty] at hf

lemma newArray (hh : h.All P) {es : Array Value} (hes : ∀ v ∈ es, P v) :
    (h.newArray es).2.All P where
  elem {ref v} hv := by
    rw [elems_newArray] at hv
    split at hv
    · exact hes v hv
    · exact hh.elem hv
  field := hh.field

lemma newRecord (hh : h.All P) (hr : ∀ f ∈ r.fields, P f.2) : (h.newRecord r).2.All P where
  elem := hh.elem
  field {ref f} hf := by
    rw [record_newRecord] at hf
    split at hf
    · exact hr f hf
    · exact hh.field hf

lemma setElem (hh : h.All P) (ref i : Nat) (hv : P v) : (h.setElem ref i v).All P where
  elem {ref' w} hw := by
    rw [elems_setElem] at hw
    split at hw
    · rcases Array.mem_or_eq_of_mem_setIfInBounds hw with hw | rfl
      · exact hh.elem hw
      · exact hv
    · exact hh.elem hw
  field := hh.field

end Heap.All

lemma Record.mem_setIn {fs : List (Bytes × Value)} (h : f ∈ setIn name v fs) :
    f ∈ fs ∨ f.2 = v := by
  induction fs with
  | nil =>
    rw [setIn, mem_singleton] at h
    exact .inr (by rw [h])
  | cons g fs ih =>
    rw [setIn] at h
    split at h
    · rcases mem_cons.mp h with rfl | h
      · exact .inr rfl
      · exact .inl (mem_cons_of_mem g h)
    · rcases mem_cons.mp h with rfl | h
      · exact .inl mem_cons_self
      · exact (ih h).imp (mem_cons_of_mem g) id

lemma Heap.All.setField (hh : h.All P) (ref : Nat) (name : Bytes) (hv : P v) :
    (h.setField ref name v).All P where
  elem := hh.elem
  field {ref' f} hf := by
    by_cases hlt : ref' < h.records.size
    · rw [record_setField h ref name v ref' hlt] at hf
      split at hf
      · rcases Record.mem_setIn hf with hf | hf
        · exact hh.field hf
        · exact hf ▸ hv
      · exact hh.field hf
    · -- There is no such record.
      have hnone : (h.setField ref name v).records[ref']? = none := by
        rw [Array.getElem?_eq_none_iff, Heap.setField, Array.size_modify]
        omega
      rw [record, hnone] at hf
      cases hf

lemma Record.mem_of_get? (h : r.get? name = some v) : (name, v) ∈ r.fields :=
  mem_of_lookup h

lemma Record.get?_of_mem (h : f ∈ r.fields) : r.get? f.1 = some f.2 :=
  lookup_of_mem r.distinct h

/-! ### Operations -/

variable {op : BinaryOp}

lemma Value.kind_onInts {x y : Int64} (hv : onInts op x y = .ok v) : v.kind ≠ .func := by
  cases op with
  | add | sub | mul | lt | le | gt | ge =>
    cases hv
    simp [kind]
  | div | mod =>
    simp only [onInts] at hv
    split at hv
    · cases hv
    · cases hv
      simp [kind]
  | eq | ne | and | or => cases hv

lemma Value.kind_onFloats {x y : Double} (hv : onFloats op x y = .ok v) : v.kind ≠ .func := by
  cases op with
  | add | sub | mul | lt | le | gt | ge =>
    cases hv
    simp [kind]
  | div | mod =>
    simp only [onFloats] at hv
    split at hv
    · cases hv
    · cases hv
      simp [kind]
  | eq | ne | and | or => cases hv

lemma Value.kind_binary {x y : Value} (hv : binary h op x y = .ok v) : v.kind ≠ .func := by
  cases op with
  | eq | ne | and | or =>
    simp only [binary] at hv
    split at hv
    · cases hv
      simp [kind]
    · cases hv
  | _ =>
    simp only [binary] at hv
    split at hv
    · exact kind_onInts hv
    · exact kind_onFloats hv
    · exact kind_onFloats hv
    · exact kind_onFloats hv
    · split at hv
      · cases hv
        simp [kind]
      · cases hv
    · cases hv

lemma Value.kind_primitive {op : Primitive} {x : Value} (hv : primitive h op x = .ok v) :
    v.kind ≠ .func := by
  unfold primitive at hv
  split at hv
  case h_8 => cases hv
  all_goals
    cases hv
    simp [kind]

end Minilang
