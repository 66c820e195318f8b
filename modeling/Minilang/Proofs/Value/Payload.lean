import Minilang.Proofs.Double.Payload
import Minilang.Value.Operation
import Mathlib.Data.List.Basic

/-!
# Values up to the payload of a NaN

`Value.canon` and `Heap.canon` forget the payloads of all NaNs.  The operations on values, their
comparison and their texts do not depend on what is forgotten: applied to values and heaps with
equal `canon` they fail with the same error, or give values with equal `canon`.
-/

namespace Minilang

open List

/-! ### Forgetting payloads -/

variable {v : Value} {h h' : Heap}

/-- The value with the payload of a NaN forgotten. -/
def Value.canon : Value → Value
  | .float x => .float x.canon
  | v => v

/-- The record with the payloads of NaNs forgotten. -/
def Record.canon (r : Record) : Record where
  type := r.type
  fields := r.fields.map fun f => (f.1, f.2.canon)
  distinct := by
    rw [map_map]
    exact r.distinct

/-- The heap with the payloads of NaNs forgotten. -/
def Heap.canon (h : Heap) : Heap :=
  ⟨h.arrays.map (Array.map Value.canon), h.records.map Record.canon⟩

namespace Value

variable {w : Value} {ref : Nat}

@[simp]
lemma kind_canon (v : Value) : v.canon.kind = v.kind := by
  cases v <;> rfl

lemma eq_of_canon (h : v.canon = w) (hw : w.kind ≠ .float) : v = w := by
  cases v with
  | float x =>
    cases h
    exact absurd rfl hw
  | _ => exact h

lemma canon_eq_array (h : v.canon = .array ref) : v = .array ref :=
  eq_of_canon h nofun

lemma canon_eq_record (h : v.canon = .record ref) : v = .record ref :=
  eq_of_canon h nofun

lemma canon_eq_int {n : Int64} (h : v.canon = .int n) : v = .int n :=
  eq_of_canon h nofun

lemma canon_eq_bool {b : Bool} (h : v.canon = .bool b) : v = .bool b :=
  eq_of_canon h nofun

lemma canon_eq_string {s : Bytes} (h : v.canon = .string s) : v = .string s :=
  eq_of_canon h nofun

lemma canon_eq_func {f : Bytes} {i : Int} (h : v.canon = .func f i) : v = .func f i :=
  eq_of_canon h nofun

lemma kind_eq_of_canon (h : v.canon = w.canon) : v.kind = w.kind := by
  rw [← kind_canon v, h, kind_canon]

end Value

namespace Record

variable (r : Record) (name : Bytes)

@[simp]
lemma type_canon : r.canon.type = r.type := rfl

@[simp]
lemma length_fields_canon : r.canon.fields.length = r.fields.length := by
  simp [canon]

lemma lookup_map_canon (fs : List (Bytes × Value)) :
    (fs.map fun f => (f.1, f.2.canon)).lookup name = (fs.lookup name).map Value.canon := by
  induction fs with
  | nil => rfl
  | cons f fs ih =>
    obtain ⟨k, v⟩ := f
    simp only [map_cons, lookup_cons]
    cases name == k with
    | true => rfl
    | false => exact ih

@[simp]
lemma get?_canon : r.canon.get? name = (r.get? name).map Value.canon :=
  lookup_map_canon name r.fields

lemma setIn_canon (v : Value) (fs : List (Bytes × Value)) :
    (setIn name v fs).map (fun f => (f.1, f.2.canon)) =
      setIn name v.canon (fs.map fun f => (f.1, f.2.canon)) := by
  induction fs with
  | nil => rfl
  | cons f fs ih =>
    simp only [setIn, map_cons]
    split
    · rfl
    · rw [map_cons, ih]

@[simp]
lemma set_canon (v : Value) : (r.set name v).canon = r.canon.set name v.canon := by
  simp [set, canon, setIn_canon]

end Record

namespace Heap

variable (h : Heap)

@[simp]
lemma size_arrays_canon : h.canon.arrays.size = h.arrays.size := by
  simp [canon]

@[simp]
lemma size_records_canon : h.canon.records.size = h.records.size := by
  simp [canon]

@[simp]
lemma elems_canon (ref : Nat) : h.canon.elems ref = (h.elems ref).map Value.canon := by
  simp only [elems, canon, Array.getElem?_map]
  cases h.arrays[ref]? <;> simp

lemma elem_canon (ref k : Nat) :
    (h.canon.elems ref)[k]?.getD .null = ((h.elems ref)[k]?.getD .null).canon := by
  rw [elems_canon, Array.getElem?_map]
  cases (h.elems ref)[k]? <;> rfl

@[simp]
lemma record_canon (ref : Nat) : h.canon.record ref = (h.record ref).canon := by
  simp only [record, canon, Array.getElem?_map]
  cases h.records[ref]? <;> rfl

lemma canon_newArray (elems : Array Value) :
    (h.newArray elems).2.canon = (h.canon.newArray (elems.map Value.canon)).2 := by
  simp [newArray, canon]

lemma canon_newRecord (r : Record) : (h.newRecord r).2.canon = (h.canon.newRecord r.canon).2 := by
  simp [newRecord, canon]

lemma canon_setElem (ref i : Nat) (v : Value) :
    (h.setElem ref i v).canon = h.canon.setElem ref i v.canon := by
  unfold setElem canon
  congr 1
  refine Array.ext (by simp) fun j hj hj' => ?_
  simp only [Array.getElem_map, Array.getElem_modify]
  split
  · rw [Array.map_setIfInBounds]
  · rfl

lemma canon_setField (ref : Nat) (name : Bytes) (v : Value) :
    (h.setField ref name v).canon = h.canon.setField ref name v.canon := by
  unfold setField canon
  congr 1
  refine Array.ext (by simp) fun j hj hj' => ?_
  simp only [Array.getElem_map, Array.getElem_modify]
  split
  · rw [Record.set_canon]
  · rfl

/-! ### Comparison and texts -/

/-- A comparison does not see payloads; the pairs it has met hold references, which have none. -/
theorem compare_canon : ∀ depth met x y,
    h.canon.compare depth met x.canon y.canon = h.compare depth met x y := by
  intro depth
  induction depth with
  | zero =>
    intro met x y
    cases x <;> cases y <;> first | rfl | simp [compare, Value.canon]
  | succ depth ih =>
    intro met x y
    cases x <;> cases y <;> first | rfl | simp [compare, Value.canon]
    case array.array a b =>
      rw [zip_map, foldlM_map]
      simp [ih]
    case record.record a b =>
      simp only [Record.canon, foldlM_map]
      refine if_congr Iff.rfl rfl (if_congr Iff.rfl rfl ?_)
      congr 1
      funext met f
      cases (h.record b).get? f.1 with
      | none => rfl
      | some v => exact ih met f.2 v

@[simp]
lemma equal_canon (x y : Value) : h.canon.equal x.canon y.canon = h.equal x y := by
  simp [equal, compare_canon]

lemma print_canon : ∀ depth v,
    h.canon.print depth v.canon = h.print depth v := by
  intro depth
  induction depth with
  | zero =>
    intro v
    cases v <;> simp [print, Value.canon]
  | succ depth ih =>
    have hpart : part (h.canon.print depth) ∘ Value.canon = part (h.print depth) := by
      funext v
      cases v with
      | string s => rfl
      | _ => exact ih _
    intro v
    cases v <;> try simp [print, Value.canon]
    case array ref => rw [hpart]
    case record ref =>
      have hfield : (fun f : Bytes × Value => Prod.mk f.1 <$> part (h.canon.print depth) f.2) ∘
          (fun f : Bytes × Value => (f.1, f.2.canon)) =
            fun f => Prod.mk f.1 <$> part (h.print depth) f.2 := by
        rw [← hpart]
        rfl
      rw [Record.canon, mapM_map, hfield]

@[simp]
lemma text_canon (v : Value) : h.canon.text v.canon = h.text v := by
  simp [text, size, print_canon]

variable {h} in
lemma text_eq_of_canon {v' : Value} (hh : h.canon = h'.canon) (hv : v.canon = v'.canon) :
    h.text v = h'.text v' := by
  rw [← text_canon h v, hh, hv, text_canon]

end Heap

/-! ### Operations -/

namespace Value

variable {op : BinaryOp} {x x' : Value}

lemma onFloats_canon (op : BinaryOp) (x y : Double) :
    (onFloats op x.canon y.canon).map canon = (onFloats op x y).map canon := by
  cases op <;> simp only [onFloats, Double.add_canon, Double.sub_canon, Double.mul_canon,
    Double.div_canon, Double.lt_canon, Double.le_canon, Double.isZero_canon, Double.text_canon]
  case mod =>
    split
    · rfl
    · simp [Except.map, canon]

lemma binary_of_numeric (hop : op.isArithmetic ∨ op.isOrdering) (h : Heap) (x y : Value) :
    binary h op x y = match x, y with
      | .int a, .int b => onInts op a b
      | .int a, .float b => onFloats op (Double.ofInt a) b
      | .float a, .int b => onFloats op a (Double.ofInt b)
      | .float a, .float b => onFloats op a b
      | .string a, .string b =>
        if op = .add then .ok (.string (a ++ b)) else undefinedBetween op .string .string
      | _, _ => undefinedBetween op x.kind y.kind := by
  cases op <;> first | rfl | simp [BinaryOp.isArithmetic, BinaryOp.isOrdering] at hop

lemma numeric_canon (hop : op.isArithmetic ∨ op.isOrdering) (h : Heap) (x y : Value) :
    (binary h.canon op x.canon y.canon).map canon = (binary h op x y).map canon := by
  have hright : ∀ a b,
      (onFloats op (Double.ofInt a) b.canon).map canon =
        (onFloats op (Double.ofInt a) b).map canon := by
    intro a b
    rw [← onFloats_canon op (Double.ofInt a) b, ← onFloats_canon op (Double.ofInt a) b.canon,
      Double.canon_canon]
  have hleft : ∀ a b,
      (onFloats op a.canon (Double.ofInt b)).map canon =
        (onFloats op a (Double.ofInt b)).map canon := by
    intro a b
    rw [← onFloats_canon op a (Double.ofInt b), ← onFloats_canon op a.canon (Double.ofInt b),
      Double.canon_canon]
  rw [binary_of_numeric hop, binary_of_numeric hop]
  cases x <;> cases y <;> simp [canon, kind, onFloats_canon, hright, hleft]

lemma binary_canon (h : Heap) (op : BinaryOp) (x y : Value) :
    (binary h.canon op x.canon y.canon).map canon = (binary h op x y).map canon := by
  cases op with
  | eq | ne => simp [binary]
  | and | or => cases x <;> cases y <;> rfl
  | _ => exact numeric_canon (by simp [BinaryOp.isArithmetic, BinaryOp.isOrdering]) h x y

lemma primitive_canon (h : Heap) (op : Primitive) (x : Value) :
    (primitive h.canon op x.canon).map canon = (primitive h op x).map canon := by
  cases op <;> cases x <;> first | rfl | simp [primitive, canon, Except.map]

/-- Operators on values with equal `canon` fail alike or have results with equal `canon`. -/
theorem binary_eq_of_canon {y y' : Value} (op : BinaryOp) (hh : h.canon = h'.canon)
    (hx : x.canon = x'.canon) (hy : y.canon = y'.canon) :
    (binary h op x y).map canon = (binary h' op x' y').map canon := by
  rw [← binary_canon h, hh, hx, hy, binary_canon]

lemma primitive_eq_of_canon (op : Primitive) (hh : h.canon = h'.canon) (hx : x.canon = x'.canon) :
    (primitive h op x).map canon = (primitive h' op x').map canon := by
  rw [← primitive_canon h, hh, hx, primitive_canon]

end Value

end Minilang
