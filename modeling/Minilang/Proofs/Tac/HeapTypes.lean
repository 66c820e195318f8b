import Minilang.Proofs.Tac.Types
import Minilang.Proofs.Value.Contents

/-!
# Types for heaps

A heap has types: every array has a type for its elements, and every record is one of a structure or
of a variant.  The elements of an array with elements of type `never` are none, so such an array is
an array of any type.

New arrays and records and the changes of elements and fields keep a heap typed, and the operations
on values give values of the types that the checker gives them, or divide by zero.
-/

namespace Minilang

open List

open Tac (Signature Signatures)

/-! ### Typed heaps -/

/-- The type of a record and the types of its fields. -/
structure RecordTy where
  name : Bytes
  fields : List (Bytes × Ty)

/-- The types of the elements of all arrays, and those of all records. -/
structure HeapTy where
  arrays : List Ty
  records : List RecordTy

/-- The second heap has all arrays and records of the first one. -/
structure HeapTy.Le (T T' : HeapTy) : Prop where
  arrays : ∀ {ref : Nat} {e : Ty}, T.arrays[ref]? = some e → T'.arrays[ref]? = some e
  records : ∀ {ref : Nat} {r : RecordTy}, T.records[ref]? = some r → T'.records[ref]? = some r

lemma HeapTy.Le.refl (T : HeapTy) : T.Le T :=
  ⟨id, id⟩

/-- A value has a type. -/
inductive Value.HasType (p : Tac.Program) (sigs : Signatures) (T : HeapTy) :
    Value → Ty → Prop
  | null : HasType p sigs T .null .unit
  | int {n} : HasType p sigs T (.int n) .int
  | float {x} : HasType p sigs T (.float x) .float
  | bool {b} : HasType p sigs T (.bool b) .bool
  | string {s} : HasType p sigs T (.string s) .string
  | array {ref e} : T.arrays[ref]? = some e → HasType p sigs T (.array ref) (.array e)
  | noElems {ref e} : T.arrays[ref]? = some .never → HasType p sigs T (.array ref) (.array e)
  | record {ref name fields} :
      T.records[ref]? = some ⟨name, fields⟩ → HasType p sigs T (.record ref) (.named name)
  | func {name sig k} : (name, sig) ∈ sigs →
      p.index? name = some k → HasType p sigs T (.func name k) (.func sig.params sig.result)

/-- The fields of a record have the given names and types. -/
abbrev FieldsTyped (p : Tac.Program) (sigs : Signatures) (T : HeapTy) :
    List (Bytes × Value) → List (Bytes × Ty) → Prop :=
  List.Forall₂ fun f d => f.1 = d.1 ∧ f.2.HasType p sigs T d.2

/-- The elements of all arrays and the fields of all records have their types. -/
structure HeapTyped (c : Static) (p : Tac.Program) (sigs : Signatures) (T : HeapTy)
    (h : Heap) : Prop where
  size_arrays : T.arrays.length = h.arrays.size
  size_records : T.records.length = h.records.size
  elems : ∀ {ref e}, T.arrays[ref]? = some e →
    ∀ v ∈ h.elems ref, v.HasType p sigs T e
  describes : ∀ {ref r}, T.records[ref]? = some r →
    TypeDef.Describes c.defs r.name (h.record ref).type r.fields
  fields : ∀ {ref r}, T.records[ref]? = some r →
    FieldsTyped p sigs T (h.record ref).fields r.fields

section Values

variable {c : Static} {p : Tac.Program} {sigs : Signatures} {T T' : HeapTy}
  {h : Heap} {v w : Value} {t : Ty} {fs : List (Bytes × Value)} {ds : List (Bytes × Ty)}
  {ref : Nat} {e : Ty}

lemma Value.HasType.mono (hv : v.HasType p sigs T t) (hT : T.Le T') : v.HasType p sigs T' t := by
  cases hv with
  | null => exact .null
  | int => exact .int
  | float => exact .float
  | bool => exact .bool
  | string => exact .string
  | array hr => exact .array (hT.arrays hr)
  | noElems hr => exact .noElems (hT.arrays hr)
  | record hr => exact .record (hT.records hr)
  | func hsig hk => exact .func hsig hk

lemma Value.not_hasType_never : ¬v.HasType p sigs T .never := by
  intro h
  cases h

lemma FieldsTyped.mono (h : FieldsTyped p sigs T fs ds) (hT : T.Le T') :
    FieldsTyped p sigs T' fs ds :=
  h.imp fun _ _ hf => ⟨hf.1, hf.2.mono hT⟩

lemma Value.HasType.sub {s : Ty} (hv : v.HasType p sigs T s) (hs : s.Sub t) :
    v.HasType p sigs T t := by
  rcases Ty.sub_iff.mp hs with rfl | rfl | ⟨rfl, e, rfl⟩
  · exact hv
  · cases hv
  · cases hv with
    | array hr => exact .noElems hr
    | noElems hr => exact .noElems hr

/-- The kind of the values of a type. -/
def Ty.kind : Ty → ValueKind
  | .int => .int
  | .float => .float
  | .bool => .bool
  | .string => .string
  | .unit | .never => .null
  | .named _ => .record
  | .array _ => .array
  | .func _ _ => .func

lemma Value.HasType.kind_eq (hv : v.HasType p sigs T t) : v.kind = t.kind := by
  cases hv <;> rfl

lemma Value.HasType.isNumeric_kind (hv : v.HasType p sigs T t) (ht : t.isNumeric = true) :
    v.kind.isNumeric = true := by
  rw [hv.kind_eq]
  cases t <;> first | rfl | cases ht

lemma HeapTyped.elem (hh : HeapTyped c p sigs T h)
    (hv : (Value.array ref).HasType p sigs T (.array e)) (hmem : w ∈ h.elems ref) :
    w.HasType p sigs T e := by
  cases hv with
  | array hr => exact hh.elems hr w hmem
  | noElems hr => exact (Value.not_hasType_never (hh.elems hr w hmem)).elim

/-! ### Fields -/

variable {name : Bytes}

lemma FieldsTyped.setIn (hfs : FieldsTyped p sigs T fs ds) (hl : ds.lookup name = some t)
    (hv : v.HasType p sigs T t) : FieldsTyped p sigs T (Record.setIn name v fs) ds := by
  induction hfs with
  | nil => cases hl
  | @cons f d fs ds hf hrest ih =>
    obtain ⟨n, w⟩ := f
    obtain ⟨m, u⟩ := d
    obtain rfl : n = m := hf.1
    rw [lookup_cons] at hl
    unfold Record.setIn
    by_cases hname : n = name
    · subst hname
      rw [if_pos rfl]
      simp only [BEq.rfl] at hl
      cases hl
      exact .cons ⟨rfl, hv⟩ hrest
    · have hne : (name == n) = false := beq_false_of_ne fun h => hname h.symm
      rw [if_neg hname]
      rw [hne] at hl
      exact .cons hf (ih hl)

lemma Record.setIn_of_notMem (hname : name ∉ fs.map Prod.fst) :
    setIn name v fs = fs ++ [(name, v)] := by
  induction fs with
  | nil => rfl
  | cons f fs ih =>
    rw [map_cons, mem_cons, not_or] at hname
    rw [setIn, if_neg fun h => hname.1 h.symm, ih hname.2, cons_append]

/-- Fields with different names that are set one after the other are the fields of the record. -/
theorem Tac.withFields_fields (r : Record) (fs : List (Bytes × Value))
    (hnodup : (r.fields ++ fs |>.map Prod.fst).Nodup) :
    (withFields r fs).fields = r.fields ++ fs := by
  induction fs generalizing r with
  | nil => simp [withFields]
  | cons f fs ih =>
    have hset : (r.set f.1 f.2).fields = r.fields ++ [f] := by
      have hnew : f.1 ∉ r.fields.map Prod.fst := by
        rw [map_append] at hnodup
        intro hmem
        exact disjoint_of_nodup_append hnodup hmem (mem_cons_self ..)
      exact Record.setIn_of_notMem hnew
    have hcons : withFields r (f :: fs) = withFields (r.set f.1 f.2) fs := rfl
    rw [hcons, ih _ (by rw [hset]; simpa using hnodup), hset]
    simp

lemma Tac.withFields_type (r : Record) (fs : List (Bytes × Value)) :
    (withFields r fs).type = r.type := by
  induction fs generalizing r with
  | nil => rfl
  | cons f fs ih => exact ih (r.set f.1 f.2)

/-! ### Changes of the heap -/

section

variable (hh : HeapTyped c p sigs T h)

include hh

lemma HeapTyped.newArray {es : Array Value} (hes : ∀ v ∈ es, v.HasType p sigs T e) :
    ∃ T', T.Le T' ∧ HeapTyped c p sigs T' (h.newArray es).2 ∧
      (h.newArray es).1.HasType p sigs T' (.array e) := by
  have hle : T.Le ⟨T.arrays ++ [e], T.records⟩ :=
    ⟨fun hr => getElem?_append_left (List.getElem?_eq_some_iff.mp hr).1 ▸ hr, id⟩
  have hlast : (T.arrays ++ [e])[h.arrays.size]? = some e := by
    rw [← hh.size_arrays, getElem?_concat_length]
  refine ⟨⟨T.arrays ++ [e], T.records⟩, hle, ?_, .array hlast⟩
  refine ⟨by simp [Heap.newArray, hh.size_arrays], hh.size_records, ?_, hh.describes,
    fun hr => (hh.fields hr).mono hle⟩
  intro ref e' hr v hv
  rw [Heap.elems_newArray] at hv
  split at hv
  · rename_i href
    subst href
    cases hr.symm.trans hlast
    exact (hes v hv).mono hle
  · rename_i href
    have hlt : ref < T.arrays.length := by
      have := (List.getElem?_eq_some_iff.mp hr).1
      rw [← hh.size_arrays] at href
      simp only [length_append, length_singleton] at this
      omega
    rw [getElem?_append_left hlt] at hr
    exact (hh.elems hr v hv).mono hle

lemma HeapTyped.newRecord {r : Record} {fields : List (Bytes × Ty)}
    (hdesc : TypeDef.Describes c.defs name r.type fields)
    (hfields : FieldsTyped p sigs T r.fields fields) :
    ∃ T', T.Le T' ∧ HeapTyped c p sigs T' (h.newRecord r).2 ∧
      (h.newRecord r).1.HasType p sigs T' (.named name) := by
  have hle : T.Le ⟨T.arrays, T.records ++ [⟨name, fields⟩]⟩ :=
    ⟨id, fun hr => getElem?_append_left (List.getElem?_eq_some_iff.mp hr).1 ▸ hr⟩
  have hlast : (T.records ++ [⟨name, fields⟩])[h.records.size]? = some ⟨name, fields⟩ := by
    rw [← hh.size_records, getElem?_concat_length]
  have hold : ∀ {ref d}, (T.records ++ [⟨name, fields⟩])[ref]? = some d →
      ref ≠ h.records.size → T.records[ref]? = some d := by
    intro ref d hr href
    have hlt : ref < T.records.length := by
      have := (List.getElem?_eq_some_iff.mp hr).1
      rw [← hh.size_records] at href
      simp only [length_append, length_singleton] at this
      omega
    rwa [getElem?_append_left hlt] at hr
  refine ⟨⟨T.arrays, T.records ++ [⟨name, fields⟩]⟩, hle, ?_, .record hlast⟩
  refine ⟨hh.size_arrays, by simp [Heap.newRecord, hh.size_records],
    fun hr v hv => (hh.elems hr v hv).mono hle, ?_, ?_⟩
  · intro ref d hr
    rw [Heap.record_newRecord]
    split
    · rename_i href
      subst href
      cases hr.symm.trans hlast
      exact hdesc
    · exact hh.describes (hold hr ‹_›)
  · intro ref d hr
    rw [Heap.record_newRecord]
    split
    · rename_i href
      subst href
      cases hr.symm.trans hlast
      exact hfields.mono hle
    · exact (hh.fields (hold hr ‹_›)).mono hle

lemma HeapTyped.setElem (i : Nat) (href : (Value.array ref).HasType p sigs T (.array e))
    (hi : i < (h.elems ref).size) (hv : v.HasType p sigs T e) :
    HeapTyped c p sigs T (h.setElem ref i v) := by
  refine ⟨by simp [Heap.setElem, hh.size_arrays], hh.size_records, ?_, hh.describes, hh.fields⟩
  intro ref' e' hr w hw
  rw [Heap.elems_setElem] at hw
  split at hw
  · rename_i heq
    subst heq
    rcases Array.mem_or_eq_of_mem_setIfInBounds hw with hw | rfl
    · exact hh.elems hr w hw
    · cases href with
      | array hr' =>
        cases hr.symm.trans hr'
        exact hv
      | noElems hr' => exact (Value.not_hasType_never (hh.elems hr' _ (Array.getElem_mem hi))).elim
  · exact hh.elems hr w hw

lemma HeapTyped.setField {d : RecordTy} (href : T.records[ref]? = some d)
    (hl : d.fields.lookup name = some t) (hv : v.HasType p sigs T t) :
    HeapTyped c p sigs T (h.setField ref name v) := by
  have hlt : ∀ {ref' d'}, T.records[ref']? = some d' →
      ref' < h.records.size := fun hr => by
    rw [← hh.size_records]
    exact (List.getElem?_eq_some_iff.mp hr).1
  refine ⟨hh.size_arrays, by simp [Heap.setField, hh.size_records], hh.elems, ?_, ?_⟩
  · intro ref' d' hr
    rw [Heap.record_setField h ref name v ref' (hlt hr)]
    split
    · exact hh.describes hr
    · exact hh.describes hr
  · intro ref' d' hr
    rw [Heap.record_setField h ref name v ref' (hlt hr)]
    split
    · rename_i heq
      subst heq
      cases hr.symm.trans href
      exact (hh.fields hr).setIn hl hv
    · exact hh.fields hr

end

/-! ### Operators -/

variable {op : BinaryOp} {a b : Ty}

/-- An operation gives a value of a type, or divides by zero. -/
def ResultTyped (p : Tac.Program) (sigs : Signatures) (T : HeapTy) (t : Ty)
    (r : Except OperationError Value) : Prop :=
  match r with
  | .ok v => v.HasType p sigs T t
  | .error e => e.kind = .divisionByZero

/-- The type of an operation on two numbers of the same type. -/
def Ty.ofNumeric (op : BinaryOp) (t : Ty) : Ty :=
  if op.isOrdering then .bool else t

section

variable (hop : op.isArithmetic ∨ op.isOrdering)

include hop

lemma onInts_typed (x y : Int64) :
    ResultTyped p sigs T (.ofNumeric op .int) (Value.onInts op x y) := by
  cases op with
  | add | sub | mul => exact .int
  | lt | le | gt | ge => exact .bool
  | div | mod =>
    simp only [Value.onInts]
    split
    · rfl
    · exact .int
  | eq | ne | and | or => simp [BinaryOp.isArithmetic, BinaryOp.isOrdering] at hop

lemma onFloats_typed (x y : Double) :
    ResultTyped p sigs T (.ofNumeric op .float) (Value.onFloats op x y) := by
  cases op with
  | add | sub | mul => exact .float
  | lt | le | gt | ge => exact .bool
  | div | mod =>
    simp only [Value.onFloats]
    split
    · rfl
    · exact .float
  | eq | ne | and | or => simp [BinaryOp.isArithmetic, BinaryOp.isOrdering] at hop

lemma numeric_typed (hnum : (if a.isNumeric && b.isNumeric then
      some (Ty.ofNumeric op (if a = .int ∧ b = .int then .int else .float)) else none) = some t)
    (hv : v.HasType p sigs T a) (hw : w.HasType p sigs T b) :
    ResultTyped p sigs T t (Value.binary h op v w) := by
  obtain ⟨hab, heq⟩ := Option.ite_none_right_eq_some.mp hnum
  obtain ⟨ha, hb⟩ := Bool.and_eq_true_iff.mp hab
  obtain rfl := Option.some.inj heq
  rw [Value.binary_of_numeric hop]
  cases a with
  | int =>
    cases hv
    cases b with
    | int => cases hw; exact onInts_typed hop _ _
    | float => cases hw; exact onFloats_typed hop _ _
    | _ => cases hb
  | float =>
    cases hv
    cases b with
    | int => cases hw; exact onFloats_typed hop _ _
    | float => cases hw; exact onFloats_typed hop _ _
    | _ => cases hb
  | _ => cases ha

end

lemma comparable_kind (hab : a.comparable b = true) (hv : v.HasType p sigs T a)
    (hw : w.HasType p sigs T b) : Value.comparable v.kind w.kind = true := by
  unfold Ty.comparable at hab
  unfold Value.comparable
  split at hab
  · rename_i hnum
    rw [Bool.and_eq_true] at hnum
    simp [hv.isNumeric_kind hnum.1, hw.isNumeric_kind hnum.2]
  · split at hab
    · cases hab
    · obtain rfl := of_decide_eq_true hab
      simp [hv.kind_eq, hw.kind_eq]

/-- **The operators between two values follow their types.** -/
theorem binary_typed (hop : Typing.binaryType? op a b = some t) (hv : v.HasType p sigs T a)
    (hw : w.HasType p sigs T b) : ResultTyped p sigs T t (Value.binary h op v w) := by
  cases op with
  | and | or =>
    simp only [Typing.binaryType?] at hop
    split at hop
    · rename_i hbool
      obtain ⟨rfl, rfl⟩ := hbool
      cases hop
      cases hv
      cases hw
      exact .bool
    · cases hop
  | eq | ne =>
    simp only [Typing.binaryType?] at hop
    split at hop
    · cases hop
      simp only [Value.binary, comparable_kind ‹_› hv hw]
      exact .bool
    · cases hop
  | lt | le | gt | ge => exact numeric_typed (.inr rfl) hop hv hw
  | add =>
    simp only [Typing.binaryType?] at hop
    split at hop
    · rename_i hstring
      obtain ⟨-, rfl, rfl⟩ := hstring
      cases hop
      cases hv
      cases hw
      exact .string
    · exact numeric_typed (.inl rfl) hop hv hw
  | sub | mul | div | mod =>
    simp only [Typing.binaryType?, reduceCtorEq, false_and, if_false] at hop
    exact numeric_typed (.inl rfl) hop hv hw

/-- **The operations on one value follow their types.** -/
theorem primitive_typed {op : Primitive} (hop : op.type? a = some t) (hv : v.HasType p sigs T a) :
    ResultTyped p sigs T t (Value.primitive h op v) := by
  cases op with
  | neg =>
    cases hv with
    | int => cases hop; exact .int
    | float => cases hop; exact .float
    | _ => cases hop
  | not =>
    cases hv with
    | bool => cases hop; exact .bool
    | _ => cases hop
  | len =>
    cases hv with
    | array | noElems | string => cases hop; exact .int
    | null | int | float | bool | record | func => cases hop
  | toFloat =>
    cases hv with
    | int => cases hop; exact .float
    | _ => cases hop

end Values

end Minilang
