import Minilang.Proofs.Text.Decimal
import Minilang.Proofs.Value.Payload
import Minilang.Typing.Note

/-!
# The shapes of values

What a value looks like that has a type: an integer for `int`, no value for `unit`, for an array
type an array all of whose elements have the shape of its elements, for a structure a record with
exactly the declared fields, each with the shape of its type, for an enum the record of one of its
variants, and for a function type a function with as many parameters.  No value has the shape of
`never`.

Arrays and records may contain themselves, so the shape is not given by recursion: a value has a
shape if some relation between values and types holds of it which implies, for all values and types
that it holds of, that the value looks like the type on the outside and that the relation holds of
its parts.
-/

namespace Minilang

open List

/-! ### Use without conversion -/

namespace Ty

/-- Every value of one type is a value of the other. -/
def Sub (a b : Ty) : Prop :=
  a.assignable b = .yes

lemma sub_iff {a b : Ty} :
    a.Sub b ↔ a = b ∨ a = .never ∨ a = .array .never ∧ ∃ e, b = .array e := by
  unfold Sub assignable
  split
  · simp [*]
  · split <;> simp_all

lemma assignable_eq_widened {a b : Ty} : a.assignable b = .widened ↔ a = .int ∧ b = .float := by
  unfold assignable
  split
  · rename_i h
    subst h
    cases a <;> simp
  · split <;> simp_all

lemma Sub.refl (a : Ty) : a.Sub a :=
  sub_iff.mpr (.inl rfl)

lemma Sub.eq_of_unit {a : Ty} (h : Sub .unit a) : a = .unit := by
  rcases sub_iff.mp h with rfl | h | ⟨h, -⟩
  · rfl
  · cases h
  · cases h

end Ty

/-! ### The records of a type -/

/-- In lists with the same names, the same names are found, and what they stand for is related. -/
theorem lookup_forall₂ {β γ : Type} {R : β → γ → Prop} {xs : List (Bytes × β)}
    {ys : List (Bytes × γ)} (h : Forall₂ (fun x y => x.1 = y.1 ∧ R x.2 y.2) xs ys) (name : Bytes) :
    (∀ b, ys.lookup name = some b → ∃ a, xs.lookup name = some a ∧ R a b) ∧
      (ys.lookup name = none → xs.lookup name = none) := by
  induction h with
  | nil => exact ⟨nofun, fun _ => rfl⟩
  | @cons x y xs ys hxy _ ih =>
    obtain ⟨n, a⟩ := x
    obtain ⟨m, b⟩ := y
    obtain rfl : n = m := hxy.1
    rw [lookup_cons, lookup_cons]
    cases name == n with
    | true => exact ⟨fun _ hb => Option.some.inj hb ▸ ⟨a, rfl, hxy.2⟩, nofun⟩
    | false => exact ih

/-- The fields of the records that hold values of a variant. -/
def Variant.fields (v : Variant) : List (Bytes × Ty) :=
  v.payload.zipIdx.map fun e => (Decimal.ofNat e.2, e.1)

namespace Variant

lemma map_fst_fields (v : Variant) :
    v.fields.map Prod.fst = (range v.payload.length).map Decimal.ofNat := by
  have hnumbers : v.payload.zipIdx.map Prod.snd = range v.payload.length := by
    rw [zipIdx_map_snd, range_eq_range']
  rw [← hnumbers, fields, map_map, map_map]
  rfl

lemma map_snd_fields (v : Variant) : v.fields.map Prod.snd = v.payload := by
  rw [fields, map_map]
  exact zipIdx_map_fst 0 v.payload

lemma lookup_fields {v : Variant} {name : Bytes} {t : Ty} (h : v.fields.lookup name = some t) :
    ∃ i, name = Decimal.ofNat i ∧ v.payload[i]? = some t := by
  obtain ⟨before, after, heq, -⟩ := lookup_eq_some_iff.mp h
  have hmem : (name, t) ∈ v.fields := heq ▸ mem_append_right _ (mem_cons_self ..)
  obtain ⟨⟨u, i⟩, hi, heq⟩ := mem_map.mp hmem
  cases heq
  exact ⟨i, rfl, mem_zipIdx_iff_getElem?.mp hi⟩

lemma nodup_fields (v : Variant) : (v.fields.map Prod.fst).Nodup := by
  rw [map_fst_fields]
  exact nodup_range.map fun _ _ h => Decimal.ofNat_injective h

end Variant

/-- The records that hold values of a structure or an enum: what they are called, and which fields
they have. -/
inductive TypeDef.Describes (defs : List TypeDef) (name : Bytes) :
    Bytes → List (Bytes × Ty) → Prop
  | struct {fields} :
      TypeDef.find? defs name = some ⟨name, .struct fields⟩ → Describes defs name name fields
  | variant {variants v} : TypeDef.find? defs name = some ⟨name, .enum variants⟩ → v ∈ variants →
      Describes defs name v.recordName v.fields

/-! ### Shapes -/

/-- What is known of a function at run time: its name and the number of its parameters. -/
abbrev Arity := Bytes × Nat

/-- A value looks like a type on the outside, and its parts have the given shapes. -/
def Ty.Admits (funcs : List Arity) (defs : List TypeDef) (h : Heap) (parts : Value → Ty → Prop) :
    Ty → Value → Prop
  | .int, v => ∃ n, v = .int n
  | .float, v => ∃ x, v = .float x
  | .bool, v => ∃ b, v = .bool b
  | .string, v => ∃ s, v = .string s
  | .unit, v => v = .null
  | .never, _ => False
  | .named name, v => ∃ ref fields, v = .record ref ∧ ref < h.records.size ∧
      TypeDef.Describes defs name (h.record ref).type fields ∧
      List.Forall₂ (fun f d => f.1 = d.1 ∧ parts f.2 d.2) (h.record ref).fields fields
  | .array elem, v => ∃ ref, v = .array ref ∧ ref < h.arrays.size ∧
      ∀ e ∈ h.elems ref, parts e elem
  | .func params _, v => ∃ (name : Bytes) (i : Nat), v = .func name i ∧
      funcs[i]? = some (name, params.length)

/-- The value has the shape of the type, however deep one looks. -/
def Value.HasShape (funcs : List Arity) (defs : List TypeDef) (h : Heap) (v : Value) (t : Ty) :
    Prop :=
  ∃ shape : Value → Ty → Prop,
    (∀ v t, shape v t → t.Admits funcs defs h shape v) ∧ shape v t

lemma Record.forall₂_of_canon {r r' : Record} (hr : r.canon = r'.canon)
    {parts : Value → Ty → Prop} {fields : List (Bytes × Ty)}
    (h : Forall₂ (fun f d => f.1 = d.1 ∧ parts f.2 d.2) r.fields fields) :
    Forall₂ (fun f d => f.1 = d.1 ∧ ∃ v, parts v d.2 ∧ v.canon = f.2.canon) r'.fields fields := by
  have hfields : r.fields.map (fun f => (f.1, f.2.canon)) =
      r'.fields.map (fun f => (f.1, f.2.canon)) := congrArg Record.fields hr
  generalize r.fields = fs at h hfields
  generalize r'.fields = fs' at hfields
  induction h generalizing fs' with
  | nil =>
    obtain rfl := map_eq_nil_iff.mp hfields.symm
    exact .nil
  | @cons f d fs ds hf _ ih =>
    cases fs' with
    | nil => simp at hfields
    | cons f' fs' =>
      simp only [map_cons, cons.injEq, Prod.mk.injEq] at hfields
      obtain ⟨⟨hname, hvalue⟩, hrest⟩ := hfields
      exact .cons ⟨hname ▸ hf.1, f.2, hf.2, hvalue⟩ (ih _ hrest)

lemma Value.HasShape.of_canon {funcs : List Arity} {defs : List TypeDef} {h h' : Heap}
    {v v' : Value} {t : Ty} (hv : v.HasShape funcs defs h t) (hh : h.canon = h'.canon)
    (hv' : v.canon = v'.canon) : v'.HasShape funcs defs h' t := by
  obtain ⟨shape, hshape, hvt⟩ := hv
  refine ⟨fun w t => ∃ v, shape v t ∧ v.canon = w.canon, ?_, v, hvt, hv'⟩
  rintro w t ⟨v, hvt, hw⟩
  have hadmits := hshape v t hvt
  cases t with
  | int =>
    obtain ⟨n, rfl⟩ := hadmits
    exact ⟨n, canon_eq_int hw.symm⟩
  | float =>
    obtain ⟨x, rfl⟩ := hadmits
    have hkind := kind_eq_of_canon hw
    cases w with
    | float y => exact ⟨y, rfl⟩
    | _ => cases hkind
  | bool =>
    obtain ⟨b, rfl⟩ := hadmits
    exact ⟨b, canon_eq_bool hw.symm⟩
  | string =>
    obtain ⟨s, rfl⟩ := hadmits
    exact ⟨s, canon_eq_string hw.symm⟩
  | unit =>
    obtain rfl := hadmits
    have hkind := kind_eq_of_canon hw
    cases w with
    | null => rfl
    | _ => cases hkind
  | never => exact hadmits
  | named name =>
    obtain ⟨ref, fields, rfl, hlt, hdescribes, hfields⟩ := hadmits
    have hrecord : (h.record ref).canon = (h'.record ref).canon := by
      rw [← Heap.record_canon, hh, Heap.record_canon]
    have htype : (h.record ref).type = (h'.record ref).type := by
      rw [← Record.type_canon, hrecord, Record.type_canon]
    refine ⟨ref, fields, canon_eq_record hw.symm, ?_, htype ▸ hdescribes,
      Record.forall₂_of_canon hrecord hfields⟩
    rwa [← Heap.size_records_canon, ← hh, Heap.size_records_canon]
  | array elem =>
    obtain ⟨ref, rfl, hlt, helems⟩ := hadmits
    refine ⟨ref, canon_eq_array hw.symm, ?_, fun e' he' => ?_⟩
    · rwa [← Heap.size_arrays_canon, ← hh, Heap.size_arrays_canon]
    · have hmem : e'.canon ∈ (h.elems ref).map canon := by
        rw [← Heap.elems_canon, hh, Heap.elems_canon]
        exact Array.mem_map_of_mem he'
      obtain ⟨e, he, heq⟩ := Array.mem_map.mp hmem
      exact ⟨e, helems e he, heq⟩
  | func params result =>
    obtain ⟨name, i, rfl, hi⟩ := hadmits
    exact ⟨name, i, canon_eq_func hw.symm, hi⟩

end Minilang
