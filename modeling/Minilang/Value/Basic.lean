import Minilang.Double.Text

/-!
# Values

The values that a program computes with.  Arrays and records are mutable and shared: a value holds
only a reference, and the elements and fields are in a heap.  Arrays and records have references of
their own, numbered in the order of their creation, so a reference to an array never meets a record.
-/

namespace Minilang

/-- The values. -/
inductive Value where
  /-- The absence of a value. -/
  | null
  | int (n : Int64)
  | float (x : Double)
  | bool (b : Bool)
  | string (s : Bytes)
  | array (ref : Nat)
  | record (ref : Nat)
  /-- A function of a program, by its name and its number. -/
  | func (name : Bytes) (index : Int)
  deriving DecidableEq, Inhabited

/-- The kinds of values. -/
inductive ValueKind where
  | null
  | int
  | float
  | bool
  | string
  | array
  | record
  | func
  deriving DecidableEq, Hashable, Repr

namespace ValueKind

def text : ValueKind → Bytes
  | .null => "null"
  | .int => "int"
  | .float => "float"
  | .bool => "bool"
  | .string => "string"
  | .array => "array"
  | .record => "record"
  | .func => "function"

def all : List ValueKind :=
  [.null, .int, .float, .bool, .string, .array, .record, .func]

def nameOf (code : Int) : Bytes :=
  match (if code < 0 then none else all[code.toNat]?) with
  | some kind => kind.text
  | none => Bytes.concat ["Kind(", Decimal.ofInt code, ")"]

def isNumeric : ValueKind → Bool
  | .int | .float => true
  | _ => false

end ValueKind

namespace Value

/-- The kind of a value. -/
def kind : Value → ValueKind
  | .null => .null
  | .int _ => .int
  | .float _ => .float
  | .bool _ => .bool
  | .string _ => .string
  | .array _ => .array
  | .record _ => .record
  | .func _ _ => .func

end Value

/-- A record: the name of its structure, or of its variant with the name of the enum in front, and
its fields in order. -/
structure Record where
  type : Bytes
  fields : List (Bytes × Value)
  /-- No two fields have the same name. -/
  distinct : (fields.map Prod.fst).Nodup
  deriving DecidableEq

namespace Record

def empty (type : Bytes) : Record := ⟨type, [], List.nodup_nil⟩

instance : Inhabited Record := ⟨empty []⟩

def get? (r : Record) (name : Bytes) : Option Value :=
  r.fields.lookup name

def setIn (name : Bytes) (v : Value) : List (Bytes × Value) → List (Bytes × Value)
  | [] => [(name, v)]
  | f :: fs => if f.1 = name then (name, v) :: fs else f :: setIn name v fs

variable {name : Bytes} {v : Value} {fs : List (Bytes × Value)}

theorem mem_map_fst_setIn {x : Bytes}
    (h : x ∈ (setIn name v fs).map Prod.fst) : x = name ∨ x ∈ fs.map Prod.fst := by
  induction fs with
  | nil => exact .inl (List.mem_singleton.mp h)
  | cons f fs ih =>
    rw [setIn] at h
    split at h
    · exact (List.mem_cons.mp h).imp id (List.mem_cons_of_mem _)
    · rcases List.mem_cons.mp h with rfl | h
      · exact .inr List.mem_cons_self
      · exact (ih h).imp id (List.mem_cons_of_mem _)

/-- Setting a field does not make two fields of one name. -/
theorem nodup_setIn (h : (fs.map Prod.fst).Nodup) : ((setIn name v fs).map Prod.fst).Nodup := by
  induction fs with
  | nil => exact List.nodup_cons.mpr ⟨List.not_mem_nil, List.nodup_nil⟩
  | cons f fs ih =>
    obtain ⟨hf, hfs⟩ := List.nodup_cons.mp h
    rw [setIn]
    split
    · next hname => exact List.nodup_cons.mpr ⟨hname ▸ hf, hfs⟩
    · next hname =>
      refine List.nodup_cons.mpr ⟨fun hmem => ?_, ih hfs⟩
      exact (mem_map_fst_setIn hmem).elim hname hf

def set (r : Record) (name : Bytes) (v : Value) : Record :=
  { r with
    fields := setIn name v r.fields
    distinct := nodup_setIn r.distinct }

end Record

/-- The arrays and the records that exist. -/
structure Heap where
  arrays : Array (Array Value)
  records : Array Record

namespace Heap

def empty : Heap := ⟨#[], #[]⟩

instance : Inhabited Heap := ⟨empty⟩

variable (h : Heap)

def elems (ref : Nat) : Array Value :=
  h.arrays[ref]?.getD #[]

def record (ref : Nat) : Record :=
  h.records[ref]?.getD (Record.empty [])

def newArray (elems : Array Value) : Value × Heap :=
  (.array h.arrays.size, { h with arrays := h.arrays.push elems })

def newRecord (r : Record) : Value × Heap :=
  (.record h.records.size, { h with records := h.records.push r })

def setElem (ref i : Nat) (v : Value) : Heap :=
  { h with arrays := h.arrays.modify ref fun elems => elems.setIfInBounds i v }

def setField (ref : Nat) (name : Bytes) (v : Value) : Heap :=
  { h with records := h.records.modify ref fun r => r.set name v }

end Heap

end Minilang
