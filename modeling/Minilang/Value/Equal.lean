import Minilang.Value.Basic

/-!
# Equality of values

Numbers are compared as floats unless both are integers, functions by their names, and arrays and
records by what they hold.  A pair of arrays or records that is met again during a comparison counts
as equal there, so that the comparison of cyclic values comes to an end.
-/

namespace Minilang.Heap

/-- The pairs that have been met. -/
abbrev Met := List (Value × Value)

/-- Compares two values after the pairs in `met`; at most `depth` other pairs exist.  The result is
`none` if the values differ and otherwise the pairs met so far. -/
def compare (h : Heap) : (depth : Nat) → (met : Met) → Value → Value → Option Met
  | depth, met, x, y =>
    match x, y with
    | .null, .null => some met
    | .int a, .int b => if a = b then some met else none
    | .int a, .float b => if (Double.ofInt a).eq b then some met else none
    | .float a, .int b => if a.eq (Double.ofInt b) then some met else none
    | .float a, .float b => if a.eq b then some met else none
    | .bool a, .bool b => if a = b then some met else none
    | .string a, .string b => if a = b then some met else none
    | .func a _, .func b _ => if a = b then some met else none
    | .array a, .array b =>
      let xs := h.elems a
      let ys := h.elems b
      if xs.size ≠ ys.size then none
      else if a = b ∨ (x, y) ∈ met then some met
      else match depth with
        | 0 => some met
        | depth + 1 =>
          (xs.toList.zip ys.toList).foldlM (fun met p => compare h depth met p.1 p.2)
            ((x, y) :: met)
    | .record a, .record b =>
      let r := h.record a
      let s := h.record b
      if r.type ≠ s.type ∨ r.fields.length ≠ s.fields.length then none
      else if a = b ∨ (x, y) ∈ met then some met
      else match depth with
        | 0 => some met
        | depth + 1 =>
          r.fields.foldlM (fun met f =>
            match s.get? f.1 with
            | none => none
            | some v => compare h depth met f.2 v) ((x, y) :: met)
    | _, _ => none

/-- The values are equal. -/
def equal (h : Heap) (x y : Value) : Bool :=
  let pairs := h.arrays.size * h.arrays.size + h.records.size * h.records.size
  (h.compare (pairs + 1) [] x y).isSome

end Minilang.Heap
