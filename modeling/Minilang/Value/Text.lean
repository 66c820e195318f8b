import Minilang.Text.Quoted
import Minilang.Value.Basic

/-!
# The text of values

A value as a program prints it.  A string inside another value is quoted.  An array or a record that
stands inside itself is abbreviated there, so that every value has a text.
-/

namespace Minilang.Heap

/-- The text of a record from its fields with their texts.  Fields that are all named by numbers are
written without their names. -/
def recordText (type : Bytes) (fields : List (Bytes × Bytes)) : Bytes :=
  if fields.isEmpty then type
  else if fields.all fun f => (Decimal.readInt? f.1).isSome then
    Bytes.concat [type, "(", Bytes.joinWith ", " (fields.map (·.2)), ")"]
  else
    Bytes.concat [type, " \x7b ",
      Bytes.joinWith ", " (fields.map fun f => Bytes.concat [f.1, ": ", f.2]), " \x7d"]

/-- A part of the text of a value, written while the arrays and records in the state are open. -/
abbrev Printing := StateM (List Value)

/-- The text of an array or a record, which is open while its inside is written.  One that is open
already is abbreviated. -/
def opening (v : Value) (short : Bytes) (inside : Printing Bytes) : Printing Bytes := do
  if v ∈ (← get) then return short
  modify (v :: ·)
  let text ← inside
  modify (·.erase v)
  return text

def part (print : Value → Printing Bytes) : Value → Printing Bytes
  | .string s => return Quoted.text s
  | v => print v

def print (h : Heap) : (depth : Nat) → Value → Printing Bytes
  | depth, v =>
    match v with
    | .null => return "null"
    | .int n => return Decimal.ofInt n.toInt
    | .float x => return x.text
    | .bool b => return if b then "true" else "false"
    | .string s => return s
    | .func name _ => return Bytes.concat ["<fn ", name, ">"]
    | .array ref =>
      let short : Bytes := "[...]"
      match depth with
      | 0 => return short
      | depth + 1 => opening v short do
        let texts ← (h.elems ref).toList.mapM (part (print h depth))
        return Bytes.concat ["[", Bytes.joinWith ", " texts, "]"]
    | .record ref =>
      let r := h.record ref
      let short := Bytes.concat [r.type, " \x7b...\x7d"]
      match depth with
      | 0 => return short
      | depth + 1 => opening v short do
        let texts ← r.fields.mapM fun f => return (f.1, ← part (print h depth) f.2)
        return recordText r.type texts

variable (h : Heap)

def size : Nat :=
  h.arrays.size + h.records.size

/-- The text of a value. -/
def text (v : Value) : Bytes :=
  (Id.run ((h.print (h.size + 1) v).run [])).1

@[simp]
theorem text_string (s : Bytes) : h.text (.string s) = s := rfl

def quotedText (v : Value) : Bytes :=
  match v with
  | .string s => Quoted.text s
  | v => h.text v

end Minilang.Heap
