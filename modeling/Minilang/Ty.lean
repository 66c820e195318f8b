import Minilang.Text.Bytes

/-!
# Types

The types of values.  `unit` is the type of an expression without a value, and `never` that of an
expression that does not come to an end in its place, such as a block whose last statement returns.
The empty array literal is an array of `never`.

`assignable` tells whether a value of one type can stand where another type is wanted, and `join?`
is the least type that two types are assignable to.
-/

namespace Minilang

/-- The types. -/
inductive Ty where
  | int
  | float
  | bool
  | string
  | unit
  | never
  /-- A structure or an enum of the program. -/
  | named (name : Bytes)
  | array (elem : Ty)
  | func (params : List Ty) (result : Ty)
  deriving Repr, Inhabited

namespace Ty

/-! ### Equality -/

mutual

/-- The types are the same. -/
def same : Ty → Ty → Bool
  | .int, .int | .float, .float | .bool, .bool | .string, .string | .unit, .unit
  | .never, .never => true
  | .named a, .named b => a = b
  | .array a, .array b => a.same b
  | .func ps r, .func qs t => sameAll ps qs && r.same t
  | _, _ => false

def sameAll : List Ty → List Ty → Bool
  | [], [] => true
  | a :: as, b :: bs => a.same b && sameAll as bs
  | _, _ => false

end

mutual

theorem same_iff : ∀ a b : Ty, a.same b = true ↔ a = b
  | .int, b => by cases b <;> simp [same]
  | .float, b => by cases b <;> simp [same]
  | .bool, b => by cases b <;> simp [same]
  | .string, b => by cases b <;> simp [same]
  | .unit, b => by cases b <;> simp [same]
  | .never, b => by cases b <;> simp [same]
  | .named _, b => by cases b <;> simp [same]
  | .array a, b => by cases b <;> simp [same, same_iff a]
  | .func ps r, b => by cases b <;> simp [same, sameAll_iff ps, same_iff r]

theorem sameAll_iff : ∀ as bs : List Ty, sameAll as bs = true ↔ as = bs
  | [], bs => by cases bs <;> simp [sameAll]
  | a :: as, bs => by cases bs <;> simp [sameAll, same_iff a, sameAll_iff as]

end

instance : DecidableEq Ty := fun a b =>
  decidable_of_iff (a.same b = true) (same_iff a b)

/-! ### Names -/

def primitive? (name : Bytes) : Option Ty :=
  if name = "int" then some .int
  else if name = "float" then some .float
  else if name = "bool" then some .bool
  else if name = "string" then some .string
  else none

mutual

/-- A type as it is written in a source text.  The result of a function without one is left out. -/
def text : Ty → Bytes
  | .int => "int"
  | .float => "float"
  | .bool => "bool"
  | .string => "string"
  | .unit => "unit"
  | .never => "never"
  | .named name => name
  | .array elem => Bytes.concat ["[", elem.text, "]"]
  | .func params result =>
    let head := Bytes.concat ["fn(", Bytes.joinWith ", " (texts params), ")"]
    match result with
    | .unit => head
    | r => Bytes.concat [head, " -> ", r.text]

def texts : List Ty → List Bytes
  | [] => []
  | t :: ts => t.text :: texts ts

end

/-! ### Use of values -/

def isNumeric : Ty → Bool
  | .int | .float => true
  | _ => false

def isEmptyArray : Ty → Bool
  | .array .never => true
  | _ => false

/-- How a value of one type can be used as a value of another one. -/
inductive Assignability where
  | no
  | yes
  /-- The value has to be converted from an integer to a float. -/
  | widened
  deriving DecidableEq, Repr

/-- If a value of one type can be used as one of another. -/
def assignable (value target : Ty) : Assignability :=
  if value = target then .yes
  else match value, target with
    | .never, _ => .yes
    | .int, .float => .widened
    | .array .never, .array _ => .yes
    | _, _ => .no

/-- If values of two types can be compared. -/
def comparable (a b : Ty) : Bool :=
  if a.isNumeric && b.isNumeric then true
  else if a = .unit || a = .never then false
  else a = b

/-- The type of a value that is of one of two types. -/
def join? (a b : Ty) : Option Ty :=
  if a = .never then some b
  else if b = .never then some a
  else if a = b then some a
  else if a.isNumeric && b.isNumeric then some .float
  else match a, b with
    | .array .never, .array _ => some b
    | .array _, .array .never => some a
    | _, _ => none

end Ty

end Minilang
