import Minilang.Tree.Basic
import Minilang.Ty

/-!
# What the checker finds out

The types that a program defines, and the notes on the expressions of a checked tree: the type,
whether the value has to be converted from an integer to a float, and whether a call is one of a
builtin function or builds a variant of an enum.
-/

namespace Minilang

/-- The builtin functions. -/
inductive Builtin where
  | print
  | len
  deriving DecidableEq, Repr

namespace Builtin

def text : Builtin → Bytes
  | .print => "print"
  | .len => "len"

def all : List Builtin :=
  [.print, .len]

def ofName? (name : Bytes) : Option Builtin :=
  all.find? fun b => b.text = name

def nameOf (code : Int) : Bytes :=
  match (if code < 0 then none else all[code.toNat]?) with
  | some b => b.text
  | none => "unknown builtin"

end Builtin

/-- A variant of an enum with the types of its payload. -/
structure Variant where
  enum : Bytes
  name : Bytes
  payload : List Ty
  deriving DecidableEq, Repr

def Variant.recordName (v : Variant) : Bytes :=
  Bytes.concat [v.enum, ".", v.name]

/-- What a type definition defines. -/
inductive DefBody where
  | struct (fields : List (Bytes × Ty))
  | enum (variants : List Variant)
  /-- Another name for a type. -/
  | alias (type : Ty)
  deriving DecidableEq, Repr

/-- A type that a program defines. -/
structure TypeDef where
  name : Bytes
  body : DefBody
  deriving DecidableEq, Repr

def TypeDef.find? (defs : List TypeDef) (name : Bytes) : Option TypeDef :=
  defs.find? fun d => d.name = name

/-- What an expression does beyond its kind. -/
inductive Role where
  | plain
  /-- A call of a builtin function. -/
  | builtin (b : Builtin)
  /-- An expression that builds a variant. -/
  | variant (v : Variant)
  deriving DecidableEq, Repr

/-- What is known of an expression. -/
structure Note where
  /-- The type, unless the expression is part of a name and has none. -/
  type? : Option Ty
  /-- Whether the value, an integer, is used as a float. -/
  widen : Bool
  role : Role
  deriving DecidableEq, Repr

namespace Note

def blank : Note := ⟨none, false, .plain⟩

def ofType (t : Ty) : Note := ⟨some t, false, .plain⟩

def widened (n : Note) : Note := { n with widen := true }

end Note

end Minilang
