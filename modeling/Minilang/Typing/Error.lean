import Minilang.Diagnostic.Basic
import Minilang.Operator
import Minilang.Ty

/-!
# Type errors
-/

namespace Minilang

open Bytes (concat)

/-- Why a tree is not a well-typed program.  Expressions are given by their texts. -/
inductive TypeError where
  | redefinedBuiltinType (name : Bytes)
  | redeclaredType (name : Bytes)
  | duplicateField (field struct : Bytes)
  | duplicateVariant (variant enum : Bytes)
  | recursiveAlias (name : Bytes)
  | undefinedType (name : Bytes)
  | duplicateParam (name : Bytes)
  | redefinedBuiltin (name : Bytes)
  | redeclaredFunc (name : Bytes)
  | nameOfType (name : Bytes)
  | undeclaredMain
  | mainWithParams
  /-- The result type of a function depends on itself. -/
  | recursiveFunc (name : Bytes)
  | cannotReturn (type result : Ty)
  | notEnoughResults (result : Ty)
  | cannotUse (value : Bytes) (type target : Ty) (context : Bytes)
  | captured (name : Bytes)
  | uncalledBuiltin (name : Bytes)
  | typeAsValue (name : Bytes)
  | undefined (name : Bytes)
  | binaryMismatch (op : BinaryOp) (x y : Ty)
  | unaryMismatch (op : UnaryOp) (x : Ty)
  | argumentCount (callee : Bytes) (got want : Nat)
  | notCallable (value : Bytes) (type : Ty)
  | unprintable (type : Ty)
  | noLength (value : Bytes) (type : Ty)
  | notAnEnum (name : Bytes)
  | unknownVariant (enum variant : Bytes)
  | noPayload (variant : Bytes)
  | missingPayload (variant : Bytes) (want : Nat)
  | nonBoolean (value : Bytes) (type : Ty) (context : Bytes)
  | branchMismatch (thenType elseType : Ty)
  | assignToFunc (name : Bytes)
  | notAssignable (target : Bytes)
  | noField (value : Bytes) (type : Ty) (field : Bytes)
  | namedPayload (enum field : Bytes)
  | ambiguousPayload (position : Int) (enum : Bytes) (a b : Ty)
  | noSuchPayload (enum : Bytes) (position : Int)
  | notIndexable (value : Bytes) (type : Ty)
  | badIndex (value : Bytes) (type : Ty)
  | notAStruct (name : Bytes)
  | unknownFieldValue (field struct : Bytes)
  | duplicateFieldValue (field struct : Bytes)
  | missingFieldValue (field struct : Bytes)
  | usedAsValue (value : Bytes) (type : Ty)
  | cannotInfer (name : Bytes)
  | rangeBounds (start stop : Ty)
  | notIterable (value : Bytes) (type : Ty)
  deriving DecidableEq, Repr

namespace TypeError

def message : TypeError → Bytes
  | .redefinedBuiltinType name => concat ["cannot redefine builtin type ", name]
  | .redeclaredType name => concat ["type ", name, " redeclared"]
  | .duplicateField field struct => concat ["duplicate field ", field, " in structure ", struct]
  | .duplicateVariant variant enum => concat ["duplicate variant ", variant, " in enum ", enum]
  | .recursiveAlias name => concat ["invalid recursive type alias ", name]
  | .undefinedType name => concat ["undefined type: ", name]
  | .duplicateParam name => concat ["duplicate parameter ", name]
  | .redefinedBuiltin name => concat ["cannot redefine builtin function ", name]
  | .redeclaredFunc name => concat ["function ", name, " redeclared"]
  | .nameOfType name => concat [name, " redeclared: a type already has this name"]
  | .undeclaredMain => "function main is undeclared"
  | .mainWithParams => "function main must have no parameters"
  | .recursiveFunc name =>
    concat ["function ", name, " is recursive and needs an explicit result type"]
  | .cannotReturn type result =>
    concat ["cannot return ", type.text, ": function returns ", result.text]
  | .notEnoughResults result => concat ["not enough return values: want ", result.text]
  | .cannotUse value type target context =>
    concat ["cannot use ", value, " (type ", type.text, ") as ", target.text, " value in ", context]
  | .captured name => concat ["function literal cannot capture local variable ", name]
  | .uncalledBuiltin name => concat ["builtin function ", name, " must be called"]
  | .typeAsValue name => concat [name, " is a type, not a value"]
  | .undefined name => concat ["undefined: ", name]
  | .binaryMismatch op x y =>
    concat ["invalid operation: operator ", op.text, " not defined on ", x.text, " and ", y.text]
  | .unaryMismatch op x =>
    concat ["invalid operation: operator ", op.text, " not defined on ", x.text]
  | .argumentCount callee got want => concat ["wrong number of arguments in call to ", callee,
      ": got ", Decimal.ofNat got, ", want ", Decimal.ofNat want]
  | .notCallable value type =>
    concat ["invalid operation: cannot call non-function ", value, " (type ", type.text, ")"]
  | .unprintable type => concat ["cannot print a value of type ", type.text]
  | .noLength value type => concat ["invalid argument ", value, " (type ", type.text, ") for len"]
  | .notAnEnum name => concat ["type ", name, " has no variant"]
  | .unknownVariant enum variant => concat ["enum ", enum, " has no variant ", variant]
  | .noPayload variant => concat ["variant ", variant, " has no payload"]
  | .missingPayload variant want =>
    concat ["variant ", variant, " requires ", Decimal.ofNat want, " arguments"]
  | .nonBoolean value type context =>
    concat ["non-boolean condition ", value, " (type ", type.text, ") in ", context]
  | .branchMismatch thenType elseType =>
    concat ["if branches have mismatched types ", thenType.text, " and ", elseType.text]
  | .assignToFunc name => concat ["cannot assign to function ", name]
  | .notAssignable target => concat ["cannot assign to ", target]
  | .noField value type field =>
    concat [value, " (type ", type.text, ") has no field ", field]
  | .namedPayload enum field => concat ["enum ", enum, " has no field ", field]
  | .ambiguousPayload position enum a b => concat ["payload ", Decimal.ofInt position, " of enum ",
      enum, " is ", a.text, " or ", b.text, " depending on the variant"]
  | .noSuchPayload enum position =>
    concat ["no variant of enum ", enum, " has a payload ", Decimal.ofInt position]
  | .notIndexable value type =>
    concat ["invalid operation: cannot index ", value, " (type ", type.text, ")"]
  | .badIndex value type =>
    concat ["invalid index ", value, " (type ", type.text, "): must be int"]
  | .notAStruct name => concat [name, " is not a structure type"]
  | .unknownFieldValue field struct => concat ["unknown field ", field, " in ", struct, " literal"]
  | .duplicateFieldValue field struct =>
    concat ["duplicate field ", field, " in ", struct, " literal"]
  | .missingFieldValue field struct => concat ["missing field ", field, " in ", struct, " literal"]
  | .usedAsValue value type => concat [value, " (type ", type.text, ") used as value"]
  | .cannotInfer name =>
    concat ["cannot infer the type of ", name, ": add a type annotation"]
  | .rangeBounds start stop =>
    concat ["range bounds must be int, got ", start.text, " and ", stop.text]
  | .notIterable value type => concat ["cannot range over ", value, " (type ", type.text, ")"]

def diagnostic (e : Located TypeError) : Diagnostic :=
  ⟨.typing, e.span, e.val.message⟩

end TypeError

end Minilang
