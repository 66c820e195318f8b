import Minilang.Tac.Basic

/-!
# Listings of three-address code
-/

namespace Minilang.Tac

def binaryText : OpCode BinaryOp → Bytes
  | .known op => op.text
  | .unknown code => Bytes.concat ["BinOp(", Decimal.ofInt code, ")"]

def binaryOfCode (code : Int) : OpCode BinaryOp :=
  match BinaryOp.ofCode? code with
  | some op => .known op
  | none => .unknown code

def unaryText : OpCode Primitive → Bytes
  | .known .neg => "neg"
  | .known .not => "not"
  | .known .len => "len"
  | .known .toFloat => "itof"
  | .unknown code => Bytes.concat ["UnOp(", Decimal.ofInt code, ")"]

def unaryOfCode (code : Int) : OpCode Primitive :=
  match Primitive.ofCode? code with
  | some op => .known op
  | none => .unknown code

namespace Lit

def text : Lit → Bytes
  | .int n => Decimal.ofInt n.toInt
  | .float x => x.text
  | .bool b => if b then "true" else "false"
  | .string s => Quoted.text s
  | .func name => Bytes.concat ["@", name]
  | .invalid _ => "<invalid literal>"

def zeroOfCode (code : Int) : Lit :=
  if code = 0 then .int 0
  else if code = 1 then .float .zero
  else if code = 2 then .bool false
  else if code = 3 then .string []
  else if code = 4 then .func []
  else .invalid code

end Lit

def regText (r : Nat) : Bytes :=
  Bytes.concat ["v", Decimal.ofNat r]

namespace Operand

def text : Operand → Bytes
  | .reg r => regText r
  | .lit l => l.text
  | .missing => "%!s(<nil>)"

def isMissing : Operand → Bool
  | .missing => true
  | _ => false

end Operand

/-- What an instruction lacks, so that it cannot be written: an operand in a list, or the values of
fields after the first `count` of them. -/
inductive Gap where
  | operand
  | values (count : Nat)
  deriving DecidableEq, Repr

namespace Gap

def cause : Gap → Bytes
  | .operand => "invalid memory address or nil pointer dereference"
  | .values count => Bytes.concat ["index out of range [", Decimal.ofNat count, "] with length ",
      Decimal.ofNat count]

def text (g : Gap) : Bytes :=
  Bytes.concat ["%!s(PANIC=String method: runtime error: ", g.cause, ")"]

end Gap

def fieldGap? (count : Nat) : List Bytes → List Operand → Option Gap
  | [], _ => none
  | _ :: _, [] => some (.values count)
  | _ :: fields, v :: values => if v.isMissing then some .operand else fieldGap? count fields values

def operandTexts (xs : List Operand) : Bytes :=
  Bytes.joinWith ", " (xs.map Operand.text)

namespace Instr

def gap? : Instr → Option Gap
  | .call _ _ xs | .array _ xs => if xs.any Operand.isMissing then some .operand else none
  | .record _ _ fields values => fieldGap? values.length fields values
  | .print x => if x.isMissing then some .operand else none
  | _ => none

def form : Instr → Bytes
  | .assign d x => Bytes.concat [regText d, " = ", x.text]
  | .binary d op x y =>
    Bytes.concat [regText d, " = ", x.text, " ", binaryText op, " ", y.text]
  | .unary d op x => Bytes.concat [regText d, " = ", unaryText op, " ", x.text]
  | .call d callee args =>
    Bytes.concat [regText d, " = call ", callee.text, "(", operandTexts args, ")"]
  | .ret none => "return"
  | .ret (some x) => Bytes.concat ["return ", x.text]
  | .jumpUnless x l => Bytes.concat ["ifnot ", x.text, " goto ", l]
  | .jump l => Bytes.concat ["goto ", l]
  | .label l => Bytes.concat [l, ":"]
  | .array d xs => Bytes.concat [regText d, " = [", operandTexts xs, "]"]
  | .index d x i => Bytes.concat [regText d, " = ", x.text, "[", i.text, "]"]
  | .setIndex x i v => Bytes.concat [x.text, "[", i.text, "] = ", v.text]
  | .field d x name => Bytes.concat [regText d, " = ", x.text, ".", name]
  | .setField x name v => Bytes.concat [x.text, ".", name, " = ", v.text]
  | .record d type fields values =>
    let entries := (fields.zip values).map fun (f, v) => Bytes.concat [f, ": ", v.text]
    Bytes.concat [regText d, " = ", type, " \x7b", Bytes.joinWith ", " entries, "\x7d"]
  | .print x => Bytes.concat ["print ", x.text]

def text (i : Instr) : Bytes :=
  match i.gap? with
  | some gap => gap.text
  | none => i.form

def line (i : Instr) : Bytes :=
  Bytes.concat [if i.label?.isSome then "" else "\t", i.text, "\n"]

end Instr

namespace Func

def text (f : Func) : Bytes :=
  let params := f.params.zipIdx.map fun (name, i) => Bytes.concat [regText i, " ", name]
  Bytes.concat ["func ", f.name, "(", Bytes.joinWith ", " params, ") \x7b\n",
    Bytes.concat (f.body.map fun i => i.val.line), "\x7d\n"]

end Func

namespace Program

def text (p : Program) : Bytes :=
  Bytes.joinWith "\n" (p.funcs.map Func.text)

end Program

end Minilang.Tac
