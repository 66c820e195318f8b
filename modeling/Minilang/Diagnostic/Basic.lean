import Minilang.Source.Span

/-!
# Diagnostics

What a stage of the toolchain reports about a source text: the stage, the stretch of text that the
report is about, and a message.
-/

namespace Minilang

/-- The part of the program that finds an error. -/
inductive Stage where
  | lexical
  | grammar
  | typing
  | lowering
  | codegen
  | runtime
  /-- A stage that has no name, known by its number. -/
  | unnamed (code : Int)
  deriving DecidableEq, Repr

namespace Stage

def ofCode : Int → Stage
  | 0 => .lexical
  | 1 => .grammar
  | 2 => .typing
  | 3 => .lowering
  | 4 => .codegen
  | 5 => .runtime
  | n => .unnamed n

def text : Stage → Bytes
  | .lexical => "lexical error"
  | .grammar => "syntax error"
  | .typing => "type error"
  | .lowering => "ir error"
  | .codegen => "codegen error"
  | .runtime => "runtime error"
  | .unnamed n => Bytes.concat ["Stage(", Decimal.ofInt n, ")"]

end Stage

/-- An error in a text. -/
structure Diagnostic where
  stage : Stage
  span : Span
  /-- The message, without position and stage. -/
  detail : Bytes
  deriving DecidableEq, Repr

namespace Diagnostic

/-- The whole text of a report: the position, if there is one, the stage and the message. -/
def message (d : Diagnostic) : Bytes :=
  if d.span.first.isValid then
    Bytes.concat [d.span.first.text, ": ", d.stage.text, ": ", d.detail]
  else Bytes.concat [d.stage.text, ": ", d.detail]

end Diagnostic

end Minilang
