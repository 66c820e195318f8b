import Minilang.Diagnostic.Fault

/-!
# Failures

Whatever can go wrong for a user of the toolchain: a report about a source text, a fault of a
running program, any other message, or one of these inside a context that says where it happened.
-/

namespace Minilang

/-- Something that went wrong. -/
inductive Failure where
  | other (text : Bytes)
  | diagnosed (d : Diagnostic)
  | faulted (f : Fault)
  /-- A failure with a text in front of its message. -/
  | within (context : Bytes) (cause : Failure)
  deriving DecidableEq, Repr

namespace Failure

def message : Failure → Bytes
  | .other text => text
  | .diagnosed d => d.message
  | .faulted f => f.message
  | .within context cause => context ++ cause.message

def diagnostic? : Failure → Option Diagnostic
  | .other _ => none
  | .diagnosed d => some d
  | .faulted f => some f.diagnostic
  | .within _ cause => cause.diagnostic?

def fault? : Failure → Option Fault
  | .faulted f => some f
  | .within _ cause => cause.fault?
  | _ => none

def internal (cause : Failure) : Failure :=
  .within "internal compiler error, please report it: " cause

/-- A failure as the caller of a stage gets it.  The text is the same; the report is no longer at
the top. -/
def traced (cause : Failure) : Failure :=
  .within [] cause

/-- The text of a failure in a file.  A report at the top takes the name of the file into its
position; any other failure gets the name in front. -/
def inFile (name : Bytes) : Failure → Bytes
  | .diagnosed d =>
    if d.span.first.isValid then Bytes.concat [name, ":", d.message]
    else Bytes.concat [name, ": ", d.message]
  | f => Bytes.concat [name, ": ", f.message]

end Failure

end Minilang
