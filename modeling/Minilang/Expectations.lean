import Minilang.Text.Blank
import Minilang.Text.Decimal

/-!
# Expectations of a test program

The comments of a test program say what is expected of it: `Want:` the value of `main`, `Output:`
and the comment lines after it what is printed, `Error:` a part of the message of its failure.
-/

namespace Minilang

/-- What the comments of a test program expect. -/
structure Expectations where
  want? : Option Bytes
  output? : Option Bytes
  error? : Option Bytes
  deriving DecidableEq, Repr

namespace Expectations

/-- What can be expected. -/
inductive Directive where
  | want
  | error
  | output
  deriving DecidableEq, Repr

def Directive.lead : Directive → Bytes
  | .want => "Want:"
  | .error => "Error:"
  | .output => "Output:"

/-- Why the directives of a program make no sense. -/
inductive Error where
  | repeated (line : Nat) (d : Directive)
  | empty (line : Nat) (d : Directive)
  | missing
  | conflicting
  deriving DecidableEq, Repr

def Error.message : Error → Bytes
  | .repeated line d =>
    Bytes.concat ["line ", Decimal.ofNat line, ": more than one ", d.lead, " directive"]
  | .empty line d => Bytes.concat ["line ", Decimal.ofNat line, ": empty ", d.lead, " directive"]
  | .missing => Bytes.concat ["no ", Directive.want.lead, ", ", Directive.output.lead, ", or ",
      Directive.error.lead, " directive"]
  | .conflicting => Bytes.concat [Directive.error.lead, " directive cannot be used with ",
      Directive.want.lead, " or ", Directive.output.lead]

/-- What a line is. -/
inductive Line where
  | code
  | comment (text : Bytes)
  | directive (d : Directive) (text : Bytes)
  deriving DecidableEq, Repr

def Directive.text? (d : Directive) (comment : Bytes) : Option Bytes :=
  if d.lead.isPrefixOf comment then some (Blank.trim (comment.drop d.lead.length)) else none

def Line.read (line : Bytes) : Line :=
  match Blank.trim line with
  | 47 :: 47 :: rest =>
    let text := Blank.trim rest
    match Directive.want.text? text with
    | some t => .directive .want t
    | none =>
      match Directive.error.text? text with
      | some t => .directive .error t
      | none =>
        match Directive.output.text? text with
        | some t => .directive .output t
        | none => .comment text
  | _ => .code

/-- What has been found so far, and whether the next comment belongs to the expected output. -/
structure State where
  found : Expectations
  inOutput : Bool

def step (s : State) (number : Nat) : Line → Except Error State
  | .code => .ok { s with inOutput := false }
  | .directive .want text =>
    if s.found.want?.isSome then .error (.repeated number .want)
    else .ok ⟨{ s.found with want? := some text }, false⟩
  | .directive .error text =>
    if s.found.error?.isSome then .error (.repeated number .error)
    else if text.isEmpty then .error (.empty number .error)
    else .ok ⟨{ s.found with error? := some text }, false⟩
  | .directive .output _ =>
    if s.found.output?.isSome then .error (.repeated number .output)
    else .ok ⟨{ s.found with output? := some [] }, true⟩
  | .comment text =>
    if s.inOutput then
      let output := Bytes.concat [s.found.output?.getD [], text, "\n"]
      .ok { s with found := { s.found with output? := some output } }
    else .ok s

/-- What is found in lines. -/
def scan (s : State) (number : Nat) : List Line → Except Error State
  | [] => .ok s
  | l :: ls =>
    match step s number l with
    | .error e => .error e
    | .ok s => scan s (number + 1) ls

/-- The expectations in a text. -/
def parse (src : Bytes) : Except Error Expectations := do
  let s ← scan ⟨⟨none, none, none⟩, false⟩ 1 ((Bytes.pieces Bytes.newline src).map Line.read)
  let e := s.found
  if e.want?.isNone ∧ e.output?.isNone ∧ e.error?.isNone then throw .missing
  else if e.error?.isSome ∧ (e.want?.isSome ∨ e.output?.isSome) then throw .conflicting
  else return e

end Expectations

end Minilang
