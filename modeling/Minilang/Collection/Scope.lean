import Minilang.Collection.OrderedMap
import Minilang.Text.Bytes

/-!
# Scopes

Scopes give names their values, and may lie inside one another.  A name is looked up in a scope
first and then in the scopes around it.

Scopes are shared: a scope made inside another one sees what is later defined there, and a read-only
view of a scope shows every change of that scope.  So the names live in *frames*, and a scope refers
to its frame and to its parent by number.  A parent is always made before its children.
-/

namespace Minilang

/-- A scope: where its own names are, which scope lies around it, and whether it can be changed. -/
structure Scope where
  frame : Nat
  parent : Option Nat
  writable : Bool
  deriving DecidableEq, Repr

/-- All scopes and the frames of their names. -/
structure Scopes (α : Type) where
  frames : Array (OrderedMap Bytes α)
  scopes : Array Scope

/-- Why a name cannot be assigned. -/
inductive AssignError where
  | undefined (name : Bytes)
  /-- The search for the name reached a scope that cannot be changed. -/
  | readOnly (name : Bytes)
  deriving DecidableEq, Repr

/-- The text of an error.  It names the type of the scopes of strings that cannot be changed. -/
def AssignError.message : AssignError → Bytes
  | .undefined name => Bytes.concat ["cannot assign ", name, ": not defined in scope"]
  | .readOnly name => Bytes.concat ["cannot assign ", name,
      ": scope parent of type *scope.roScope[string] does not support assignment"]

namespace Scopes

variable {α : Type} (s : Scopes α) (id : Nat) (name : Bytes) (parent : Option Nat)

def empty : Scopes α := ⟨#[], #[]⟩

def add (names : OrderedMap Bytes α) (writable : Bool) : Scopes α :=
  ⟨s.frames.push names, s.scopes.push ⟨s.frames.size, parent, writable⟩⟩

def addScope : Scopes α :=
  s.add parent .empty true

def addReadOnly (names : List (Bytes × α)) : Scopes α :=
  s.add parent (.ofList names) false

def addView : Scopes α :=
  match s.scopes[id]? with
  | some scope => { s with scopes := s.scopes.push { scope with writable := false } }
  | none => s

def locals (scope : Scope) : OrderedMap Bytes α :=
  (s.frames[scope.frame]?).getD .empty

def chain (s : Scopes α) (id : Nat) : List Scope :=
  match s.scopes[id]? with
  | none => []
  | some scope =>
    scope :: match scope.parent with
      | some p => if p < id then chain s p else []
      | none => []
termination_by id

def find? : Option α :=
  (s.chain id).findSome? fun scope => (s.locals scope).load? name

def isLocal : Bool :=
  match s.scopes[id]? with
  | some scope => (s.locals scope).contains name
  | none => false

def defineIn (scope : Scope) (name : Bytes) (v : α) : Scopes α :=
  { s with frames := s.frames.modify scope.frame (·.store name v) }

def define (v : α) : Scopes α :=
  match s.scopes[id]? with
  | some scope => s.defineIn scope name v
  | none => s

/-- Changes the value of a name in the first of several scopes that defines it.  All scopes up to
that one have to be writable. -/
def assignIn (s : Scopes α) (name : Bytes) (v : α) : List Scope → Except AssignError (Scopes α)
  | [] => .error (.undefined name)
  | scope :: rest =>
    if !scope.writable then .error (.readOnly name)
    else if (s.locals scope).contains name then .ok (s.defineIn scope name v)
    else assignIn s name v rest

def assign (v : α) : Except AssignError (Scopes α) :=
  s.assignIn name v (s.chain id)

/-- All names in sight, those of the outermost scope first, with the innermost value of each. -/
def items : OrderedMap Bytes α :=
  (s.chain id).foldr (fun scope all =>
    (s.locals scope).toList.foldl (fun m e => m.store e.1 e.2) all) .empty

def localKeys : List Bytes :=
  match s.scopes[id]? with
  | some scope => (s.locals scope).keys.toList
  | none => []

def parent? : Option Nat :=
  (s.scopes[id]?).bind (·.parent)

def localText (render : α → Bytes) (names : OrderedMap Bytes α) : Bytes :=
  if names.size = 0 then "empty"
  else Bytes.joinWith "\n" (names.toList.map fun e => Bytes.concat [e.1, ": ", render e.2])

/-- The text of a scope: that of the scopes around it, and its own names under a rule that holds the
label of its frame. -/
def text (render : α → Bytes) (label : Nat → Bytes) (id : Nat) : Bytes :=
  (s.chain id).foldr (fun scope around => Bytes.concat
    [around, "\n-- ", label scope.frame, " --\n", localText render (s.locals scope), "\n"]) "root"

end Scopes

end Minilang
