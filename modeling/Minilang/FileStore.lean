import Minilang.Text.Bytes

/-!
# Files and directories

A store of files in a tree of directories, and the names that lead to them.  A name is a sequence of
parts with slashes between them.  It starts at the root if its first byte is a slash, and otherwise
at the working directory; a single dot stays in a directory, and two dots go to the one above.  All
parts but the last have to be directories that exist.
-/

namespace Minilang

/-- Where a path starts. -/
inductive Base where
  | root
  /-- The directory that many levels above the working directory. -/
  | above (levels : Nat)
  deriving DecidableEq, Repr

/-- A place in the tree of directories.  The innermost part of its path comes first. -/
structure Location where
  base : Base
  path : List Bytes
  deriving DecidableEq, Repr

namespace Location

def root : Location := ⟨.root, []⟩

def working : Location := ⟨.above 0, []⟩

def child (dir : Location) (name : Bytes) : Location :=
  { dir with path := name :: dir.path }

def parent : Location → Location
  | ⟨base, _ :: path⟩ => ⟨base, path⟩
  | ⟨.above n, []⟩ => ⟨.above (n + 1), []⟩
  | ⟨.root, []⟩ => root

def text (l : Location) : Bytes :=
  let start : List Bytes := match l.base with
    | .root => [[]]
    | .above n => List.replicate n ".."
  Bytes.joinWith "/" (start ++ l.path.reverse)

end Location

/-- Why a name cannot be opened. -/
inductive OpenError where
  | noSuchFile
  | notADirectory
  | isDirectory
  | nameTooLong
  /-- The name holds a zero byte. -/
  | invalidName
  deriving DecidableEq, Repr

def OpenError.message : OpenError → Bytes
  | .noSuchFile => "no such file or directory"
  | .notADirectory => "not a directory"
  | .isDirectory => "is a directory"
  | .nameTooLong => "file name too long"
  | .invalidName => "invalid argument"

/-- A name of a file, in parts. -/
structure FileName where
  absolute : Bool
  parts : List Bytes
  /-- Whether a slash comes after the last part. -/
  trailing : Bool
  deriving DecidableEq, Repr

namespace FileName

def dot : Bytes := "."

def dots : Bytes := ".."

def maxLength : Nat := 4095

def maxPart : Nat := 255

def ofBytes (name : Bytes) : FileName where
  absolute := name.head? = some 47
  parts := (Bytes.pieces 47 name).filter (· ≠ [])
  trailing := name.getLast? = some 47

def read (name : Bytes) : Except OpenError FileName :=
  if 0 ∈ name then .error .invalidName
  else if name = [] then .error .noSuchFile
  else if maxLength < name.length then .error .nameTooLong
  else .ok (ofBytes name)

def start (name : FileName) : Location :=
  if name.absolute then .root else .working

def location (name : FileName) : Location :=
  name.parts.foldl (fun l part =>
    if part = dot then l else if part = dots then l.parent else l.child part) name.start

end FileName

/-- Files with their contents, and directories besides the root, the working directory and those
above it. -/
structure FileStore where
  files : List (Location × Bytes)
  directories : List Location

namespace FileStore

def empty : FileStore := ⟨[], []⟩

variable (s : FileStore) (l : Location)

/-- The contents of a file. -/
def get? : Option Bytes :=
  (s.files.find? fun f => f.1 = l).map (·.2)

def isDirectory : Bool :=
  l.path.isEmpty || l ∈ s.directories

def insert (contents : Bytes) : FileStore :=
  { s with files := (l, contents) :: s.files.filter fun f => f.1 ≠ l }

def insertDirectory : FileStore :=
  { s with directories := l :: s.directories }

def workingFiles : List (Bytes × Bytes) :=
  s.files.filterMap fun f =>
    match f.1 with
    | ⟨.above 0, [name]⟩ => some (name, f.2)
    | _ => none

def enter (dir : Location) (part : Bytes) : Except OpenError Location :=
  if part = FileName.dot then .ok dir
  else if part = FileName.dots then .ok dir.parent
  else if FileName.maxPart < part.length then .error .nameTooLong
  else if s.isDirectory (dir.child part) then .ok (dir.child part)
  else if (s.get? (dir.child part)).isSome then .error .notADirectory
  else .error .noSuchFile

/-- What a name leads to before its last part has been looked up. -/
inductive Target where
  | directory
  /-- Something in a directory, with its place. -/
  | entry (l : Location)
  deriving DecidableEq, Repr

def follow (name : FileName) : Except OpenError Target := do
  match name.parts.reverse with
  | [] => return .directory
  | last :: before =>
    let dir ← before.reverse.foldlM s.enter name.start
    if last = FileName.dot ∨ last = FileName.dots then return .directory
    else return .entry (dir.child last)

def tooLong : Bool :=
  l.path.head?.any fun part => FileName.maxPart < part.length

/-- The contents of the file with a name, or none for a directory. -/
def read (name : Bytes) : Except OpenError (Option Bytes) := do
  let name ← FileName.read name
  match ← s.follow name with
  | .directory => return none
  | .entry l =>
    if tooLong l then throw .nameTooLong
    else if s.isDirectory l then return none
    else match s.get? l with
      | none => throw .noSuchFile
      | some contents => if name.trailing then throw .notADirectory else return some contents

/-- Writes the file with a name. -/
def write (name contents : Bytes) : Except OpenError FileStore := do
  let name ← FileName.read name
  match ← s.follow name with
  | .directory => throw .isDirectory
  | .entry l =>
    if name.trailing then throw .isDirectory
    else if tooLong l then throw .nameTooLong
    else if s.isDirectory l then throw .isDirectory
    else return s.insert l contents

end FileStore

end Minilang
