import Minilang.Bytecode.File
import Minilang.CommandLine.Arguments
import Minilang.Diagnostic.Render
import Minilang.FileStore

/-!
# The command line

Commands that compile, run, store and list programs.  A command sees the files it may read, prints
to two streams, may write a file, and ends with or without an error.  Diagnostics go to the second
stream, and so does what is logged.
-/

namespace Minilang.CommandLine

/-! ### Errors -/

/-- Why a file cannot be used. -/
inductive FileError where
  | wrongExtension (name ext : Bytes)
  | notOpened (name : Bytes) (e : OpenError)
  /-- A directory has no text. -/
  | notRead (name : Bytes)
  deriving DecidableEq, Repr

def sourceExtension : Bytes := ".ql"

def bytecodeExtension : Bytes := ".qbc"

namespace FileError

def message : FileError → Bytes
  | .wrongExtension name ext => Bytes.concat ["cannot use ", name, ": extension ",
      Quoted.text ext, " is not ", sourceExtension]
  | .notOpened name e => Bytes.concat ["open ", name, ": ", e.message]
  | .notRead name => Bytes.concat ["read ", name, ": ", OpenError.isDirectory.message]

end FileError

/-- Why a command does not come to a good end. -/
inductive CommandError where
  | noSource
  | files (es : List FileError)
  | notDecoded (name : Bytes) (e : Bytecode.DecodeError)
  | notEncoded (e : Bytecode.EncodeError)
  | notCompiled (failed total : Nat)
  | notExecuted (name : Bytes)
  | notSingle (c : Command) (args : Nat)
  | unknownCommand (name : Bytes)
  | flag (e : FlagError)

namespace CommandError

def message : CommandError → Bytes
  | .noSource => "no source file"
  | .files es => Bytes.joinWith "; " (es.map FileError.message)
  | .notDecoded name e => Bytes.concat ["cannot read ", name, ": ", e.message]
  | .notEncoded e => e.message
  | .notCompiled failed total => Bytes.concat [Decimal.ofNat failed, " of ", Decimal.ofNat total,
      " files failed to compile"]
  | .notExecuted name => Bytes.concat [name, ": execution failed"]
  | .notSingle c args => Bytes.concat [c.text, " expects a single file, got ",
      Decimal.ofNat args, " arguments"]
  | .unknownCommand name => Bytes.concat ["no such command: ", name]
  | .flag e => e.message

end CommandError

/-- What a command works on: files, and what has been printed. -/
structure Session where
  files : FileStore
  stdout : Bytes
  stderr : Bytes

/-- What a command does to a session, unless it fails. -/
abbrev Action := EStateM CommandError Session

def putOut (text : Bytes) : Action Unit :=
  modify fun s => { s with stdout := s.stdout ++ text }

def putErr (text : Bytes) : Action Unit :=
  modify fun s => { s with stderr := s.stderr ++ text }

/-! ### Files -/

def writeFile (name contents : Bytes) : Action Unit := do
  let s ← get
  match s.files.write name contents with
  | .ok files => set { s with files := files }
  | .error e => throw (.files [.notOpened name e])

def extension (name : Bytes) : Bytes :=
  let last := (Bytes.pieces 47 name).getLastD []
  match (Bytes.pieces 46 last).reverse with
  | ending :: _ :: _ => 46 :: ending
  | _ => []

/-- The source file with a name. -/
def readSource (files : FileStore) (name : Bytes) : Except FileError SourceFile :=
  let ext := extension name
  if ext ≠ sourceExtension then .error (.wrongExtension name ext)
  else match files.read name with
    | .error e => .error (.notOpened name e)
    | .ok none => .error (.notRead name)
    | .ok (some text) => .ok ⟨name, text⟩

/-- Reads source files, after those in `done` and the errors in `errors`, the latest first. -/
def readEach (files : FileStore) (done : List SourceFile) (errors : List FileError) :
    List Bytes → List SourceFile × List FileError
  | [] => (done.reverse, errors.reverse)
  | name :: names =>
    match readSource files name with
    | .ok file => readEach files (file :: done) errors names
    | .error e => readEach files done (e :: errors) names

def readSources (names : List Bytes) : Action (List SourceFile) := do
  if names.isEmpty then throw .noSource
  else
    let (done, errors) := readEach (← get).files [] [] names
    if errors.isEmpty then return done else throw (.files errors)

def readProgram (name : Bytes) : Action Bytecode.Program := do
  match (← get).files.read name with
  | .error e => throw (.files [.notOpened name e])
  | .ok contents? =>
    match Bytecode.decode (contents?.getD []) with
    | .ok p => return p
    | .error e => throw (.notDecoded name e)

/-! ### Diagnostics -/
variable (flags : Flags)

def report (file : SourceFile) (f : Failure) : Action Unit :=
  let f := if f.diagnostic?.isSome then f else .other (f.inFile file.name)
  putErr (Bytes.concat [Render.failure (some file) (!flags.noColor) f, "\n"])

def putLog (entries : List Bytes) : Action Unit :=
  putErr (logText "trace: " entries)

def reportEach (flags : Flags) : List (SourceFile × CompileError) → Action Unit
  | [] => return ()
  | (file, e) :: rest => do
    report flags file e.failure
    reportEach flags rest

/-! ### Compiling and running -/

/-- Compiles files, after those that have been compiled or have failed, the latest first. -/
def compileEach (flags : Flags) (done : List (SourceFile × Bytecode.Program))
    (failed : List (SourceFile × CompileError)) :
    List SourceFile →
      Action (List (SourceFile × Bytecode.Program) × List (SourceFile × CompileError))
  | [] => return (done.reverse, failed.reverse)
  | file :: files => do
    let c := compile flags.options file.name file.text
    putLog c.log
    match c.result with
    | .ok p => compileEach flags ((file, p) :: done) failed files
    | .error e => compileEach flags done ((file, e) :: failed) files

/-- Compiles files, and reports every failure. -/
def compileAll (files : List SourceFile) : Action (List (SourceFile × Bytecode.Program)) := do
  let (done, failed) ← compileEach flags [] [] files
  if failed.isEmpty then return done
  else
    reportEach flags failed
    throw (.notCompiled failed.length files.length)

def compileOne (name : Bytes) : Action (SourceFile × Bytecode.Program) := do
  match ← compileAll flags (← readSources [name]) with
  | p :: _ => return p
  | [] => throw .noSource

/-- Runs a program, and shows its output and its fault. -/
def runProgram (file : SourceFile) (p : Bytecode.Program) : Action Unit := do
  let f := execute flags.options p
  putLog f.trace.toList
  putOut f.output.toList.flatten
  match f.result with
  | .ok .null => return ()
  | .ok v => putOut (Bytes.concat [f.heap.text v, "\n"])
  | .error e =>
    report flags file e.failure
    throw (.notExecuted file.name)

def runEach (flags : Flags) : List (SourceFile × Bytecode.Program) → Action Unit
  | [] => return ()
  | (file, p) :: rest => do
    runProgram flags file p
    runEach flags rest

def runFile (name : Bytes) : Action Unit := fun s =>
  match compileOne flags name s with
  | .error _ s => .ok () s
  | .ok (file, p) s =>
    match runProgram flags file p s with
    | .ok () s => .ok () s
    | .error e s => putErr (Bytes.concat [e.message, "\n"]) s

/-! ### The commands -/

namespace Command

def single (c : Command) (args : List Bytes) : Action Bytes :=
  match args with
  | [name] => return name
  | _ => throw (.notSingle c args.length)

/-- Performs a command. -/
def perform (c : Command) (flags : Flags) (args : List Bytes) : Action Unit := do
  match c with
  | .run => runEach flags (← compileAll flags (← readSources args))
  | .check =>
    let _ ← compileAll flags (← readSources args)
  | .build =>
    let name ← c.single args
    let (_, p) ← compileOne flags name
    let output := if flags.output.isEmpty then
        (Bytes.dropEnd? sourceExtension name).getD name ++ bytecodeExtension
      else flags.output
    match Bytecode.encode p with
    | .ok bytes => writeFile output bytes
    | .error e => throw (.notEncoded e)
  | .exec =>
    let name ← c.single args
    runProgram flags ⟨name, []⟩ (← readProgram name)
  | .disasm =>
    let name ← c.single args
    let p ← if extension name = bytecodeExtension then readProgram name
      else do pure (← compileOne flags name).2
    putOut p.text
  | .watch => runFile flags (← c.single args)

end Command

/-- Does what the arguments say.  The name of the command may come after two dashes. -/
def perform (args : List Bytes) : Action Unit :=
  match if args.head? = some delimiter then args.tail else args with
  | [] => return ()
  | name :: args =>
    match Command.ofName? name with
    | none => throw (.unknownCommand name)
    | some c =>
      match c.readArgs args with
      | .error e => throw (.flag e)
      | .ok (flags, args) => c.perform flags args

/-- What comes of an action: the error it ends with, if it does, and what it leaves. -/
def outcome (a : Action Unit) (files : FileStore) : Option CommandError × Session :=
  match a ⟨files, [], []⟩ with
  | .ok () s => (none, s)
  | .error e s => (some e, s)

end Minilang.CommandLine
