import Minilang.Compiler

/-!
# Arguments of commands

A command has a name, flags and other arguments, mostly names of files.  A flag starts with one dash
or two.  Its value comes after an equals sign, or, if it is not a truth value, in the next argument.
Flags may stand after other arguments as well; what comes after an argument of two dashes is not a
flag.
-/

namespace Minilang.CommandLine

/-! ### Commands and flags -/

/-- The commands. -/
inductive Command where
  /-- Compile and run source files. -/
  | run
  /-- Compile source files. -/
  | check
  /-- Compile a source file and store its bytecode. -/
  | build
  /-- Run a bytecode file. -/
  | exec
  /-- List the bytecode of a file. -/
  | disasm
  /-- Run a source file whenever it changes. -/
  | watch
  deriving DecidableEq, Repr

/-- The flags. -/
inductive Flag where
  /-- Show diagnostics without colours. -/
  | noColor
  /-- Log the bytecode and every instruction that is executed. -/
  | trace
  /-- Do not fold constants. -/
  | noOpt
  /-- The name of the bytecode file. -/
  | output
  deriving DecidableEq, Repr

def Flag.names : Flag → List Bytes
  | .noColor => ["no-color"]
  | .trace => ["trace"]
  | .noOpt => ["no-opt"]
  | .output => ["output", "o"]

namespace Command

def text : Command → Bytes
  | .run => "run"
  | .check => "check"
  | .build => "build"
  | .exec => "exec"
  | .disasm => "disasm"
  | .watch => "watch"

def short : Command → Bytes
  | .run => "r"
  | .check => "c"
  | .build => "b"
  | .exec => "x"
  | .disasm => "d"
  | .watch => "w"

def all : List Command :=
  [.run, .check, .build, .exec, .disasm, .watch]

def ofName? (name : Bytes) : Option Command :=
  all.find? fun c => c.text = name ∨ c.short = name

def flags : Command → List Flag
  | .run | .watch => [.noColor, .trace, .noOpt]
  | .check | .disasm => [.noColor, .noOpt]
  | .build => [.noColor, .trace, .noOpt, .output]
  | .exec => [.noColor, .trace]

def flag? (c : Command) (name : Bytes) : Option Flag :=
  c.flags.find? fun f => name ∈ f.names

end Command

/-- The flags that are set. -/
structure Flags where
  noColor : Bool
  trace : Bool
  noOpt : Bool
  output : Bytes
  deriving DecidableEq, Repr

def Flags.unset : Flags := ⟨false, false, false, []⟩

def Flags.options (f : Flags) : Options :=
  { optimize := !f.noOpt, tracing := f.trace }

/-! ### Flags before other arguments -/

def delimiter : Bytes := "--"

/-- Whether an argument is written as a flag of a command, with one dash to three. -/
def Command.isFlag (c : Command) (arg : Bytes) : Bool :=
  let dashes := (arg.takeWhile (· = 45)).length
  let name := (arg.drop (min dashes 3)).takeWhile (· ≠ 61)
  0 < dashes && arg ≠ [45] && arg ≠ delimiter && (c.flag? name).isSome

/-- The arguments with the flags moved to the front, after the flags in `front` and the other
arguments in `others`, the latest first; `value` tells whether the value of a flag may follow. -/
def Command.flagsFirst (c : Command) (front others : List Bytes) (value : Bool) :
    List Bytes → List Bytes
  | [] => front.reverse ++ others.reverse
  | arg :: args =>
    if value ∧ !c.isFlag arg then c.flagsFirst (arg :: front) others false args
    else if arg = delimiter then front.reverse ++ delimiter :: (others.reverse ++ args)
    else if c.isFlag arg then c.flagsFirst (arg :: front) others (61 ∉ arg) args
    else c.flagsFirst front (arg :: others) value args

/-! ### Reading flags -/

/-- What is wrong with a flag. -/
inductive FlagError where
  | malformed (arg : Bytes)
  | unknown (name : Bytes)
  | withoutValue (name : Bytes)
  | notBool (name value : Bytes)
  deriving DecidableEq, Repr

def FlagError.message : FlagError → Bytes
  | .malformed arg => Bytes.concat ["bad flag syntax: ", arg]
  | .unknown name => Bytes.concat ["flag provided but not defined: -", name]
  | .withoutValue name => Bytes.concat ["flag needs an argument: -", name]
  | .notBool name value => Bytes.concat ["invalid boolean value ", Quoted.text value, " for -",
      name, ": parse error"]

def readBool? (text : Bytes) : Option Bool :=
  let trues : List Bytes := ["1", "t", "T", "TRUE", "true", "True"]
  let falses : List Bytes := ["0", "f", "F", "FALSE", "false", "False"]
  if text ∈ trues then some true else if text ∈ falses then some false else none

def splitFlag (text : Bytes) : Bytes × Option Bytes :=
  let name := text.takeWhile (· ≠ 61)
  match text.dropWhile (· ≠ 61) with
  | [] => (name, none)
  | _ :: value => (name, some value)

def flagText? : Bytes → Option Bytes
  | [45] => none
  | 45 :: 45 :: text => some text
  | 45 :: text => some text
  | _ => none

def Flags.setBool (flags : Flags) (f : Flag) (value : Bool) : Flags :=
  match f with
  | .noColor => { flags with noColor := value }
  | .trace => { flags with trace := value }
  | .noOpt => { flags with noOpt := value }
  | .output => flags

def Command.readFlags (c : Command) (flags : Flags) :
    List Bytes → Except FlagError (Flags × List Bytes)
  | [] => .ok (flags, [])
  | arg :: args =>
    if arg = delimiter then .ok (flags, args)
    else
      match flagText? arg with
      | none => .ok (flags, arg :: args)
      | some text =>
        let (name, value?) := splitFlag text
        if name = [] ∨ name.head? = some 45 then .error (.malformed arg)
        else match c.flag? name with
          | none => .error (.unknown name)
          | some .output =>
            match value?, args with
            | some value, args => c.readFlags { flags with output := value } args
            | none, value :: args => c.readFlags { flags with output := value } args
            | none, [] => .error (.withoutValue name)
          | some f =>
            match value? with
            | none => c.readFlags (flags.setBool f true) args
            | some value =>
              match readBool? value with
              | some b => c.readFlags (flags.setBool f b) args
              | none => .error (.notBool name value)

/-- The flags and the other arguments. -/
def Command.readArgs (c : Command) (args : List Bytes) : Except FlagError (Flags × List Bytes) :=
  c.readFlags .unset (c.flagsFirst [] [] false args)

end Minilang.CommandLine
