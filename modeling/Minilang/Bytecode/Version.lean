import Minilang.Text.Decimal
import Minilang.Text.Quoted

/-!
# Versions of the file format

A version is `v` and up to three numbers with dots between them; after all three, a pre-release and
a build may follow.  A program reads the files of its own major version that are not newer than it.
-/

namespace Minilang.Version

/-- The numbers of a version, and the identifiers of its pre-release. -/
structure Parts where
  major : Nat
  minor : Nat
  patch : Nat
  prerelease : List Bytes
  deriving DecidableEq, Repr

def isIdentByte (b : UInt8) : Bool :=
  Decimal.isDigit b || (97 ≤ b && b ≤ 122) || (65 ≤ b && b ≤ 90) || b = 45

variable (text : Bytes)

def isIdent : Bool :=
  !text.isEmpty && text.all isIdentByte

def isPadded : Bool :=
  text.all Decimal.isDigit && decide (1 < text.length) && text.head? == some 48

def readNumber? : Option Nat :=
  if isPadded text then none else Decimal.readNat? text

def readPrerelease? : Option (List Bytes) :=
  let ids := Bytes.pieces 46 text
  if ids.all fun i => isIdent i && !isPadded i then some ids else none

/-- Reads what follows the numbers: the pre-release after a minus sign, and the build after a plus
sign. -/
def readSuffix? : Option (List Bytes) :=
  let pre := text.takeWhile (· ≠ 43)
  let build := text.dropWhile (· ≠ 43)
  if build.isEmpty || (Bytes.pieces 46 (build.drop 1)).all isIdent then
    match pre with
    | [] => some []
    | _ :: pre => readPrerelease? pre
  else none

/-- The parts of a version. -/
def read? : Option Parts :=
  match text with
  | 118 :: rest =>
    let numbers := rest.takeWhile fun b => b ≠ 45 && b ≠ 43
    let suffix := rest.dropWhile fun b => b ≠ 45 && b ≠ 43
    match (Bytes.pieces 46 numbers).mapM readNumber? with
    | some [major] => if suffix.isEmpty then some ⟨major, 0, 0, []⟩ else none
    | some [major, minor] => if suffix.isEmpty then some ⟨major, minor, 0, []⟩ else none
    | some [major, minor, patch] =>
      (readSuffix? suffix).map fun pre => ⟨major, minor, patch, pre⟩
    | _ => none
  | _ => none

/-- The version of the format. -/
def current : Bytes := "v1.0.0"

def currentParts : Parts := ⟨1, 0, 0, []⟩

/-- Whether a version is newer than a release; a pre-release is older than its release. -/
def Parts.isNewerThan (v release : Parts) : Bool :=
  decide (release.major < v.major) ||
    (v.major = release.major &&
      (decide (release.minor < v.minor) ||
        (v.minor = release.minor && decide (release.patch < v.patch))))

/-- Why a version is not accepted. -/
inductive Error where
  | invalid (text : Bytes)
  | incompatible (text : Bytes)
  | newer (text : Bytes)
  deriving DecidableEq, Repr

def Error.message : Error → Bytes
  | .invalid text => Bytes.concat ["invalid bytecode format version ", Quoted.text text]
  | .incompatible text =>
    Bytes.concat ["bytecode format version ", text, " incompatible with ", current]
  | .newer text => Bytes.concat ["bytecode format version ", text, " is newer than ", current]

/-- Accepts the versions that can be read. -/
def check : Except Error Unit :=
  match read? text with
  | none => .error (.invalid text)
  | some v =>
    if v.major ≠ currentParts.major then .error (.incompatible text)
    else if v.isNewerThan currentParts then .error (.newer text)
    else .ok ()

end Minilang.Version
