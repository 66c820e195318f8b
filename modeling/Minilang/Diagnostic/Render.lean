import Minilang.Diagnostic.Failure
import Minilang.Source.File

/-!
# Diagnostics for a reader

A report is shown with the line it is about and the reported part underlined:

    error: type error
     --> main.ql:2:16
      |
    2 |   let x: int = "hello";
      |                ^^^^^^^ cannot use ...

A span of several lines is underlined to the end of its first line, and at least one mark is shown.
-/

namespace Minilang.Render

/-- The marks put around the parts of a shown report. -/
structure Palette where
  header : Bytes → Bytes
  focus : Bytes → Bytes
  margin : Bytes → Bytes

def colored (on off : Bytes) (text : Bytes) : Bytes :=
  Bytes.concat ["\x1b[", on, "m", text, "\x1b[", off, "m"]

def palette (color : Bool) : Palette :=
  if color then ⟨colored "31;1" "0;22", colored "31" "0", colored "34" "0"⟩ else ⟨id, id, id⟩

/-- A line cut in three: before the first column, from there to the last column, and after it.
Columns outside of the line are moved to its ends; what comes before the least 64-bit integer is the
greatest one. -/
def splitLine (line : Bytes) (first last : Int) : Bytes × Bytes × Bytes :=
  let start := min (max (Word.wrap (first - 1)) 0) line.length
  let stop := min (max last start) line.length
  (line.take start.toNat, (line.take stop.toNat).drop start.toNat, line.drop stop.toNat)

def lastColumn (line : Bytes) (span : Span) : Int :=
  if span.last.line ≠ span.first.line ∨ span.last.col < span.first.col then line.length
  else span.last.col

def withLine (p : Palette) (file : SourceFile) (d : Diagnostic) : Bytes :=
  let n := Decimal.ofInt d.span.first.line
  let pad := Bytes.repeated n.length 32
  let line := file.line d.span.first.line
  let (before, focus, after) := splitLine line d.span.first.col (lastColumn line d.span)
  let marks := Bytes.repeated (max focus.length 1) 94
  Bytes.joinWith "\n" [
    p.header (Bytes.concat ["error: ", d.stage.text]),
    Bytes.concat [pad, p.margin "-->", " ", file.name, ":", d.span.first.text],
    p.margin (Bytes.concat [pad, " |"]),
    Bytes.concat [p.margin (Bytes.concat [n, " |"]), " ", before, p.focus focus, after],
    Bytes.concat [p.margin (Bytes.concat [pad, " |"]), " ", Bytes.repeated before.length 32,
      p.focus (Bytes.concat [marks, " ", d.detail])]]

/-- A failure as it is shown: with the line that it is about if it has a place in the given file. -/
def failureWith (p : Palette) (file : Option SourceFile) (f : Failure) : Bytes :=
  match f.diagnostic?, file with
  | none, _ => p.header "error: " ++ f.message
  | some d, some file =>
    if d.span.first.isValid && d.span.first.line ≤ file.numLines then withLine p file d
    else p.header (Bytes.concat ["error: ", d.stage.text, ": "]) ++ d.detail
  | some d, none => p.header (Bytes.concat ["error: ", d.stage.text, ": "]) ++ d.detail

/-- The text of a failure, with the line that it is about. -/
def failure (file : Option SourceFile) (color : Bool) (f : Failure) : Bytes :=
  failureWith (palette color) file f

end Minilang.Render
