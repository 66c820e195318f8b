import Minilang.Source.Span

/-!
# Source files

A named text with access by lines and by spans.
-/

namespace Minilang

/-- A text with a name. -/
structure SourceFile where
  name : Bytes
  text : Bytes

namespace SourceFile

def consPiece (b : UInt8) (pieces : List Bytes) : List Bytes :=
  if b = Bytes.newline then [] :: pieces
  else match pieces with
    | [] => [[b]]
    | piece :: rest => (b :: piece) :: rest

variable (file : SourceFile)

/-- The text cut at its newlines, without them.  There is one piece more than there are newlines. -/
def pieces : List Bytes :=
  file.text.foldr consPiece [[]]

/-- The number of lines.  A text that ends with a newline has an empty last line. -/
def numLines : Nat :=
  file.text.count Bytes.newline + 1

def dropReturns (line : Bytes) : Bytes :=
  (line.reverse.dropWhile (· = 13)).reverse

/-- A line of the file, without what ends it.  Lines count from one, and there is no text outside of
the file. -/
def line (n : Int) : Bytes :=
  if n < 1 then [] else (file.pieces[n.toNat - 1]?.map dropReturns).getD []

/-- The bytes in a span. -/
def slice (s : Span) : Bytes :=
  if s.first.offset < 0 || file.text.length < s.first.offset then []
  else
    let start := s.first.offset.toNat
    let stop := (s.last.offset + 1).toNat
    (file.text.take stop).drop start

end SourceFile

end Minilang
