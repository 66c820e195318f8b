import Minilang.Text.Decimal
import Minilang.Word

/-!
# Positions and spans

A position is a byte offset with its line and column; lines and columns count from one.  A span goes
from its first byte to its last one, both included.  The position without a line is that of
something which comes from no source text.
-/

namespace Minilang

/-- A place in a text. -/
structure Pos where
  offset : Int
  line : Int
  col : Int
  deriving DecidableEq, Repr, Inhabited

namespace Pos

def none : Pos := ⟨0, 0, 0⟩

def start : Pos := ⟨0, 1, 1⟩

def isValid (p : Pos) : Bool :=
  0 < p.line

def text (p : Pos) : Bytes :=
  if p.isValid then Bytes.concat [Decimal.ofInt p.line, ":", Decimal.ofInt p.col] else "-"

end Pos

/-- The stretch of source text between two positions, both included. -/
structure Span where
  first : Pos
  last : Pos
  deriving DecidableEq, Repr, Inhabited

namespace Span

def none : Span := ⟨.none, .none⟩

def point (p : Pos) : Span := ⟨p, p⟩

def through (s other : Span) : Span := ⟨s.first, other.last⟩

def length (s : Span) : Int :=
  Word.wrap (s.last.offset - s.first.offset + 1)

def text (s : Span) : Bytes :=
  s.first.text

end Span

/-- Something together with the source text it is about. -/
structure Located (α : Type) where
  span : Span
  val : α
  deriving DecidableEq, Repr

end Minilang
