import Minilang.Text.Decimal
import Minilang.Word

/-!
# Listings

Numbered and indented lines.  Line numbers are 64-bit integers, padded with zeros to the width of
the last one, and an indented line starts with a tab.
-/

namespace Minilang.Layout

attribute [local instance (20000)] instPowNat

/-- The least numbers that are taken to have two digits, three digits, and so on.  The width of a
number is the whole part of its decimal logarithm, computed in double precision, and one.  From
sixteen digits on the logarithm is too coarse to tell a power of ten from its neighbours. -/
def widthSteps : List Nat :=
  (List.range 14).map (fun k => 10 ^ (k + 1)) ++
    [10 ^ (15 : Nat) + 3, 10 ^ (16 : Nat) - 1, 10 ^ (17 : Nat) - 247, 10 ^ (18 : Nat) - 4928]

def width (last : Nat) : Nat :=
  widthSteps.countP (· ≤ last) + 1

/-- The lines of a text with their numbers, the first line having the number `first`. -/
def numberFrom (first : Int) (text : Bytes) : Bytes :=
  let lines := text.lines
  let digits := width (max (Word.wrap (first + lines.length - 1)) 1).toNat
  (lines.zipIdx.map fun (line, i) =>
    Bytes.concat [Decimal.padded digits (Word.wrap (first + i)), " ", line]).flatten

def number (text : Bytes) : Bytes :=
  numberFrom 1 text

/-- Every line from the given one on with a tab in front of it; lines count from zero. -/
def indentFrom (skip : Int) (text : Bytes) : Bytes :=
  (text.lines.zipIdx.map fun (line, i) => if skip ≤ (i : Int) then 9 :: line else line).flatten

def indent (text : Bytes) : Bytes :=
  indentFrom 0 text

end Minilang.Layout
