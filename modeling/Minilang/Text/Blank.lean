import Minilang.Text.Rune

/-!
# White space

The characters with Unicode's white space property, and texts without such characters at their
ends.
-/

namespace Minilang.Blank

/-- White space as ranges of code points, both ends included, in ascending order. -/
def ranges : List (Nat × Nat) := [
  (0x09, 0x0D), (0x20, 0x20), (0x85, 0x85), (0xA0, 0xA0), (0x1680, 0x1680), (0x2000, 0x200A),
  (0x2028, 0x2029), (0x202F, 0x202F), (0x205F, 0x205F), (0x3000, 0x3000)
]

def isBlank : Rune → Bool
  | .char c => ranges.any fun r => r.1 ≤ c.toNat && c.toNat ≤ r.2
  | .stray _ => false

def trim (text : Bytes) : Bytes :=
  Bytes.ofRunes ((text.runes.dropWhile isBlank).reverse.dropWhile isBlank).reverse

end Minilang.Blank
