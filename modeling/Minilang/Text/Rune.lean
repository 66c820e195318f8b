import Minilang.Text.Bytes

/-!
# Characters of a byte string

A byte string read as UTF-8.  Where the bytes encode a character they become `Rune.char`; a byte
that belongs to no well-formed sequence stays on its own as `Rune.stray`.  Nothing is lost: the
bytes of the runes, one after the other, are the text.
-/

namespace Minilang

/-- A character of a text, or a byte that is part of no character. -/
inductive Rune where
  | char (c : Char)
  | stray (b : UInt8)
  deriving DecidableEq, Repr

namespace Rune

def bytes : Rune → Bytes
  | .char c => String.utf8EncodeChar c
  | .stray b => [b]

def isTail (b : UInt8) : Bool :=
  0x80 ≤ b && b ≤ 0xBF

def tailBits (b : UInt8) : Nat :=
  b.toNat % 64

def ofTwo? (a b : UInt8) : Option Char :=
  if 0xC2 ≤ a && a ≤ 0xDF && isTail b then
    some (Char.ofNat (a.toNat % 32 * 64 + tailBits b))
  else none

/-- Whether `b` may follow the first byte `a` of a sequence of three bytes: overlong forms and
surrogates are excluded. -/
def isSecondOfThree (a b : UInt8) : Bool :=
  (a = 0xE0 && 0xA0 ≤ b && b ≤ 0xBF) || (a = 0xED && 0x80 ≤ b && b ≤ 0x9F) ||
    (0xE1 ≤ a && a ≤ 0xEF && a != 0xED && isTail b)

def ofThree? (a b c : UInt8) : Option Char :=
  if isSecondOfThree a b && isTail c then
    some (Char.ofNat ((a.toNat % 16 * 64 + tailBits b) * 64 + tailBits c))
  else none

/-- Whether `b` may follow the first byte `a` of a sequence of four bytes: overlong forms and
numbers above the last code point are excluded. -/
def isSecondOfFour (a b : UInt8) : Bool :=
  (a = 0xF0 && 0x90 ≤ b && b ≤ 0xBF) || (a = 0xF4 && 0x80 ≤ b && b ≤ 0x8F) ||
    (0xF1 ≤ a && a ≤ 0xF3 && isTail b)

def ofFour? (a b c d : UInt8) : Option Char :=
  if isSecondOfFour a b && isTail c && isTail d then
    some (Char.ofNat
      (((a.toNat % 8 * 64 + tailBits b) * 64 + tailBits c) * 64 + tailBits d))
  else none

def single (a : UInt8) : Rune :=
  if a < 0x80 then .char (Char.ofNat a.toNat) else .stray a

/-- The character of several bytes that starts with `a` and goes on in `rest`, and how many bytes of
`rest` belong to it. -/
def ofFront? (a : UInt8) (rest : Bytes) : Option (Char × Nat) :=
  match rest with
  | b :: c :: d :: _ =>
    (ofTwo? a b).map (·, 1) <|> (ofThree? a b c).map (·, 2) <|> (ofFour? a b c d).map (·, 3)
  | [b, c] => (ofTwo? a b).map (·, 1) <|> (ofThree? a b c).map (·, 2)
  | [b] => (ofTwo? a b).map (·, 1)
  | [] => none

/-- The runes of a text whose first `skip` bytes belong to the last rune of `done`, which holds the
runes before it in reverse order. -/
def scan (skip : Nat) (done : List Rune) : Bytes → List Rune
  | [] => done.reverse
  | a :: rest =>
    match skip with
    | k + 1 => scan k done rest
    | 0 =>
      match ofFront? a rest with
      | some (c, k) => scan k (.char c :: done) rest
      | none => scan 0 (single a :: done) rest

end Rune

namespace Bytes

def runes (text : Bytes) : List Rune :=
  Rune.scan 0 [] text

def ofRunes (rs : List Rune) : Bytes :=
  rs.flatMap Rune.bytes

end Bytes

end Minilang
