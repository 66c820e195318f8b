import Minilang.Text.Printable
import Minilang.Text.Rune

/-!
# Quoted texts

The quoted form of a text, in which every character can be seen.  Printable characters stand for
themselves; a backslash, the quote itself and the usual control characters have a short escape;
other characters are written as `\x`, `\u` or `\U` with two, four or eight hexadecimal digits, and a
byte that belongs to no character as `\x` with two digits.
-/

namespace Minilang.Quoted

def hexDigit (d : Nat) : UInt8 :=
  if d % 16 < 10 then UInt8.ofNat (48 + d % 16) else UInt8.ofNat (87 + d % 16)

def hex : (digits : Nat) → Nat → Bytes
  | 0, _ => []
  | k + 1, n => hex k (n / 16) ++ [hexDigit n]

def shortEscape? (c : Nat) : Option UInt8 :=
  match c with
  | 7 => some 97
  | 8 => some 98
  | 9 => some 116
  | 10 => some 110
  | 11 => some 118
  | 12 => some 102
  | 13 => some 114
  | _ => none

/-- A character as it stands inside quotes; `quote` is the code of the quote itself. -/
def ofChar (quote : Nat) (c : Char) : Bytes :=
  let n := c.toNat
  if n = quote || n = 92 then [92, UInt8.ofNat n]
  else if Printable.isPrintable c then String.utf8EncodeChar c
  else match shortEscape? n with
    | some letter => [92, letter]
    | none =>
      if n < 0x80 then 92 :: 120 :: hex 2 n
      else if n < 0x10000 then 92 :: 117 :: hex 4 n
      else 92 :: 85 :: hex 8 n

def ofRune (quote : Nat) : Rune → Bytes
  | .char c => ofChar quote c
  | .stray b => 92 :: 120 :: hex 2 b.toNat

def text (s : Bytes) : Bytes :=
  34 :: (s.runes.flatMap (ofRune 34) ++ [34])

def byte (b : UInt8) : Bytes :=
  39 :: (ofChar 39 (Char.ofNat b.toNat) ++ [39])

end Minilang.Quoted
