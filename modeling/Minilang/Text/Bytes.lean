/-!
# Byte strings

Every text of the language is a sequence of bytes: source code, names, string values, messages and
listings.  Nothing requires it to be valid UTF-8, and lengths, offsets and columns count bytes.

String literals stand for their UTF-8 bytes through a coercion, so that a message is written as a
list of pieces: `concat ["undefined: ", name]`.
-/

namespace Minilang

/-- Texts are bytes. -/
abbrev Bytes := List UInt8

namespace Bytes

def ofString (s : String) : Bytes :=
  s.toList.flatMap String.utf8EncodeChar

instance : Coe String Bytes := ⟨ofString⟩

instance : LawfulBEq Bytes := inferInstance

def concat (parts : List Bytes) : Bytes :=
  parts.flatten

def joinWith (sep : Bytes) (parts : List Bytes) : Bytes :=
  (parts.intersperse sep).flatten

def repeated (n : Nat) (b : UInt8) : Bytes :=
  List.replicate n b

def newline : UInt8 := 10

def consLine (b : UInt8) (rest : List Bytes) : List Bytes :=
  if b = newline then [b] :: rest
  else match rest with
    | [] => [[b]]
    | line :: more => (b :: line) :: more

/-- The lines of a text.  Each line keeps the newline that ends it; a text that ends with a newline
has no empty line after it. -/
def lines (text : Bytes) : List Bytes :=
  text.foldr consLine []

def pieces (sep : UInt8) (text : Bytes) : List Bytes :=
  text.foldr (fun b rest =>
    if b = sep then [] :: rest
    else match rest with
      | [] => [[b]]
      | p :: ps => (b :: p) :: ps) [[]]

def dropEnd? (ending text : Bytes) : Option Bytes :=
  if ending.isSuffixOf text then some (text.take (text.length - ending.length)) else none

end Bytes

end Minilang
