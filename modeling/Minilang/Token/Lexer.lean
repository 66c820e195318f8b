import Minilang.Token.Basic

/-!
# Reading tokens

The tokens of a source text.  White space and comments, from two slashes to the end of the line,
separate tokens and are skipped.  Of two tokens that could start at a place the longer one is read.
No token goes over the end of a line, so the span of a token follows from its first position and the
number of its bytes.
-/

namespace Minilang

/-- Why a text has no token at some place. -/
inductive LexError where
  | unexpected (b : UInt8)
  | unterminated
  | unknownEscape (b : UInt8)
  deriving DecidableEq, Repr

def LexError.message : LexError → Bytes
  | .unexpected b => Bytes.concat ["unexpected character ", Quoted.byte b]
  | .unterminated => "unterminated string literal"
  | .unknownEscape b =>
    Bytes.concat ["unknown escape sequence \\", String.utf8EncodeChar (Char.ofNat b.toNat)]

namespace Pos

def after (p : Pos) (b : UInt8) : Pos :=
  if b = Bytes.newline then ⟨p.offset + 1, p.line + 1, 1⟩ else ⟨p.offset + 1, p.line, p.col + 1⟩

def shift (p : Pos) (n : Nat) : Pos :=
  ⟨p.offset + n, p.line, p.col + n⟩

end Pos

def Span.ofLength (p : Pos) (n : Nat) : Span :=
  ⟨p, p.shift (n - 1)⟩

namespace Lexer

/-- A place in a text: the position, and the bytes that follow. -/
structure Cursor where
  pos : Pos
  rest : Bytes

variable (c : Cursor) (b : UInt8) (text : Bytes)

def Cursor.advance (n : Nat) : Cursor :=
  ⟨c.pos.shift n, c.rest.drop n⟩

/-! ### Classes of bytes -/

def isSpace : Bool :=
  b = 32 || b = 9 || b = 13 || b = 10

def isLetter : Bool :=
  b = 95 || (97 ≤ b && b ≤ 122) || (65 ≤ b && b ≤ 90)

def isWordByte : Bool :=
  isLetter b || Decimal.isDigit b

/-! ### Between tokens -/

/-- Skips white space and comments; `comment` tells whether the text starts inside a comment. -/
def skipFrom (comment : Bool) (p : Pos) : Bytes → Cursor
  | [] => ⟨p, []⟩
  | b :: rest =>
    if comment then skipFrom (b ≠ Bytes.newline) (p.after b) rest
    else if isSpace b then skipFrom false (p.after b) rest
    else if b = 47 && rest.head? = some 47 then skipFrom true (p.after b) rest
    else ⟨p, b :: rest⟩

def skip : Cursor :=
  skipFrom false c.pos c.rest

/-! ### Single tokens -/

def escape? : Option UInt8 :=
  match b with
  | 110 => some 10
  | 116 => some 9
  | 114 => some 13
  | 48 => some 0
  | 92 => some 92
  | 34 => some 34
  | _ => none

/-- What follows the opening quote of a string literal. -/
inductive StringBody where
  /-- The value, and the number of bytes up to the closing quote, which is included. -/
  | closed (value : Bytes) (length : Nat)
  | unterminated
  /-- The number of bytes before the backslash, and the byte after it. -/
  | unknownEscape (length : Nat) (b : UInt8)
  deriving DecidableEq, Repr

/-- Reads the rest of a string literal.  `done` holds the value so far in reverse order, `n` counts
the bytes read. -/
def stringBody (done : Bytes) (n : Nat) : Bytes → StringBody
  | [] => .unterminated
  | b :: rest =>
    if b = Bytes.newline then .unterminated
    else if b = 34 then .closed done.reverse (n + 1)
    else if b = 92 then
      match rest with
      | [] => .unterminated
      | e :: rest =>
        match escape? e with
        | some v => stringBody (v :: done) (n + 2) rest
        | none => .unknownEscape n e
    else stringBody (b :: done) (n + 1) rest

def wordKind (word : Bytes) : TokenKind :=
  (TokenKind.keywords.find? fun k => k.text = word).getD .ident

/-- The digits of a number and, after a point that a digit follows, the digits of its fraction. -/
def numberText : TokenKind × Bytes :=
  let whole := text.takeWhile Decimal.isDigit
  match text.dropWhile Decimal.isDigit with
  | 46 :: d :: rest =>
    if Decimal.isDigit d then (.float, whole ++ 46 :: (d :: rest).takeWhile Decimal.isDigit)
    else (.int, whole)
  | _ => (.int, whole)

/-- The operators and delimiters in the order in which they are tried: those of two bytes first. -/
def symbols : List TokenKind :=
  [.eqEq, .notEq, .lessEq, .greaterEq, .andAnd, .orOr, .arrow, .dotDot,
    .plus, .minus, .star, .slash, .percent, .assign, .less, .greater, .bang, .dot] ++
    TokenKind.delimiters

def symbol? : Option TokenKind :=
  symbols.find? fun k => k.text.isPrefixOf text

/-- A token and what follows it, or an error. -/
abbrev Found := Except (Located LexError) (Located Token × Cursor)

def token (kind : TokenKind) (text : Bytes) (n : Nat) : Found :=
  .ok (⟨Span.ofLength c.pos n, ⟨kind, text⟩⟩, c.advance n)

def string : Found :=
  match stringBody [] 1 (c.rest.drop 1) with
  | .closed value n => token c .string value n
  | .unterminated => .error ⟨Span.point c.pos, .unterminated⟩
  | .unknownEscape n b => .error ⟨Span.ofLength (c.pos.shift n) 2, .unknownEscape b⟩

/-- The token that starts at a place which is not in front of white space or a comment. -/
def tokenAt : Found :=
  match c.rest with
  | [] => .ok (⟨Span.point c.pos, ⟨.eof, []⟩⟩, c)
  | b :: _ =>
    if isLetter b then
      let word := c.rest.takeWhile isWordByte
      token c (wordKind word) word word.length
    else if Decimal.isDigit b then
      let (kind, text) := numberText c.rest
      token c kind text text.length
    else if b = 34 then string c
    else match symbol? c.rest with
      | some kind => token c kind kind.text kind.text.length
      | none => .error ⟨Span.point c.pos, .unexpected b⟩

def next : Found :=
  tokenAt (skip c)

/-! ### All tokens -/

/-- The tokens of a text up to its end or to the first error. -/
structure Scan where
  tokens : Tokens
  error? : Option (Located LexError)

def scanFrom : (n : Nat) → (done : Tokens) → Cursor → Scan
  | 0, done, _ => ⟨done.reverse, none⟩
  | n + 1, done, c =>
    match next c with
    | .error e => ⟨done.reverse, some e⟩
    | .ok (t, c') =>
      if t.val.kind = .eof then ⟨(t :: done).reverse, none⟩ else scanFrom n (t :: done) c'

/-- The tokens of a text.  Every token but the last takes a byte at least, so a text has at most one
token more than it has bytes. -/
def scan : Scan :=
  scanFrom (text.length + 1) [] ⟨.start, text⟩

end Lexer

/-- The tokens of a text. -/
def tokenize (text : Bytes) : Except (Located LexError) Tokens :=
  let scan := Lexer.scan text
  match scan.error? with
  | some e => .error e
  | none => .ok scan.tokens

end Minilang
