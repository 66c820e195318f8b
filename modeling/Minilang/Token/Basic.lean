import Minilang.Text.Quoted
import Minilang.Source.Span

/-!
# Tokens

The words of the language: names, literals, keywords, operators and delimiters, and the end of the
text.  A token has a kind and a text; the text of a string literal is its value, that is, without
the quotes and with the escape sequences resolved.
-/

namespace Minilang

/-- The kinds of tokens. -/
inductive TokenKind where
  | eof
  | ident
  | int
  | float
  | string
  | kwTrue
  | kwFalse
  | kwFn
  | kwLet
  | kwReturn
  | kwIf
  | kwElse
  | kwWhile
  | kwFor
  | kwIn
  | kwType
  | kwStruct
  | kwEnum
  | plus
  | minus
  | star
  | slash
  | percent
  | assign
  | eqEq
  | notEq
  | less
  | lessEq
  | greater
  | greaterEq
  | andAnd
  | orOr
  | bang
  | arrow
  | dot
  | dotDot
  | comma
  | colon
  | semicolon
  | lparen
  | rparen
  | lbrace
  | rbrace
  | lbracket
  | rbracket
  | pipe
  deriving DecidableEq, Repr

namespace TokenKind

/-- How a kind is called; for keywords, operators and delimiters, how it is written. -/
def text : TokenKind → Bytes
  | .eof => "end of file"
  | .ident => "identifier"
  | .int => "integer literal"
  | .float => "float literal"
  | .string => "string literal"
  | .kwTrue => "true"
  | .kwFalse => "false"
  | .kwFn => "fn"
  | .kwLet => "let"
  | .kwReturn => "return"
  | .kwIf => "if"
  | .kwElse => "else"
  | .kwWhile => "while"
  | .kwFor => "for"
  | .kwIn => "in"
  | .kwType => "type"
  | .kwStruct => "struct"
  | .kwEnum => "enum"
  | .plus => "+"
  | .minus => "-"
  | .star => "*"
  | .slash => "/"
  | .percent => "%"
  | .assign => "="
  | .eqEq => "=="
  | .notEq => "!="
  | .less => "<"
  | .lessEq => "<="
  | .greater => ">"
  | .greaterEq => ">="
  | .andAnd => "&&"
  | .orOr => "||"
  | .bang => "!"
  | .arrow => "->"
  | .dot => "."
  | .dotDot => ".."
  | .comma => ","
  | .colon => ":"
  | .semicolon => ";"
  | .lparen => "("
  | .rparen => ")"
  | .lbrace => "\x7b"
  | .rbrace => "\x7d"
  | .lbracket => "["
  | .rbracket => "]"
  | .pipe => "|"

def keywords : List TokenKind := [
  .kwTrue, .kwFalse, .kwFn, .kwLet, .kwReturn, .kwIf, .kwElse, .kwWhile, .kwFor, .kwIn, .kwType,
  .kwStruct, .kwEnum
]

def operators : List TokenKind := [
  .plus, .minus, .star, .slash, .percent, .assign, .eqEq, .notEq, .less, .lessEq, .greater,
  .greaterEq, .andAnd, .orOr, .bang, .arrow, .dot, .dotDot
]

def delimiters : List TokenKind := [
  .comma, .colon, .semicolon, .lparen, .rparen, .lbrace, .rbrace, .lbracket, .rbracket, .pipe
]

variable (k : TokenKind)

def isKeyword : Bool :=
  keywords.contains k

def isOperator : Bool :=
  operators.contains k

def isDelimiter : Bool :=
  delimiters.contains k

/-- Whether the kind is that of a literal; the two truth values are both literals and keywords. -/
def isLiteral : TokenKind → Bool
  | .int | .float | .string | .kwTrue | .kwFalse => true
  | _ => false

def all : List TokenKind :=
  [.eof, .ident, .int, .float, .string] ++ keywords ++ operators ++ delimiters

def ofText? (name : Bytes) : Option TokenKind :=
  all.find? fun k => k.text = name

/-- The kinds by number.  Keywords, operators and delimiters are numbered in groups, with a number
before and after each group that no kind has. -/
def numbered : List (Option TokenKind) :=
  [some .eof, some .ident, some .int, some .float, some .string] ++
    [none] ++ keywords.map some ++ [none] ++
    [none] ++ operators.map some ++ [none] ++
    [none] ++ delimiters.map some ++ [none]

def ofCode? (code : Int) : Option TokenKind :=
  if code < 0 then none else (numbered[code.toNat]?).join

def nameOf (code : Int) : Bytes :=
  match ofCode? code with
  | some k => k.text
  | none => Bytes.concat ["Kind(", Decimal.ofInt code, ")"]

end TokenKind

/-- A word of the language. -/
structure Token where
  kind : TokenKind
  text : Bytes
  deriving DecidableEq, Repr

/-- Tokens with their places in a text. -/
abbrev Tokens := List (Located Token)

namespace Token

def shown (t : Token) : Bytes :=
  match t.kind with
  | .ident | .int | .float => t.text
  | .string => Quoted.text t.text
  | k => k.text

end Token

end Minilang
