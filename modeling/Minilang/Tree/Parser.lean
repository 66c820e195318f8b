import Minilang.Diagnostic.Basic
import Minilang.Double.Reading
import Minilang.Token.Lexer
import Minilang.Tree.Printer

/-!
# Reading syntax trees

A parser by recursive descent over a sequence of tokens that ends with the end of the text.

Every function of the grammar is written for given parsers of the nonterminals it contains, `Inner`,
and uses them only after it has read a token of its own.  `nested n` ties the knot for texts of at
most `n` tokens, so that a bound on the nesting follows from the number of tokens and the parser is
total.  Loops are bounded by the same number: every round reads a token at least.

In the head of a conditional or of a loop a name followed by a brace is not a structure literal; the
flag `structs` tells whether such literals are allowed.
-/

namespace Minilang

/-- Why a sequence of tokens is not a program. -/
inductive ParseError where
  | expected (what : Bytes) (found : Token)
  | emptyEnum (name : Bytes)
  | notAssignable (target : Bytes)
  | intOutOfRange (text : Bytes)
  | invalidFloat (text : Bytes)
  | invalidPosition (text : Bytes)
  /-- The tokens do not end with the end of the text. -/
  | unended
  deriving DecidableEq, Repr

/-- The text of an error. -/
def ParseError.message : ParseError → Bytes
  | .expected what found => Bytes.concat ["expected ", what, ", found ", found.shown]
  | .emptyEnum name => Bytes.concat ["enum ", name, " has no variant"]
  | .notAssignable target => Bytes.concat ["cannot assign to ", target]
  | .intOutOfRange text => Bytes.concat ["integer literal ", text, " out of range"]
  | .invalidFloat text => Bytes.concat ["invalid float literal ", text]
  | .invalidPosition text => Bytes.concat ["invalid field position ", text]
  | .unended => Bytes.concat ["token sequence does not end with ", TokenKind.eof.text]

namespace Parser

/-- Where the parser is: the token it looks at, the tokens after it, and the span of the token
before it. -/
structure State where
  tok : Located Token
  rest : Tokens
  prev : Span

/-- Parsers of tokens. -/
abbrev P := StateT State (Except (Located ParseError))

/-! ### Tokens -/

/-- The kind of the next token. -/
def kind : P TokenKind :=
  return (← get).tok.val.kind

/-- The kind of a token further on. -/
def kindAfter (n : Nat) : P TokenKind := do
  let s ← get
  return (((s.tok :: s.rest)[n]?).map (·.val.kind)).getD .eof

/-- The state after a token. -/
def State.next (s : State) : State :=
  match s.rest with
  | t :: rest => if s.tok.val.kind = .eof then s else ⟨t, rest, s.tok.span⟩
  | [] => s

/-- Takes a token. -/
def next : P (Located Token) := do
  let s ← get
  set s.next
  return s.tok

/-- The span from a place to the last token. -/
def spanFrom (start : Span) : P Span :=
  return start.through (← get).prev

/-- Fails at a place. -/
def fail {β : Type} (span : Span) (e : ParseError) : P β :=
  throw ⟨span, e⟩

/-- Fails at the next token. -/
def unexpected {β : Type} (what : Bytes) : P β := do
  let tok := (← get).tok
  fail tok.span (.expected what tok.val)

/-- Takes a token if it is of a kind. -/
def accept (k : TokenKind) : P Bool := do
  if (← kind) = k then
    let _ ← next
    return true
  else return false

/-- Takes a token of a kind. -/
def expect (k : TokenKind) : P (Located Token) := do
  if (← kind) = k then next else unexpected k.text

/-- A name. -/
def name : P Name := do
  let tok ← expect .ident
  return ⟨tok.span, tok.val.text⟩

/-- Reads elements up to a closing token or to an element that no comma follows, in at most `n`
rounds. -/
def elements {β : Type} (closing : TokenKind) (elem : P β) :
    (n : Nat) → (done : List β) → P (List β)
  | 0, done => return done.reverse
  | n + 1, done => do
    if (← kind) = closing then return done.reverse
    else
      let x ← elem
      if ← accept .comma then elements closing elem n (x :: done)
      else return (x :: done).reverse

/-- Reads elements with commas between them, a comma after the last one being allowed, and the token
that closes the list.  There are at most `limit` tokens. -/
def list {β : Type} (limit : Nat) (closing : TokenKind) (elem : P β) : P (List β) := do
  let xs ← elements closing elem limit []
  let _ ← expect closing
  return xs

/-! ### Nonterminals -/

/-- Parsers of the nonterminals that can be parts of themselves, and how many tokens there are at
most. -/
structure Inner where
  limit : Nat
  type : P TypeExpr
  block : P (Block Unit)
  cond : P (Expr Unit)
  expr : (structs : Bool) → P (Expr Unit)
  binary : (structs : Bool) → (minPrec : Nat) → P (Expr Unit)
  unary : (structs : Bool) → P (Expr Unit)

variable (inner : Inner) (structs : Bool)

/-! ### Types and signatures -/

/-- A type. -/
def typeExpr : P TypeExpr := do
  let tok := (← get).tok
  match tok.val.kind with
  | .ident =>
    let _ ← next
    return .named tok.span tok.val.text
  | .lbracket =>
    let _ ← next
    let elem ← inner.type
    let _ ← expect .rbracket
    return .array (← spanFrom tok.span) elem
  | .kwFn =>
    let _ ← next
    let _ ← expect .lparen
    let params ← list inner.limit .rparen inner.type
    let result ← if ← accept .arrow then some <$> inner.type else pure none
    return .func (← spanFrom tok.span) params result
  | _ => unexpected "type"

/-- A parameter or a field. -/
def param : P Param := do
  let n ← name
  let _ ← expect .colon
  let type ← typeExpr inner
  return ⟨← spanFrom n.span, n, type⟩

/-- Parameters and a result. -/
def signature : P (List Param × Option TypeExpr) := do
  let _ ← expect .lparen
  let params ← list inner.limit .rparen (param inner)
  let result ← if ← accept .arrow then some <$> typeExpr inner else pure none
  return (params, result)

/-! ### Blocks and statements -/

/-- A variable. -/
def letStmt : P (Stmt Unit) := do
  let start := (← next).span
  let n ← name
  let type ← if ← accept .colon then some <$> inner.type else pure none
  let _ ← expect .assign
  let value ← inner.expr true
  let _ ← expect .semicolon
  return .letVar (← spanFrom start) n type value

/-- A return. -/
def returnStmt : P (Stmt Unit) := do
  let start := (← next).span
  let k ← kind
  let value ← if k = .semicolon ∨ k = .rbrace then pure none else some <$> inner.expr true
  let span ← spanFrom start
  let _ ← accept .semicolon
  return .ret span value

/-- A loop. -/
def whileStmt : P (Stmt Unit) := do
  let start := (← next).span
  let test ← inner.expr false
  let body ← inner.block
  return .loop (← spanFrom start) test body

/-- A loop over numbers or elements. -/
def forStmt : P (Stmt Unit) := do
  let start := (← next).span
  let n ← name
  let _ ← expect .kwIn
  let first ← inner.expr false
  if ← accept .dotDot then
    let stop ← inner.expr false
    let body ← inner.block
    return .forRange (← spanFrom start) n first stop body
  else
    let body ← inner.block
    return .forEach (← spanFrom start) n first body

/-- What stands at some place of a block: its end, with the value of the block if there is one, a
statement, or a semicolon on its own. -/
inductive Item where
  | finish (value : Option (Expr Unit))
  | stmt (s : Stmt Unit)
  | skip

/-- An item of a block. -/
def item : P Item := do
  match ← kind with
  | .rbrace =>
    let _ ← next
    return .finish none
  | .kwLet => .stmt <$> letStmt inner
  | .kwReturn => .stmt <$> returnStmt inner
  | .kwWhile => .stmt <$> whileStmt inner
  | .kwFor => .stmt <$> forStmt inner
  | .semicolon =>
    let _ ← next
    return .skip
  | .eof => unexpected TokenKind.rbrace.text
  | _ =>
    let x ← inner.expr true
    if ← accept .rbrace then return .finish (some x)
    else if ← accept .semicolon then return .stmt (.expr x)
    else if x.isBlockLike then return .stmt (.expr x)
    else unexpected "; or \x7d"

/-- The items of a block. -/
def items (start : Span) : (n : Nat) → (done : List (Stmt Unit)) → P (Block Unit)
  | 0, _ => unexpected TokenKind.rbrace.text
  | n + 1, done => do
    match ← item inner with
    | .finish value => return .mk (← spanFrom start) () done.reverse value
    | .stmt s => items start n (s :: done)
    | .skip => items start n done

/-- A block. -/
def block : P (Block Unit) := do
  let start ← expect .lbrace
  items inner start.span inner.limit []

/-! ### Expressions -/

/-- The name of a position. -/
def position (span : Span) (text : Bytes) : P Name :=
  match Decimal.readInt? text with
  | some n => return ⟨span, Decimal.ofInt n⟩
  | none => fail span (.invalidPosition text)

/-- The texts around a point. -/
def cutPoint (text : Bytes) : Bytes × Bytes :=
  (text.takeWhile (· ≠ 46), (text.dropWhile (· ≠ 46)).drop 1)

/-- What follows the point of a selection.  Two positions with a point between them are read as one
float literal, and taken apart here. -/
def selectors : P (List Name) := do
  let tok := (← get).tok
  match tok.val.kind with
  | .int =>
    let _ ← next
    return [← position tok.span tok.val.text]
  | .float =>
    let _ ← next
    let (first, second) := cutPoint tok.val.text
    let p := tok.span.first
    let n : Int := first.length
    let firstLast : Pos := ⟨p.offset + n - 1, p.line, p.col + n - 1⟩
    let secondFirst : Pos := ⟨p.offset + n + 1, p.line, p.col + n + 1⟩
    let x ← position ⟨p, firstLast⟩ first
    let y ← position ⟨secondFirst, tok.span.last⟩ second
    return [x, y]
  | _ => return [← name]

/-- A field with its value. -/
def fieldValue : P (FieldValue Unit) := do
  let n ← name
  let _ ← expect .colon
  let value ← inner.expr true
  return .mk (← spanFrom n.span) n value

/-- Whether a structure literal starts at the current token, a name: an opening brace follows, and
then the closing one or the name of a field. -/
def startsStruct : P Bool := do
  if (← kindAfter 1) ≠ .lbrace then return false
  else if (← kindAfter 2) = .rbrace then return true
  else return (← kindAfter 2) = .ident && (← kindAfter 3) = .colon

/-- A structure literal. -/
def structLit : P (Expr Unit) := do
  let type ← name
  let _ ← next
  let fields ← list inner.limit .rbrace (fieldValue inner)
  return .struct (← spanFrom type.span) () type fields

/-- A conditional. -/
def cond : P (Expr Unit) := do
  let start := (← next).span
  let test ← inner.expr false
  let t ← inner.block
  let e ← if ← accept .kwElse then
      if (← kind) = .kwIf then some <$> inner.cond else (some ∘ .block) <$> inner.block
    else pure none
  return .cond (← spanFrom start) () test t e

/-- A function literal. -/
def lambda : P (Expr Unit) := do
  let start := (← next).span
  let (params, result) ← signature inner
  let body ← inner.block
  return .lambda (← spanFrom start) () params result body

/-- An operand without suffixes. -/
def primary : P (Expr Unit) := do
  let tok := (← get).tok
  match tok.val.kind with
  | .int =>
    let _ ← next
    match Decimal.readInt? tok.val.text with
    | some n => return .lit tok.span () (.int (.ofInt n))
    | none => fail tok.span (.intOutOfRange tok.val.text)
  | .float =>
    let _ ← next
    match Double.read? tok.val.text with
    | some x => return .lit tok.span () (.float x)
    | none => fail tok.span (.invalidFloat tok.val.text)
  | .string =>
    let _ ← next
    return .lit tok.span () (.string tok.val.text)
  | .kwTrue =>
    let _ ← next
    return .lit tok.span () (.bool true)
  | .kwFalse =>
    let _ ← next
    return .lit tok.span () (.bool false)
  | .ident =>
    if structs && (← startsStruct) then structLit inner
    else
      let _ ← next
      return .var tok.span () tok.val.text
  | .lparen =>
    let _ ← next
    let x ← inner.expr true
    let _ ← expect .rparen
    return x
  | .lbracket =>
    let _ ← next
    let elems ← list inner.limit .rbracket (inner.expr true)
    return .array (← spanFrom tok.span) () elems
  | .lbrace => .block <$> block inner
  | .kwIf => cond inner
  | .kwFn => lambda inner
  | _ => unexpected "expression"

/-- Selections one after the other. -/
def selectAll (x : Expr Unit) (names : List Name) : Expr Unit :=
  names.foldl (fun x n => .field (x.span.through n.span) () x n) x

/-- The calls, selections and subscripts that follow an expression, in at most `n` rounds. -/
def suffixes : (n : Nat) → Expr Unit → P (Expr Unit)
  | 0, x => return x
  | n + 1, x => do
    match ← kind with
    | .lparen =>
      let _ ← next
      let args ← list inner.limit .rparen (inner.expr true)
      suffixes n (.call (← spanFrom x.span) () x args)
    | .dot =>
      let _ ← next
      suffixes n (selectAll x (← selectors))
    | .lbracket =>
      let _ ← next
      let i ← inner.expr true
      let _ ← expect .rbracket
      suffixes n (.index (← spanFrom x.span) () x i)
    | _ => return x

/-- An operand. -/
def postfixExpr : P (Expr Unit) := do
  let x ← primary inner structs
  suffixes inner inner.limit x

/-- The least integer, if a minus sign and its digits follow and make up the whole operand.  Its
digits alone are too large for an integer literal. -/
def leastInt? : P (Option (Expr Unit)) := do
  let s ← get
  match s.rest with
  | digits :: _ =>
    let k ← kindAfter 2
    if digits.val.kind ≠ .int ∨ k = .lparen ∨ k = .dot ∨ k = .lbracket then return none
    else if (Decimal.readInt? digits.val.text).isSome then return none
    else match Decimal.readInt? (45 :: digits.val.text) with
      | some n =>
        let _ ← next
        let _ ← next
        return some (.lit (s.tok.span.through digits.span) () (.int (.ofInt n)))
      | none => return none
  | [] => return none

/-- A unary operation. -/
def negated (op : UnaryOp) : P (Expr Unit) := do
  let start := (← next).span
  let x ← inner.unary structs
  return .unary (start.through x.span) () op x

/-- An operand with unary operators. -/
def unary : P (Expr Unit) := do
  match ← kind with
  | .minus =>
    match ← leastInt? with
    | some x => return x
    | none => negated inner structs .neg
  | .bang => negated inner structs .not
  | _ => postfixExpr inner structs

/-- The operators of at least the given precedence that follow an operand, with their right
operands, in at most `n` rounds. -/
def operations (structs : Bool) (minPrec : Nat) : (n : Nat) → Expr Unit → P (Expr Unit)
  | 0, x => return x
  | n + 1, x => do
    match BinaryOp.ofToken? (← kind) with
    | none => return x
    | some op =>
      if op.precedence < minPrec then return x
      else
        let _ ← next
        let y ← inner.binary structs (op.precedence + 1)
        operations structs minPrec n (.binary (x.span.through y.span) () op x y)

/-- Operations of at least some precedence. -/
def binary (minPrec : Nat) : P (Expr Unit) := do
  let x ← unary inner structs
  operations inner structs minPrec inner.limit x

/-- An expression. -/
def expr : P (Expr Unit) := do
  let target ← binary inner structs 1
  if (← kind) = .assign then
    let eq ← next
    if target.isTarget then
      let value ← inner.expr structs
      return .assign (target.span.through value.span) () target value
    else fail eq.span (.notAssignable target.text)
  else return target

/-! ### The knot -/

/-- Parsers for so many levels. -/
def nested : Nat → Inner
  | 0 =>
    ⟨1, unexpected "type", unexpected TokenKind.lbrace.text, unexpected "expression",
      fun _ => unexpected "expression", fun _ _ => unexpected "expression",
      fun _ => unexpected "expression"⟩
  | n + 1 =>
    { limit := n + 2
      type := fun s => typeExpr (nested n) s
      block := fun s => block (nested n) s
      cond := fun s => cond (nested n) s
      expr := fun structs s => expr (nested n) structs s
      binary := fun structs minPrec s => binary (nested n) structs minPrec s
      unary := fun structs s => unary (nested n) structs s }

/-! ### Declarations -/

/-- A function. -/
def funcDecl : P (Decl Unit) := do
  let start := (← next).span
  let n ← name
  let (params, result) ← signature inner
  let body ← block inner
  return .func ⟨← spanFrom start, n, params, result, body⟩

/-- A structure. -/
def structDecl : P (Decl Unit) := do
  let start := (← next).span
  let n ← name
  let _ ← expect .lbrace
  let fields ← list inner.limit .rbrace (param inner)
  return .struct (← spanFrom start) n fields

/-- A variant. -/
def variant : P VariantDecl := do
  let n ← name
  let payload ← if ← accept .lparen then list inner.limit .rparen (typeExpr inner) else pure []
  return ⟨← spanFrom n.span, n, payload⟩

/-- An enum. -/
def enumDecl : P (Decl Unit) := do
  let start := (← next).span
  let n ← name
  let _ ← expect .lbrace
  let variants ← list inner.limit .rbrace (variant inner)
  let span ← spanFrom start
  if variants.isEmpty then fail span (.emptyEnum n.text)
  else return .enum span n variants

/-- An alias. -/
def aliasDecl : P (Decl Unit) := do
  let start := (← next).span
  let n ← name
  let _ ← expect .assign
  let type ← typeExpr inner
  let _ ← expect .semicolon
  return .alias (← spanFrom start) n type

/-- A declaration. -/
def decl : P (Decl Unit) := do
  match ← kind with
  | .kwFn => funcDecl inner
  | .kwStruct => structDecl inner
  | .kwEnum => enumDecl inner
  | .kwType => aliasDecl inner
  | _ => unexpected "declaration"

/-- Declarations. -/
def decls : (n : Nat) → (done : List (Decl Unit)) → P (List (Decl Unit))
  | 0, done => return done.reverse
  | n + 1, done => do
    if (← kind) = .eof then return done.reverse
    else decls n ((← decl inner) :: done)

/-- A program. -/
def program : P (Program Unit) := do
  let start := (← get).tok.span
  let ds ← decls inner inner.limit []
  return ⟨← spanFrom start, ds⟩

end Parser

/-- The program of some tokens. -/
def parseTokens (toks : Tokens) : Except (Located ParseError) (Program Unit) :=
  match toks with
  | [] => .error ⟨.none, .unended⟩
  | tok :: rest =>
    if ((toks.getLast?).map (·.val.kind)) = some .eof then
      (Parser.program (Parser.nested toks.length)).run' ⟨tok, rest, tok.span⟩
    else .error ⟨.none, .unended⟩

/-- Why a text is not read. -/
inductive ReadError where
  | lexical (e : Located LexError)
  | grammar (e : Located ParseError)
  deriving DecidableEq, Repr

/-- What is said about an error. -/
def ReadError.diagnostic : ReadError → Diagnostic
  | .lexical e => ⟨.lexical, e.span, e.val.message⟩
  | .grammar e => ⟨.grammar, e.span, e.val.message⟩

/-- The program of a text. -/
def parse (text : Bytes) : Except ReadError (Program Unit) :=
  match tokenize text with
  | .error e => .error (.lexical e)
  | .ok toks =>
    match parseTokens toks with
    | .error e => .error (.grammar e)
    | .ok p => .ok p

end Minilang
