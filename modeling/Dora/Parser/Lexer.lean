import Mathlib.Algebra.Group.Int.Defs
import Mathlib.Algebra.GroupWithZero.Nat
import Mathlib.Data.List.Basic
import Mathlib.Order.Nat

/-!
# The lexer

A source text is a list of characters, and the reader keeps those that are left, the number of bytes
before them and the position. A look-ahead of one byte fails when the current character has several
bytes. Positions and spans are `u32`: sums that do not fit panic, the conversion of the byte index
truncates.

## Main definitions

* `Reader`, `Token`: the state of the reader, and what is read
* `readToken`: the next token
-/

namespace Dora.Parser

structure Position where
  line : ℕ
  column : ℕ
deriving DecidableEq, Repr

/-- `Span`, with the start as a number (`Loc`). -/
structure Span where
  start : ℕ
  count : ℕ
deriving DecidableEq, Repr

inductive IntBase
  | Bin
  | Dec
  | Hex
deriving DecidableEq, Repr

def IntBase.num : IntBase → ℕ
  | .Bin => 2
  | .Dec => 10
  | .Hex => 16

inductive IntSuffix
  | UInt8
  | Int32
  | Int64
  | None
deriving DecidableEq, Repr

inductive FloatSuffix
  | Float32
  | Float64
deriving DecidableEq, Repr

inductive TokenKind
  | StringTail (value : List Char)
  | StringExpr (value : List Char)
  | LitChar (value : Char)
  | LitInt (value : List Char) (base : IntBase) (suffix : IntSuffix)
  | LitFloat (value : List Char) (suffix : FloatSuffix)
  | Identifier (value : List Char)
  | True | False | End
  | Class | Enum | Struct | Trait | Impl | Annotation | Mod | Use | Package | Extern
  | Fn | Let | Mut | Const
  | Return | If | Else | While | For | In | Break | Continue | Match
  | This | Super | As
  | Add | Sub | Mul | Div | Modulo
  | Not | Or | And | Caret | AndAnd | OrOr
  | EqEq | NotEq | EqEqEq | NeEqEq | Lt | Le | Gt | Ge
  | GtGt | GtGtGt | LtLt
  | Eq | Comma | Semicolon | Dot | DotDotDot | Colon | ColonColon | At | Arrow | DoubleArrow
  | LParen | RParen | LBracket | RBracket | LBrace | RBrace
  | Type | Alias | CapitalThis | Underscore
deriving DecidableEq, Repr

structure Token where
  kind : TokenKind
  position : Position
  span : Span
deriving DecidableEq, Repr

/-- The errors of the lexer, and the one of the parser for numbers. -/
inductive ParseError
  | UnknownChar (ch : Char)
  | UnclosedComment
  | UnclosedChar
  | UnclosedString
  | InvalidEscapeSequence (ch : Char)
  | InvalidSuffix (suffix : List Char)
  | NumberOverflow
deriving DecidableEq, Repr

/-- Why a function does not return a result. `running` stands for a loop that has not ended within
the number of rounds of the model. -/
inductive Failure
  | error (pos : Position) (error : ParseError)
  | panic
  | running
deriving DecidableEq, Repr

abbrev Result := Except Failure

/-- Arithmetic on `u32`, checked. -/
def u32 (n : ℕ) : Result ℕ := if n < 2 ^ 32 then .ok n else .error .panic

namespace Position

def new (l c : ℕ) : Result Position := if 1 ≤ l ∧ 1 ≤ c then .ok ⟨l, c⟩ else .error .panic

end Position

namespace Span

/-- `Loc::new` takes every `u32` but the greatest one. -/
def new (start count : ℕ) : Result Span :=
  if start < 2 ^ 32 - 1 then .ok ⟨start, count⟩ else .error .panic

/-- `Span::at`. -/
def «at» (start : ℕ) : Result Span := new start 0

/-- `Span::end`. -/
def stop (s : Span) : ℕ := s.start + s.count

end Span

/-! ## The reader -/

/-- The text that is left, the number of bytes before it, and the position. -/
structure Reader where
  rest : List Char
  index : ℕ
  pos : Position
deriving DecidableEq, Repr

namespace Reader

def tabwidth : ℕ := 4

def fromString (src : List Char) : Reader where
  rest := src
  index := 0
  pos := ⟨1, 1⟩

variable (r : Reader)

def curr : Option Char := r.rest.head?

/-- `nth(1)`: the byte behind the current one has to be the first one of a character. -/
def next : Result (Option Char) :=
  match r.rest with
  | [] => .ok none
  | c :: cs => if c.utf8Size = 1 then .ok cs.head? else .error .panic

/-- The position behind the character `c`. -/
def posAfter (c : Char) : Result Position :=
  if c = '\n' then do
    Position.new (← u32 (r.pos.line + 1)) 1
  else if c = '\t' then do
    let tabdepth := (r.pos.column - 1) / tabwidth
    let col ← u32 (1 + tabwidth * (tabdepth + 1))
    Position.new r.pos.line col
  else do
    Position.new r.pos.line (← u32 (r.pos.column + 1))

def advance : Result Reader :=
  match r.rest with
  | [] => .error .panic
  | c :: cs => do
    let pos ← r.posAfter c
    return { rest := cs, index := r.index + c.utf8Size, pos := pos }

/-- `Reader::idx` converts the index with `as u32`. -/
def idx : ℕ := r.index % 2 ^ 32

end Reader

/-! ## Characters -/

/-- `char::is_digit`. -/
def isDigitOf (radix : ℕ) (ch : Char) : Bool :=
  ('0' ≤ ch && ch ≤ '9' && ch.toNat - '0'.toNat < radix) ||
  ('a' ≤ ch && ch ≤ 'z' && ch.toNat - 'a'.toNat + 10 < radix) ||
  ('A' ≤ ch && ch ≤ 'Z' && ch.toNat - 'A'.toNat + 10 < radix)

variable (ch : Char)

def isDigit : Bool := isDigitOf 10 ch

def isDigitOrUnderscore (base : IntBase) (ch : Char) : Bool := isDigitOf base.num ch || ch = '_'

/-- `char::is_whitespace`: the property `White_Space` of Unicode. -/
def isWhitespace : Bool :=
  let n := ch.toNat
  (9 ≤ n && n ≤ 13) || n = 0x20 || n = 0x85 || n = 0xA0 || n = 0x1680 ||
    (0x2000 ≤ n && n ≤ 0x200A) || n = 0x2028 || n = 0x2029 || n = 0x202F || n = 0x205F || n = 0x3000

def isNewline : Bool := ch = '\n'

/-- The quote of strings. -/
def quote : Char := Char.ofNat 34

/-- The quote of characters. -/
def charQuote : Char := Char.ofNat 39

def isQuote : Bool := ch = quote

def isCharQuote : Bool := ch = charQuote

def isOperator : Bool :=
  ch ∈ ['^', '+', '-', '*', '/', '%', '&', '|', ',', '=', '!', '~', ';', ':', '.', '(', ')', '[',
    ']', '{', '}', '<', '>', '@']

def isIdentifierStart : Bool :=
  ('a' ≤ ch && ch ≤ 'z') || ('A' ≤ ch && ch ≤ 'Z') || ch = '_'

def isIdentifier : Bool := isIdentifierStart ch || isDigit ch

/-! ## Loops over characters -/

variable (r : Reader)

/-- The test of a loop or a branch on the current character. -/
def Reader.currIs (p : Char → Bool) : Bool := r.curr.any p

/-- Reads characters as long as they pass a test. The list is the rest of the text. -/
def readWhileOn (p : Char → Bool) : List Char → Reader → Result (List Char × Reader)
  | [], r => .ok ([], r)
  | c :: cs, r =>
    if p c then do
      let (value, r) ← readWhileOn p cs (← r.advance)
      return (c :: value, r)
    else .ok ([], r)

def readWhile (p : Char → Bool) (r : Reader) : Result (List Char × Reader) := readWhileOn p r.rest r

def skipWhite : Result Reader := do
  return (← readWhile isWhitespace r).2

def readComment : Result Reader := do
  return (← readWhile (fun ch => !isNewline ch) r).2

def readIdentifierAsString : Result (List Char × Reader) := readWhile isIdentifier r

def readDigits (base : IntBase) (r : Reader) : Result (List Char × Reader) :=
  readWhile (isDigitOrUnderscore base) r

/-- Two given characters are next. The second one is looked at only after the first one. -/
def Reader.startsWith (c d : Char) : Result Bool :=
  if r.curr = some c then do
    return decide ((← r.next) = some d)
  else .ok false

/-- The loop of `read_multi_comment`, up to the end of the comment or of the text. -/
def skipToCommentEnd : List Char → Reader → Result Reader
  | [], r => .ok r
  | _ :: cs, r => do
    if ← r.startsWith '*' '/' then return r
    else skipToCommentEnd cs (← r.advance)

def readMultiComment : Result Reader := do
  let pos := r.pos
  let r ← r.advance
  let r ← r.advance
  let r ← skipToCommentEnd r.rest r
  if r.curr = none then throw (.error pos .UnclosedComment)
  let r ← r.advance
  r.advance

/-! ## Tokens -/

/-- `span_from`. -/
def Reader.spanFrom (start : ℕ) : Result Span :=
  if start ≤ r.idx then Span.new start (r.idx - start) else .error .panic

/-- The token from a former reader to this one. -/
def Reader.token (first : Reader) (kind : TokenKind) : Result (Token × Reader) := do
  let span ← r.spanFrom first.idx
  return (⟨kind, first.pos, span⟩, r)

def keywords : List (List Char × TokenKind) :=
  [("true".toList, .True), ("false".toList, .False), ("class".toList, .Class),
    ("enum".toList, .Enum), ("struct".toList, .Struct), ("trait".toList, .Trait),
    ("impl".toList, .Impl), ("annotation".toList, TokenKind.Annotation), ("mod".toList, .Mod),
    ("use".toList, .Use), ("package".toList, .Package), ("fn".toList, .Fn), ("let".toList, .Let),
    ("mut".toList, .Mut), ("const".toList, .Const), ("return".toList, .Return), ("if".toList, .If),
    ("else".toList, .Else), ("while".toList, .While), ("for".toList, .For), ("in".toList, .In),
    ("break".toList, .Break), ("continue".toList, .Continue), ("match".toList, .Match),
    ("self".toList, .This), ("super".toList, .Super), ("as".toList, .As), ("type".toList, .Type),
    ("alias".toList, .Alias), ("Self".toList, .CapitalThis)]

def readIdentifier : Result (Token × Reader) := do
  let (value, r') ← readIdentifierAsString r
  let ttype :=
    match keywords.lookup value with
    | some ttype => ttype
    | none => if value = ['_'] then .Underscore else .Identifier value
  r'.token r ttype

/-- The characters that may stand behind a backslash. -/
def escapes : List (Char × Char) :=
  [('\\', '\\'), ('n', '\n'), ('t', '\t'), ('r', '\r'), (quote, quote), (charQuote, charQuote),
    ('0', Char.ofNat 0), ('$', '$')]

def readEscapedChar (pos : Position) (unclosed : ParseError) (r : Reader) :
    Result (Char × Reader) :=
  match r.curr with
  | none => throw (.error pos unclosed)
  | some ch => do
    let r ← r.advance
    if ch = '\\' then
      match r.curr with
      | none => throw (.error pos unclosed)
      | some ch => do
        let r ← r.advance
        match escapes.lookup ch with
        | some value => return (value, r)
        | none => throw (.error pos (.InvalidEscapeSequence ch))
    else return (ch, r)

def readCharLiteral : Result (Token × Reader) := do
  let r' ← r.advance
  let (ch, r') ← readEscapedChar r.pos .UnclosedChar r'
  if r'.currIs isCharQuote then do
    let r' ← r'.advance
    r'.token r (.LitChar ch)
  else throw (.error r.pos .UnclosedChar)

/-- The loop of `read_string`: the value so far, and whether an expression starts. Each round takes
at least one character. -/
def readStringOn (pos : Position) : ℕ → List Char → Reader → Result (List Char × Bool × Reader)
  | 0, _, _ => .error .running
  | fuel + 1, value, r =>
    if r.curr.isSome && !r.currIs isQuote then do
      if ← r.startsWith '$' '{' then
        return (value, true, ← (← r.advance).advance)
      let (ch, r) ← readEscapedChar pos .UnclosedString r
      readStringOn pos fuel (value ++ [ch]) r
    else .ok (value, false, r)

/-- The quote before a string, which the caller has seen. -/
def skipStart (skipQuote : Bool) (r : Reader) : Result Reader :=
  if skipQuote then
    if r.curr = some quote then r.advance else .error .panic
  else .ok r

def readString (skipQuote : Bool) (r : Reader) : Result (Token × Reader) := do
  let r' ← skipStart skipQuote r
  let (value, expression, r') ← readStringOn r.pos (r'.rest.length + 1) [] r'
  if expression then r'.token r (.StringExpr value)
  else if r'.currIs isQuote then do
    let r' ← r'.advance
    r'.token r (.StringTail value)
  else throw (.error r.pos .UnclosedString)

/-- The operators that start with a given character, by the two characters behind it: the kind, and
how many of them belong to the operator. -/
def operatorAfter (ch nch nnch : Char) : Option (TokenKind × ℕ) :=
  match ch with
  | '+' => some (.Add, 0)
  | '-' => some (if nch = '>' then (.Arrow, 1) else (.Sub, 0))
  | '*' => some (.Mul, 0)
  | '/' => some (.Div, 0)
  | '%' => some (.Modulo, 0)
  | '(' => some (.LParen, 0)
  | ')' => some (.RParen, 0)
  | '[' => some (.LBracket, 0)
  | ']' => some (.RBracket, 0)
  | '{' => some (.LBrace, 0)
  | '}' => some (.RBrace, 0)
  | '|' => some (if nch = '|' then (.OrOr, 1) else (.Or, 0))
  | '&' => some (if nch = '&' then (.AndAnd, 1) else (.And, 0))
  | '^' => some (.Caret, 0)
  | ',' => some (.Comma, 0)
  | ';' => some (.Semicolon, 0)
  | ':' => some (if nch = ':' then (.ColonColon, 1) else (.Colon, 0))
  | '.' => some (if nch = '.' && nnch = '.' then (.DotDotDot, 2) else (.Dot, 0))
  | '=' => some (
      if nch = '=' then if nnch = '=' then (.EqEqEq, 2) else (.EqEq, 1)
      else if nch = '>' then (.DoubleArrow, 1)
      else (.Eq, 0))
  | '<' => some (if nch = '=' then (.Le, 1) else if nch = '<' then (.LtLt, 1) else (.Lt, 0))
  | '>' => some (
      if nch = '=' then (.Ge, 1)
      else if nch = '>' then if nnch = '>' then (.GtGtGt, 2) else (.GtGt, 1)
      else (.Gt, 0))
  | '!' => some (
      if nch = '=' then if nnch = '=' then (.NeEqEq, 2) else (.NotEq, 1)
      else (.Not, 0))
  | '@' => some (.At, 0)
  | _ => none

/-- `read_char`, several times. -/
def Reader.advanceBy : ℕ → Reader → Result Reader
  | 0, r => .ok r
  | n + 1, r => do advanceBy n (← r.advance)

def readOperator : Result (Token × Reader) :=
  match r.curr with
  | none => .error .panic
  | some ch => do
    let r' ← r.advance
    let nch := r'.curr.getD 'x'
    -- the character behind the next one is looked at even if the next one has several bytes
    let nnch := (← r'.next).getD 'x'
    match operatorAfter ch nch nnch with
    | none => throw (.error r.pos (.UnknownChar ch))
    | some (kind, n) => do
      let r' ← Reader.advanceBy n r'
      r'.token r kind

/-- The sign of an exponent, if there is one. -/
def readSign (value : List Char) (r : Reader) : Result (List Char × Reader) :=
  match r.curr with
  | none => .ok (value, r)
  | some ch =>
    if ch = '+' || ch = '-' then do
      return (value ++ [ch], ← r.advance)
    else .ok (value, r)

/-- The exponent of a float, if there is one. -/
def readExponent (value : List Char) (r : Reader) : Result (List Char × Reader) :=
  match r.curr with
  | none => .ok (value, r)
  | some ch =>
    if ch = 'e' || ch = 'E' then do
      let (value, r) ← readSign (value ++ [ch]) (← r.advance)
      let (digits, r) ← readDigits .Dec r
      return (value ++ digits, r)
    else .ok (value, r)

/-- `read_number_as_float`, from the reader before the number and the one before the point. -/
def readNumberAsFloat (first : Reader) (value : List Char) (r : Reader) :
    Result (Token × Reader) := do
  let r ← r.advance
  let (digits, r) ← readDigits .Dec r
  let (value, r) ← readExponent (value ++ '.' :: digits) r
  if r.currIs isIdentifierStart then do
    let (suffix, r) ← readIdentifierAsString r
    if suffix = "f32".toList then r.token first (.LitFloat value .Float32)
    else if suffix = "f64".toList then r.token first (.LitFloat value .Float64)
    else throw (.error first.pos (.InvalidSuffix suffix))
  else r.token first (.LitFloat value .Float64)

/-- The base of a number, by its first two characters, which are taken for a prefix. -/
def readBase : Result (IntBase × Reader) :=
  if r.curr = some '0' then do
    let next ← r.next
    if next = some 'x' then return (.Hex, ← (← r.advance).advance)
    else if next = some 'b' then return (.Bin, ← (← r.advance).advance)
    else return (.Dec, r)
  else .ok (.Dec, r)

/-- The kind of a number without a point, by its suffix. -/
def numberKind (value : List Char) (base : IntBase) (suffix : List Char) : Option TokenKind :=
  if suffix = "u8".toList then some (.LitInt value base .UInt8)
  else if suffix = "i32".toList then some (.LitInt value base .Int32)
  else if suffix = "i64".toList then some (.LitInt value base .Int64)
  else if suffix = "f32".toList && base = .Dec then some (.LitFloat value .Float32)
  else if suffix = "f64".toList && base = .Dec then some (.LitFloat value .Float64)
  else none

/-- A decimal point with a digit behind it is next. -/
def pointFollows (base : IntBase) (r : Reader) : Result Bool :=
  if base = .Dec && r.curr = some '.' then do
    return (← r.next).any isDigit
  else .ok false

def readNumber : Result (Token × Reader) := do
  let (base, r') ← readBase r
  let (value, r') ← readDigits base r'
  if ← pointFollows base r' then readNumberAsFloat r value r'
  else if r'.currIs isIdentifierStart then do
    let (suffix, r') ← readIdentifierAsString r'
    match numberKind value base suffix with
    | some kind => r'.token r kind
    | none => throw (.error r.pos (.InvalidSuffix suffix))
  else r'.token r (.LitInt value base .None)

/-- One token from a character that is neither white space nor the start of a comment. -/
def readTokenAt (r : Reader) : Result (Token × Reader) :=
  if isIdentifierStart ch then readIdentifier r
  else if isQuote ch then readString true r
  else if isCharQuote ch then readCharLiteral r
  else if isOperator ch then readOperator r
  else throw (.error r.pos (.UnknownChar ch))

/-- The loop of `read_token`. Each round but the last one takes a comment. -/
def readTokenOn : ℕ → Reader → Result (Token × Reader)
  | 0, _ => .error .running
  | fuel + 1, r => do
    let r ← skipWhite r
    match r.curr with
    | none => do
      let span ← Span.at r.idx
      return (⟨.End, r.pos, span⟩, r)
    | some ch =>
      if isDigit ch then readNumber r
      else if ← r.startsWith '/' '/' then do
        readTokenOn fuel (← readComment r)
      else if ← r.startsWith '/' '*' then do
        readTokenOn fuel (← readMultiComment r)
      else readTokenAt ch r

def readToken : Result (Token × Reader) := readTokenOn (r.rest.length + 1) r

/-- The tokens up to the end of the text. -/
def readTokensOn : ℕ → Reader → Result (List Token)
  | 0, _ => .error .running
  | fuel + 1, r => do
    let (token, r) ← readToken r
    if token.kind = .End then return [token]
    else return token :: (← readTokensOn fuel r)

def readTokens (src : List Char) : Result (List Token) :=
  readTokensOn (src.length + 1) (.fromString src)

end Dora.Parser
