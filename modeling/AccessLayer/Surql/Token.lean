import AccessLayer.Text.Rune

/-!
# Tokens of SurrealQL

A token is a classified piece of a definition file. It keeps its literal, which is the spelled text
or, for strings, the text they stand for, and its place in the file.

* `TokenKind`: the lexical classes, with the names used in messages.
* `Position`: a place in a file, by byte offset and by line and column.
* `Token.isKeyword`: keywords are identifiers compared without regard to ASCII case.
-/

namespace AccessLayer.Surql

/-- The lexical classes. -/
inductive TokenKind where
  | endOfInput
  | ident
  | param
  | string
  | datetime
  | uuid
  | recordId
  | number
  | duration
  | lparen
  | rparen
  | lbracket
  | rbracket
  | lbrace
  | rbrace
  | comma
  | semicolon
  | colon
  | dot
  | lt
  | gt
  | operator
deriving DecidableEq, Repr, Inhabited

namespace TokenKind

def all : List TokenKind :=
  [endOfInput, ident, param, string, datetime, uuid, recordId, number, duration, lparen, rparen,
    lbracket, rbracket, lbrace, rbrace, comma, semicolon, colon, dot, lt, gt, operator]

def name : TokenKind → String
  | endOfInput => "end of input"
  | ident => "identifier"
  | param => "parameter"
  | string => "string"
  | datetime => "datetime"
  | uuid => "uuid"
  | recordId => "record id"
  | number => "number"
  | duration => "duration"
  | lparen => "'('"
  | rparen => "')'"
  | lbracket => "'['"
  | rbracket => "']'"
  | lbrace => "'\x7b'"
  | rbrace => "'\x7d'"
  | comma => "','"
  | semicolon => "';'"
  | colon => "':'"
  | dot => "'.'"
  | lt => "'<'"
  | gt => "'>'"
  | operator => "operator"

/-- The name of the class with the given code; a code without a class is shown as a number. -/
def nameOfCode (code : Int) : String :=
  match code with
  | .ofNat n =>
    match all[n]? with
    | some kind => kind.name
    | none => "TokenType(" ++ toString n ++ ")"
  | .negSucc n => "TokenType(-" ++ toString (n + 1) ++ ")"

def isOpener : TokenKind → Bool
  | lparen | lbracket | lbrace => true
  | _ => false

def isCloser : TokenKind → Bool
  | rparen | rbracket | rbrace => true
  | _ => false

def closer? : TokenKind → Option TokenKind
  | lparen => some rparen
  | lbracket => some rbracket
  | lbrace => some rbrace
  | _ => none

end TokenKind

/-- A place in a file. Lines and columns count from one; columns count code points. -/
structure Position where
  offset : Nat
  line : Nat
  col : Nat
deriving DecidableEq, Repr, Inhabited

namespace Position

def start : Position := ⟨0, 1, 1⟩

def next (p : Position) (r : Rune) : Position :=
  if r.char == '\n' then ⟨p.offset + r.bytes.length, p.line + 1, 1⟩
  else ⟨p.offset + r.bytes.length, p.line, p.col + 1⟩

def after (p : Position) (rs : List Rune) : Position := rs.foldl next p

theorem after_append (p : Position) (rs ss : List Rune) :
    p.after (rs ++ ss) = (p.after rs).after ss := by
  simp [after]

end Position

/-- A token with its place: it starts at `start` and ends before the byte offset `stop`. -/
structure Token where
  kind : TokenKind
  literal : Bytes
  start : Position
  stop : Nat
deriving DecidableEq, Repr, Inhabited

namespace Token

def endAt (p : Position) : Token := ⟨.endOfInput, [], p, p.offset⟩

/-- The byte with an ASCII capital made small. -/
def foldByte (b : UInt8) : UInt8 := if 0x41 ≤ b && b ≤ 0x5A then b + 0x20 else b

/-- Whether two texts are equal but for the case of ASCII letters. -/
def sameWord (a b : Bytes) : Bool := a.map foldByte == b.map foldByte

/-- Whether the token is an identifier that spells the keyword in any case. -/
def isKeyword (t : Token) (word : Bytes) : Bool :=
  t.kind == .ident && sameWord t.literal word

def isOperator (t : Token) (op : Bytes) : Bool :=
  t.kind == .operator && t.literal == op

end Token

end AccessLayer.Surql
