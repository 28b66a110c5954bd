import AccessLayer.Surql.Lexeme
import AccessLayer.Text.Quoted

/-!
# Errors of reading a definition file

An error is a cause and the place where it was noticed. The wording of every cause is in
`ParseFault.message`; `ParseFault.isAbort` tells the causes that no text has.
-/

namespace AccessLayer.Surql

/-- How messages show a token: strings with their text quoted, other tokens as they are spelled. -/
def Token.describe (t : Token) : Bytes :=
  match t.kind with
  | .endOfInput => t.kind.name
  | .string | .datetime | .uuid | .recordId => t.kind.name ++ " " ++ Bytes.quote t.literal
  | _ => if t.literal.isEmpty then t.kind.name else "'" ++ t.literal ++ "'"

/-- Why a text is no sequence of statements. -/
inductive ParseFault where
  | lex (fault : LexFault)
  | unclosed (kind : TokenKind)
  /-- A closing bracket does not match the innermost open one. -/
  | unexpectedCloser (kind : TokenKind)
  | expectedKind (kind : TokenKind) (got : Token)
  | expectedKeyword (word : Bytes) (got : Token)
  | expectedDefinitionKind (got : Token)
  | expectedName (what : Bytes) (got : Token)
  | expectedOn (got : Token)
  | expectedType (got : Token)
  | expectedObjectKey (got : Token)
  | expectedRecordId (got : Token)
  | expectedElseOrEnd (got : Token)
  | unexpectedAfterDot (got : Token)
  | unexpectedInTraversal (got : Token)
  | unexpectedInExpression (got : Token)
  /-- The expression is nested deeper than it has tokens, which no text is. -/
  | tooDeep
  /-- A reader asks for tokens or for text that the statement does not have, which none does. -/
  | outOfRange
deriving DecidableEq, Repr

/-- Whether a reader went astray, which says nothing about the text. -/
def ParseFault.isAbort : ParseFault → Bool
  | .tooDeep | .outOfRange => true
  | _ => false

def LexFault.message : LexFault → Bytes
  | .unterminatedComment => "unterminated block comment"
  | .unterminatedString => "unterminated string"
  | .unterminatedIdent => "unterminated quoted identifier"
  | .missingParamName => "expected parameter name after '$'"
  | .unexpectedChar c => "unexpected character " ++ quoteChar c

def ParseFault.message : ParseFault → Bytes
  | .lex fault => fault.message
  | .unclosed kind => "unclosed " ++ kind.name
  | .unexpectedCloser kind => "unexpected " ++ kind.name
  | .expectedKind kind got => "expected " ++ kind.name ++ ", got " ++ got.describe
  | .expectedKeyword word got => "expected " ++ word ++ ", got " ++ got.describe
  | .expectedDefinitionKind got =>
    "expected definition kind after DEFINE, got " ++ got.describe
  | .expectedName what got => "expected " ++ what ++ " name, got " ++ got.describe
  | .expectedOn got => "expected ON in DEFINE FIELD, got " ++ got.describe
  | .expectedType got => "expected type, got " ++ got.describe
  | .expectedObjectKey got => "expected object key, got " ++ got.describe
  | .expectedRecordId got => "expected record id, got " ++ got.describe
  | .expectedElseOrEnd got => "expected ELSE or END, got " ++ got.describe
  | .unexpectedAfterDot got => "unexpected " ++ got.describe ++ " after '.'"
  | .unexpectedInTraversal got => "unexpected " ++ got.describe ++ " in graph traversal"
  | .unexpectedInExpression got => "unexpected " ++ got.describe ++ " in expression"
  | .tooDeep => "expression nested too deep"
  | .outOfRange => "read out of range"

/-- A fault and the place where it was noticed. -/
structure ParseError where
  fault : ParseFault
  place : Position
deriving DecidableEq, Repr

/-- The full text of an error, with its line and column. -/
def ParseError.message (e : ParseError) : Bytes :=
  "line " ++ Bytes.ofNat e.place.line ++ " col " ++ Bytes.ofNat e.place.col ++ ": " ++
    e.fault.message

end AccessLayer.Surql
