import AccessLayer.Surql.Parse.Kind
import AccessLayer.Surql.Value

/-!
# Reading expressions

Binary operators are read by precedence climbing over unary expressions; a unary expression is a
primary one with a tail of field accesses, indexes and graph steps. The readers take the reader of
the nested expressions as an argument, and `exprFuel` ties the knot with one unit of fuel for each
token.

* `BinaryOp.at?`: the binary operator at a cursor.
* `value`: reads one expression.
-/

namespace AccessLayer.Surql

open Reader

/-! ## Operators -/

/-- A binary operator where it stands: its name, how tightly it binds and how many tokens it
takes. -/
structure BinaryOp where
  name : Bytes
  prec : Nat
  width : Nat

namespace BinaryOp

/-- How tightly the operators that are spelled with symbols bind. -/
def symbolPrec : List (Bytes × Nat) :=
  [("||", 1), ("&&", 2), ("??", 3), ("?:", 3),
    ("=", 4), ("==", 4), ("!=", 4), ("*=", 4), ("?=", 4), ("~", 4), ("!~", 4), ("?~", 4),
    ("*~", 4), ("@@", 4),
    ("<=", 6), (">=", 6), ("+", 7), ("-", 7), ("*", 8), ("/", 8), ("%", 8), ("**", 9)]

/-- The operators spelled as words that bind like a membership test. -/
def wordOps : List Bytes :=
  ["CONTAINS", "CONTAINSNOT", "CONTAINSALL", "CONTAINSANY", "CONTAINSNONE", "INSIDE", "NOTINSIDE",
    "ALLINSIDE", "ANYINSIDE", "NONEINSIDE", "OUTSIDE", "INTERSECTS", "IN"]

/-- The operator that a word is, given the token after it. -/
def ofWord? (word : Bytes) (next : Token) : Option BinaryOp :=
  if word == "OR" then some ⟨word, 1, 1⟩
  else if word == "AND" then some ⟨word, 2, 1⟩
  else if word == "IS" then
    if next.isKeyword "NOT" then some ⟨"IS NOT", 4, 2⟩ else some ⟨word, 4, 1⟩
  else if word == "NOT" then
    if next.isKeyword "IN" || next.isKeyword "INSIDE" then
      some ⟨"NOT " ++ Bytes.toUpper next.literal, 5, 2⟩
    else none
  else if wordOps.contains word then some ⟨word, 5, 1⟩
  else none

def at? (c : Cursor) : Option BinaryOp :=
  let t := c.peek
  match t.kind with
  | .lt => some ⟨"<", 6, 1⟩
  | .gt => some ⟨">", 6, 1⟩
  | .operator => (symbolPrec.lookup t.literal).map fun prec => ⟨t.literal, prec, 1⟩
  | .ident => ofWord? (Bytes.toUpper t.literal) (c.peekAt 1)
  | _ => none

end BinaryOp

/-! ## Embedded statements -/

/-- The keywords that start a statement where an expression may stand. -/
def statementKeywords : List Bytes :=
  ["SELECT", "CREATE", "UPDATE", "UPSERT", "DELETE", "RELATE", "INSERT", "DEFINE", "REMOVE", "LET",
    "RETURN", "THROW", "FOR", "BREAK", "CONTINUE", "INFO", "LIVE", "KILL", "SLEEP", "USE", "BEGIN",
    "COMMIT", "CANCEL", "ALTER", "REBUILD", "SHOW", "OPTION"]

/-- Whether a statement starts at the cursor, and not a field that is named like a keyword. -/
def startsStatement (c : Cursor) : Bool :=
  let t := c.peek
  let next := c.peekAt 1
  t.kind == .ident && statementKeywords.contains (Bytes.toUpper t.literal) &&
    match next.kind with
    | .ident | .param | .string | .number | .duration | .lbrace | .recordId => true
    | .operator => next.literal == "*"
    | .endOfInput | .rparen | .rbrace => t.isKeyword "BREAK" || t.isKeyword "CONTINUE"
    | _ => false

namespace Value

/-! ## Lists of expressions -/

/-- Expressions divided by commas up to a closing bracket, which stays unread. A comma may stand
before the bracket. -/
def elements (nested : Reader Value) (closer : TokenKind) : (fuel : Nat) → Reader (List Value)
  | 0 => exhausted
  | fuel + 1 => do
    if ← check closer then return []
    else
      let v ← nested
      if ← check .comma then
        discard advance
        return v :: (← elements nested closer fuel)
      else return [v]

def callArgs (nested : Reader Value) (fuel : Nat) : Reader (List Value) := do
  expect .lparen
  let args ← elements nested .rparen fuel
  expect .rparen
  return args

def array (nested : Reader Value) (fuel : Nat) : Reader Value := do
  let start ← advance
  let elems ← elements nested .rbracket fuel
  expect .rbracket
  return .literal start.start.offset .array (← raw start.start.offset) elems

def isKey (t : Token) : Bool := t.kind == .ident || t.kind == .string || t.kind == .number

def entry (nested : Reader Value) : Reader Value := do
  let key ← advance
  if isKey key then
    expect .colon
    nested
  else failAt key (.expectedObjectKey key)

/-- An object, or a block of statements, between braces. -/
def objectOrBlock (nested : Reader Value) (fuel : Nat) : Reader Value := do
  let c ← get
  let first := c.peekAt 1
  let isObject := first.kind == .rbrace || (isKey first && (c.peekAt 2).kind == .colon)
  let start ← advance
  if isObject then
    let elems ← elements (entry nested) .rbrace fuel
    expect .rbrace
    return .literal start.start.offset .object (← raw start.start.offset) elems
  else
    skipBalanced
    return .other start.start.offset .block (← raw start.start.offset)

def paren (nested : Reader Value) : Reader Value := do
  let start ← advance
  if startsStatement (← get) then skipBalanced
  else
    discard nested
    expect .rparen
  return .other start.start.offset .subquery (← raw start.start.offset)

/-! ## Conditionals -/

def braceBranches (nested : Reader Value) : (fuel : Nat) → Reader Unit
  | 0 => exhausted
  | fuel + 1 => do
    if ← acceptKeyword "ELSE" then
      if ← acceptKeyword "IF" then discard nested
      expect .lbrace
      skipBalanced
      braceBranches nested fuel

/-- Further branches of a conditional with words, up to and including its end. -/
def wordBranches (nested : Reader Value) : (fuel : Nat) → Reader Unit
  | 0 => exhausted
  | fuel + 1 => do
    if ← acceptKeyword "END" then return ()
    else if ← acceptKeyword "ELSE" then
      if ← acceptKeyword "IF" then
        discard nested
        expectKeyword "THEN"
      discard nested
      wordBranches nested fuel
    else
      let t ← peek
      failAt t (.expectedElseOrEnd t)

/-- A conditional, with its branches in braces or between words. -/
def conditional (nested : Reader Value) (fuel : Nat) : Reader Value := do
  let start ← advance
  discard nested
  if ← check .lbrace then
    discard advance
    skipBalanced
    braceBranches nested fuel
  else
    expectKeyword "THEN"
    discard nested
    wordBranches nested fuel
  return .other start.start.offset .conditional (← raw start.start.offset)

/-! ## Primary expressions -/

def wordLiteral? (word : Bytes) : Option LiteralKind :=
  if word == "NONE" then some .none
  else if word == "NULL" then some .null
  else if word == "TRUE" || word == "FALSE" then some .bool
  else none

/-- The key of a record id after its table and colon. -/
def recordKey : Reader Unit := do
  let id ← advance
  match id.kind with
  | .ident | .number | .string => return ()
  | .lbrace | .lbracket | .lparen => skipBalanced
  | _ => failAt id (.expectedRecordId id)

def wordValue (nested : Reader Value) (fuel : Nat) : Reader Value := do
  let c ← get
  let t := c.peek
  let pos := t.start.offset
  let word := Bytes.toUpper t.literal
  let next := c.peekAt 1
  match wordLiteral? word with
  | some kind =>
    discard advance
    return .literal pos kind t.literal []
  | none =>
    if word == "IF" then conditional nested fuel
    else if startsStatement c then
      skipStatement
      return .other pos .statement (← raw pos)
    else if word == "FUNCTION" && next.kind == .lparen then
      discard advance
      let args ← callArgs nested fuel
      expect .lbrace
      skipBalanced
      return .call pos .script "function" args
    else if next.kind == .lparen then
      discard advance
      let args ← callArgs nested fuel
      let kind := if (Bytes.ofString "fn::").isPrefixOf (Bytes.toLower t.literal) then .custom
        else .normal
      return .call pos kind t.literal args
    else if next.kind == .colon then
      discard advance
      discard advance
      recordKey
      return .literal pos .record (← raw pos) []
    else if Bytes.hasPart "::" t.literal then
      discard advance
      return .literal pos .constant t.literal []
    else
      discard advance
      return .other pos .idiom t.literal

def tokenLiteral? (kind : TokenKind) : Option LiteralKind :=
  match kind with
  | .number => some .number
  | .duration => some .duration
  | .string => some .string
  | .datetime => some .datetime
  | .uuid => some .uuid
  | .recordId => some .record
  | _ => none

/-- An expression without operators and tail. -/
def primary (nested : Reader Value) (fuel : Nat) : Reader Value := do
  let t ← peek
  match tokenLiteral? t.kind with
  | some kind =>
    discard advance
    return .literal t.start.offset kind t.literal []
  | none =>
    match t.kind with
    | .param =>
      discard advance
      return .param t.start.offset t.literal
    | .lbracket => array nested fuel
    | .lbrace => objectOrBlock nested fuel
    | .lparen => paren nested
    | .ident => wordValue nested fuel
    | _ => failAt t (.unexpectedInExpression t)

/-! ## Tails -/

/-- What follows a point: a field, a call, all fields, or a selection in brackets. -/
def afterDot : Reader Unit := do
  let next ← advance
  match next.kind with
  | .ident =>
    if ← check .lparen then
      discard advance
      skipBalanced
  | .lbrace | .lbracket => skipBalanced
  | _ => unless next.isOperator "*" do failAt next (.unexpectedAfterDot next)

def afterArrow : Reader Unit := do
  let next ← advance
  match next.kind with
  | .ident => return ()
  | .lparen | .lbracket => skipBalanced
  | _ => unless next.isOperator "?" do failAt next (.unexpectedInTraversal next)

def isArrow (t : Token) : Bool := t.isOperator "->" || t.isOperator "<-" || t.isOperator "<->"

/-- Reads one step of a tail if there is one, and tells whether there was. -/
def tailStep : Reader Bool := do
  let t ← peek
  if t.kind == .dot then
    discard advance
    afterDot
    return true
  else if t.kind == .lbracket then
    discard advance
    skipBalanced
    return true
  else if isArrow t then
    discard advance
    afterArrow
    return true
  else return false

def tailSteps : (fuel : Nat) → Reader Unit
  | 0 => exhausted
  | fuel + 1 => do
    if ← tailStep then tailSteps fuel

/-- A primary expression with its tail; with a tail it is an idiom. -/
def withTail (one : Reader Value) (fuel : Nat) : Reader Value := do
  let v ← one
  if ← tailStep then
    tailSteps fuel
    return .other v.pos .idiom (← raw v.pos)
  else return v

/-! ## Operators -/

def isSign (t : Token) : Bool := t.isOperator "-" || t.isOperator "+"

/-- An operand with the signs, negations and casts before it. A sign directly before a number
belongs to the number. -/
def unary (operand : Reader Value) (type : Reader Kind) : (fuel : Nat) → Reader Value
  | 0 => exhausted
  | fuel + 1 => do
    let c ← get
    let t := c.peek
    let next := c.peekAt 1
    let pos := t.start.offset
    if isSign t && next.kind == .number && next.start.offset == t.stop then
      discard advance
      discard advance
      return .literal pos .number (← raw pos) []
    else if isSign t || t.isOperator "!" then
      discard advance
      discard (unary operand type fuel)
      return .other pos .unary (← raw pos)
    else if t.kind == .lt then
      discard advance
      let k ← type
      expect .gt
      let v ← unary operand type fuel
      return .call pos .cast k.render [v]
    else operand

/-- Reads further operators that bind at least as tightly as `least` onto a left operand. -/
def climb (expr : Nat → Reader Value) (least : Nat) : (fuel : Nat) → Value → Reader Value
  | 0, _ => exhausted
  | fuel + 1, left => do
    match BinaryOp.at? (← get) with
    | none => return left
    | some op =>
      if op.prec < least then return left
      else
        jump op.width
        let right ← expr (op.prec + 1)
        climb expr least fuel (.binary left.pos left op.name right)

end Value

/-- Reads an expression whose operators bind at least as tightly as `least`, with the given
fuel. -/
def exprFuel : (fuel : Nat) → (least : Nat) → Reader Value
  | 0, _ => exhausted
  | fuel + 1, least => do
    let nested := exprFuel fuel 1
    let operand := Value.withTail (Value.primary nested fuel) fuel
    let left ← Value.unary operand (kindFuel fuel) (fuel + 1)
    Value.climb (exprFuel fuel) least fuel left

def value : Reader Value := do exprFuel ((← get).rest.length + 1) 1

end AccessLayer.Surql
