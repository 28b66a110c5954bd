import AccessLayer.Surql.Span

/-!
# Reading the tokens of a statement

A cursor stands between the tokens of a statement that were read and those that were not. Reading
never moves past the end: there the cursor shows the end-of-input token and stays.

* `Cursor`: the state of reading.
* `Reader`: a computation that reads tokens and may fail at a place.
* `Cursor.skipBalanced`, `Cursor.skipStatement`: the two ways to skip tokens by bracket depth.
-/

namespace AccessLayer.Surql

/-- The tokens of a statement that are not read yet. `last` is the end of the last token read, if
one was read. -/
structure Cursor where
  src : Bytes
  rest : List Token
  stop : Token
  last : Option Nat

namespace Cursor

def ofSpan (src : Bytes) (span : Span) : Cursor := ⟨src, span.tokens, span.stop, none⟩

/-- The `n`-th token from here, the end-of-input token past the end. -/
def peekAt (c : Cursor) (n : Nat) : Token := c.rest[n]?.getD c.stop

def peek (c : Cursor) : Token := c.rest.headD c.stop

def atEnd (c : Cursor) : Bool := c.rest.isEmpty

def advance (c : Cursor) : Token × Cursor :=
  match c.rest with
  | [] => (c.stop, c)
  | t :: ts => (t, { c with rest := ts, last := some t.stop })

def skip : Nat → Cursor → Cursor
  | 0, c => c
  | n + 1, c => skip n c.advance.2

def skipToEnd (c : Cursor) : Cursor := c.skip c.rest.length

/-- The source text from an offset to the end of the last token read, without white space at its
ends; empty before the first token. There is none when the end lies before the offset or outside of
the source. -/
def raw? (c : Cursor) (start : Nat) : Option Bytes :=
  match c.last with
  | none => some []
  | some stop =>
    if start ≤ stop && stop ≤ c.src.length then some (Bytes.trim (Bytes.slice c.src start stop))
    else none

/-- How many tokens come before the closing bracket that ends `depth` open ones, that bracket
included; all of them when there is none. -/
def balancedLength : (depth : Nat) → List Token → Nat
  | 0, _ => 0
  | _ + 1, [] => 0
  | depth + 1, t :: ts =>
    if t.kind.isOpener then balancedLength (depth + 2) ts + 1
    else if t.kind.isCloser then balancedLength depth ts + 1
    else balancedLength (depth + 1) ts + 1

/-- The cursor after the closing bracket of an opening one that was just read. -/
def skipBalanced (c : Cursor) : Cursor := c.skip (balancedLength 1 c.rest)

/-- How many tokens come before the first closing bracket that no bracket among them opens. -/
def statementLength : (depth : Nat) → List Token → Nat
  | _, [] => 0
  | depth, t :: ts =>
    if t.kind.isOpener then statementLength (depth + 1) ts + 1
    else if t.kind.isCloser then
      match depth with
      | 0 => 0
      | d + 1 => statementLength d ts + 1
    else statementLength depth ts + 1

/-- The cursor before the first unmatched closing bracket or at the end. -/
def skipStatement (c : Cursor) : Cursor := c.skip (statementLength 0 c.rest)

end Cursor

abbrev Reader := StateT Cursor (Except ParseError)

namespace Reader

/-- The next token, which stays unread. -/
def peek : Reader Token := return (← get).peek

/-- The `n`-th token from here, which stays unread. -/
def peekAt (n : Nat) : Reader Token := return (← get).peekAt n

def advance : Reader Token := modifyGet Cursor.advance

def failAt {α : Type} (t : Token) (fault : ParseFault) : Reader α := throw ⟨fault, t.start⟩

/-- Fails because the fuel is used up, which cannot happen with a unit of fuel for each token. -/
def exhausted {α : Type} : Reader α := do failAt (← peek) .tooDeep

def check (kind : TokenKind) : Reader Bool := return (← peek).kind == kind

def checkKeyword (word : Bytes) : Reader Bool := return (← peek).isKeyword word

def expect (kind : TokenKind) : Reader Unit := do
  let t ← peek
  if t.kind == kind then discard advance else failAt t (.expectedKind kind t)

def expectKeyword (word : Bytes) : Reader Unit := do
  let t ← peek
  if t.isKeyword word then discard advance else failAt t (.expectedKeyword word t)

/-- Reads a keyword if it comes next, and tells whether it did. -/
def acceptKeyword (word : Bytes) : Reader Bool := do
  if ← checkKeyword word then
    discard advance
    return true
  else return false

/-- The source text of what was read since an offset. -/
def raw (start : Nat) : Reader Bytes := do
  let c ← get
  match c.raw? start with
  | some text => return text
  | none => failAt c.peek .outOfRange

/-- Reads `n` tokens at once, all of which have to be there. -/
def jump (n : Nat) : Reader Unit := do
  let c ← get
  if n ≤ c.rest.length then set (c.skip n) else failAt c.peek .outOfRange

/-- Skips to after the closing bracket of an opening one that was just read. -/
def skipBalanced : Reader Unit := modify Cursor.skipBalanced

/-- Skips to before the first unmatched closing bracket. -/
def skipStatement : Reader Unit := modify Cursor.skipStatement

def skipToEnd : Reader Unit := modify Cursor.skipToEnd

end Reader

end AccessLayer.Surql
