import AccessLayer.Surql.Token
import AccessLayer.Text.Letter

/-!
# Lexemes

Reading one token off the front of a text, without regard to where the text stands in a file. Every
reader splits its input: what it takes and what it leaves, in order, are the input again.

* `gap`: one piece of white space or one comment.
* `lexeme`: one token.
* `number`, `word`, `quotedIdent`, `stringBody`: the readers of the single classes.
-/

namespace AccessLayer.Surql

/-- Why no token can be read. -/
inductive LexFault where
  | unterminatedComment
  | unterminatedString
  | unterminatedIdent
  | missingParamName
  | unexpectedChar (c : Char)
deriving DecidableEq, Repr

/-- A token as read: its class, its literal, the code points it takes and those it leaves. -/
structure Lexeme where
  kind : TokenKind
  literal : Bytes
  taken : List Rune
  rest : List Rune
deriving Repr

namespace Lexeme

/-- The first character, the null character when nothing is left. -/
def peek (rs : List Rune) : Char :=
  match rs with
  | [] => '\x00'
  | r :: _ => r.char

def startsWith : List Char → List Rune → Bool
  | [], _ => true
  | _ :: _, [] => false
  | c :: cs, r :: rs => r.char == c && startsWith cs rs

def isIdentStart (c : Char) : Bool := c == '_' || isLetter c

/-- A letter, a digit or an underscore. -/
def isIdentPart (c : Char) : Bool := isIdentStart c || isDigit c

/-- The longest front whose characters are all in the class, and what follows it. -/
def spanChars (p : Char → Bool) (rs : List Rune) : List Rune × List Rune :=
  (rs.takeWhile fun r => p r.char, rs.dropWhile fun r => p r.char)

/-! ## Gaps -/

/-- The text up to and including the first `*/`, and what follows it. -/
def commentBody : List Rune → Option (List Rune × List Rune)
  | [] => none
  | r :: rs =>
    if startsWith ['*', '/'] (r :: rs) then some ((r :: rs).take 2, (r :: rs).drop 2)
    else (commentBody rs).map fun (body, rest) => (r :: body, rest)

/-- One piece of the gap before a token: a run of white space, a line comment without its line
break, or a block comment. The result is `none` when a token or the end comes next. -/
def gap (rs : List Rune) : Except LexFault (Option (List Rune × List Rune)) :=
  match rs with
  | [] => .ok none
  | r :: rest =>
    if isSpace r.char then .ok (some (spanChars isSpace rs))
    else if startsWith ['-', '-'] rs || startsWith ['/', '/'] rs || r.char == '#' then
      .ok (some (spanChars (· != '\n') rs))
    else if startsWith ['/', '*'] rs then
      match commentBody (rest.drop 1) with
      | some (body, after) => .ok (some (rs.take 2 ++ body, after))
      | none => .error .unterminatedComment
    else .ok none

/-! ## Strings and quoted identifiers -/

/-- The character that a backslash and `c` stand for, if they are an escape. -/
def unescape? (c : Char) : Option Char :=
  match c with
  | 'n' => some '\n'
  | 't' => some '\t'
  | 'r' => some '\r'
  | 'b' => some '\x08'
  | 'f' => some '\x0c'
  | '0' => some '\x00'
  | '\\' => some '\\'
  | '"' => some '"'
  | '\'' => some '\''
  | '`' => some '`'
  | '/' => some '/'
  | _ => none

/-- The text of a backslash and the character after it: the escape they form, or the two as they
are. -/
def unescape (c : Char) : List Char :=
  match unescape? c with
  | some d => [d]
  | none => ['\\', c]

/-- The characters up to the closing quote with escapes replaced, what was taken, the quote
included, and the rest; `none` when the quote is missing. -/
def stringBody (quote : Char) : List Rune → Option (List Char × List Rune × List Rune)
  | [] => none
  | [r] => if r.char == quote then some ([], [r], []) else none
  | r :: e :: rs =>
    if r.char == quote then some ([], [r], e :: rs)
    else if r.char == '\\' then
      (stringBody quote rs).map fun (text, taken, rest) =>
        (unescape e.char ++ text, r :: e :: taken, rest)
    else
      (stringBody quote (e :: rs)).map fun (text, taken, rest) =>
        (r.char :: text, r :: taken, rest)

/-- A string whose opening quote is the first code point, after the code points `front`. -/
def stringFrom (kind : TokenKind) (front : List Rune) (rs : List Rune) : Except LexFault Lexeme :=
  match rs with
  | [] => .error .unterminatedString
  | q :: body =>
    match stringBody q.char body with
    | some (text, taken, rest) =>
      .ok ⟨kind, Bytes.ofChars text, front ++ q :: taken, rest⟩
    | none => .error .unterminatedString

/-- An identifier between the first code point and `closing`. -/
def quotedIdent (closing : Char) (rs : List Rune) : Except LexFault Lexeme :=
  match rs with
  | [] => .error .unterminatedIdent
  | o :: body =>
    match spanChars (· != closing) body with
    | (_, []) => .error .unterminatedIdent
    | (name, c :: rest) => .ok ⟨.ident, Bytes.ofRunes name, o :: name ++ [c], rest⟩

/-! ## Numbers and durations -/

def durationUnits : List Bytes :=
  ["ns", "us", "µs", "ms", "s", "m", "h", "d", "w", "y"]

/-- A run of digits in which single underscores may stand before a digit. -/
def digits : List Rune → List Rune × List Rune
  | [] => ([], [])
  | r :: rs =>
    if isAsciiDigit r.char || (r.char == '_' && isAsciiDigit (peek rs)) then
      let (taken, rest) := digits rs
      (r :: taken, rest)
    else ([], r :: rs)

/-- The fraction after the digits of a number: a point and digits. -/
def fraction (rs : List Rune) : List Rune × List Rune :=
  match rs with
  | p :: rest =>
    if p.char == '.' && isAsciiDigit (peek rest) then
      let (taken, rest) := digits rest
      (p :: taken, rest)
    else ([], rs)
  | [] => ([], [])

/-- The exponent after a number: a letter `e`, a sign that may be missing, and digits. -/
def exponent (rs : List Rune) : List Rune × List Rune :=
  match rs with
  | e :: s :: rest =>
    if (e.char == 'e' || e.char == 'E') &&
        (isAsciiDigit s.char || ((s.char == '-' || s.char == '+') && isAsciiDigit (peek rest))) then
      let (taken, rest) := digits rest
      (e :: s :: taken, rest)
    else ([], rs)
  | _ => ([], rs)

/-- Reads further counts with units after the first unit. The flag tells whether every count had a
unit; reading stops at the first that has none. -/
def moreUnits : (fuel : Nat) → List Rune → Bool × List Rune × List Rune
  | 0, rs => (true, [], rs)
  | fuel + 1, rs =>
    if isAsciiDigit (peek rs) then
      let (count, rs₁) := digits rs
      let (unit, rs₂) := spanChars isLetter rs₁
      if durationUnits.contains (Bytes.ofRunes unit) then
        let (ok, taken, rest) := moreUnits fuel rs₂
        (ok, count ++ unit ++ taken, rest)
      else (false, count ++ unit, rs₂)
    else (true, [], rs)

/-- What follows the digits of a number, if an identifier character does: the class of the whole
and the code points up to the end of the identifier characters. -/
def numberSuffix (rs : List Rune) : TokenKind × List Rune × List Rune :=
  if isIdentStart (peek rs) then
    let (suffix, rs₁) := spanChars isLetter rs
    let word := Bytes.ofRunes suffix
    let (kind, units, rs₂) : TokenKind × List Rune × List Rune :=
      if durationUnits.contains word then
        let (ok, taken, rest) := moreUnits rs₁.length rs₁
        (if ok then .duration else .ident, taken, rest)
      else if word == "f" || word == "dec" then (.number, [], rs₁)
      else (.ident, [], rs₁)
    let (tail, rs₃) := spanChars isIdentPart rs₂
    (if tail.isEmpty then kind else .ident, suffix ++ units ++ tail, rs₃)
  else (.number, [], rs)

/-- A number, a duration or an identifier that starts with a digit. -/
def number (rs : List Rune) : Lexeme :=
  let (whole, rs₁) := digits rs
  let (frac, rs₂) := fraction rs₁
  let (exp, rs₃) := exponent rs₂
  let (kind, suffix, rs₄) := numberSuffix rs₃
  let taken := whole ++ frac ++ exp ++ suffix
  ⟨kind, Bytes.ofRunes taken, taken, rs₄⟩

/-! ## Words -/

/-- Identifier characters, with `::` between two parts that both are names. -/
def path : (fuel : Nat) → List Rune → List Rune × List Rune
  | 0, rs => ([], rs)
  | fuel + 1, rs =>
    let (part, rs₁) := spanChars isIdentPart rs
    if startsWith [':', ':'] rs₁ && isIdentStart (peek (rs₁.drop 2)) then
      let (taken, rest) := path fuel (rs₁.drop 2)
      (part ++ rs₁.take 2 ++ taken, rest)
    else (part, rs₁)

/-- The class of a string that directly follows a one-letter word. -/
def stringMark? (word : Bytes) : Option TokenKind :=
  if word == "s" then some .string
  else if word == "d" then some .datetime
  else if word == "u" then some .uuid
  else if word == "r" then some .recordId
  else none

/-- An identifier, or a string with a one-letter mark in front. -/
def word (rs : List Rune) : Except LexFault Lexeme :=
  let (taken, rest) := path rs.length rs
  let text := Bytes.ofRunes taken
  let quote := peek rest
  match if quote == '"' || quote == '\'' then stringMark? text else none with
  | some kind => stringFrom kind taken rest
  | none => .ok ⟨.ident, text, taken, rest⟩

/-! ## Operators and punctuation -/

/-- The operators of several characters, longer ones first. -/
def longOperators : List String :=
  ["<->", "+?=", "...",
    "->", "<-", "==", "!=", "*=", "?=", "<=", ">=", "&&", "||", "??", "?:",
    "+=", "-=", "..", "!~", "?~", "*~", "**", "@@"]

def shortOperators : List Char :=
  ['=', '!', '~', '+', '-', '*', '/', '?', '@', '%', '&', '|', '^']

def punctuation? (c : Char) : Option TokenKind :=
  match c with
  | '(' => some .lparen
  | ')' => some .rparen
  | '[' => some .lbracket
  | ']' => some .rbracket
  | '{' => some .lbrace
  | '}' => some .rbrace
  | ',' => some .comma
  | ';' => some .semicolon
  | ':' => some .colon
  | '.' => some .dot
  | '<' => some .lt
  | '>' => some .gt
  | _ => if shortOperators.contains c then some .operator else none

def symbol (rs : List Rune) : Except LexFault Lexeme :=
  match longOperators.find? fun op => startsWith op.toList rs with
  | some op => .ok ⟨.operator, op, rs.take op.length, rs.drop op.length⟩
  | none =>
    let c := peek rs
    match punctuation? c with
    | some kind => .ok ⟨kind, Bytes.ofChars [c], rs.take 1, rs.drop 1⟩
    | none => .error (.unexpectedChar c)

/-- A parameter: a dollar sign and identifier characters. -/
def param (rs : List Rune) : Except LexFault Lexeme :=
  let (name, rest) := spanChars isIdentPart (rs.drop 1)
  if name.isEmpty then .error .missingParamName
  else .ok ⟨.param, Bytes.ofRunes name, rs.take 1 ++ name, rest⟩

end Lexeme

/-- Reads one token off a text that is not empty and starts with no gap. -/
def lexeme (rs : List Rune) : Except LexFault Lexeme :=
  let c := Lexeme.peek rs
  if c == '$' then Lexeme.param rs
  else if c == '"' || c == '\'' then Lexeme.stringFrom .string [] rs
  else if c == '`' then Lexeme.quotedIdent '`' rs
  else if c == '⟨' then Lexeme.quotedIdent '⟩' rs
  else if isAsciiDigit c then .ok (Lexeme.number rs)
  else if Lexeme.isIdentStart c then Lexeme.word rs
  else Lexeme.symbol rs

end AccessLayer.Surql
