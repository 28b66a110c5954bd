import AccessLayer.Go.Token
import AccessLayer.Text.Letter
import AccessLayer.Text.Rune

/-!
# Reading the tokens of Go

The text is split into tokens and comments. A line break after a token that can end a statement
reads as a semicolon. There is no recovery: a text with a lexical error has no tokens.

* `Go.lex`: the tokens and comments of a text, the last one being the end of the text.
-/

namespace AccessLayer.Go

namespace Lexer

/-- A letter, in the sense of identifiers. -/
def isLetterChar (c : Char) : Bool := c == '_' || isLetter c

def isIdentChar (c : Char) : Bool := isLetterChar c || isDigit c

def isDecimal (c : Char) : Bool := '0' ≤ c && c ≤ '9'

/-- The value of a hexadecimal digit, 16 for any other character. -/
def digitValue (c : Char) : Nat :=
  if isDecimal c then c.toNat - '0'.toNat
  else if 'a' ≤ c && c ≤ 'f' then c.toNat - 'a'.toNat + 10
  else if 'A' ≤ c && c ≤ 'F' then c.toNat - 'A'.toNat + 10
  else 16

/-- The first character, the null character when nothing is left. -/
def peek (rs : List Rune) : Char := (rs.head?.map (·.char)).getD '\x00'

def startsWith (cs : List Char) (rs : List Rune) : Bool :=
  (rs.take cs.length).map (·.char) == cs

/-- How many characters at the front are in the class. -/
def run (p : Char → Bool) (rs : List Rune) : Nat := (rs.takeWhile fun r => p r.char).length

/-! ## Numbers -/

/-- The marks of a number's base. -/
inductive Base where
  | decimal
  | octal
  | marked (mark : Char)
deriving DecidableEq

def baseOf (rs : List Rune) : Base :=
  if peek rs != '0' then .decimal
  else
    let mark := (peek rs.tail).toLower
    if mark == 'x' || mark == 'o' || mark == 'b' then .marked mark else .octal

/-- How many characters the mark of a base takes. -/
def Base.markLength : Base → Nat
  | .marked _ => 2
  | _ => 0

/-- The characters that may stand in the digits of a base: those of base ten for the small bases,
so that a digit out of range is seen. -/
def Base.isDigitChar (b : Base) (c : Char) : Bool :=
  c == '_' || (if b = .marked 'x' then digitValue c < 16 else isDecimal c)

def Base.radix : Base → Nat
  | .decimal => 10
  | .octal => 8
  | .marked mark => if mark == 'x' then 16 else if mark == 'o' then 8 else 2

/-- Whether the underscores of a number each stand between digits, the base's mark counting as
one. -/
def separatorsFit (b : Base) (text : List Char) : Bool :=
  let digits := if b.markLength == 0 then text else '0' :: text.drop 2
  let isDig (c : Char) : Bool := isDecimal c || (b = .marked 'x' && digitValue c < 16)
  (digits.zip (digits.tail.map some ++ [none])).zip (none :: digits.map some) |>.all
    fun ((c, next), prev) =>
      c != '_' || ((prev.map isDig).getD false && (next.map isDig).getD false)

/-- The length of an exponent with its mark and sign, zero when there is none; `none` when it has
no digits. -/
def exponentLength (mark : Char) (rs : List Rune) : Option Nat :=
  if (peek rs).toLower != mark then some 0
  else
    let sign := if peek rs.tail == '+' || peek rs.tail == '-' then 1 else 0
    let digits := rs.drop (1 + sign)
    let n := run (fun c => isDecimal c || c == '_') digits
    if (digits.take n).any fun r => isDecimal r.char then some (1 + sign + n) else none

def number? (rs : List Rune) : Option (NumberKind × Nat) := do
  let base := baseOf rs
  let mark := base.markLength
  let whole := run base.isDigitChar (rs.drop mark)
  let afterWhole := rs.drop (mark + whole)
  let hasPoint := peek afterWhole == '.'
  let fraction := if hasPoint then run base.isDigitChar afterWhole.tail else 0
  let mantissa := mark + whole + (if hasPoint then 1 + fraction else 0)
  let digits := ((rs.drop mark).take (mantissa - mark)).filter fun r => digitValue r.char < 16
  guard (!digits.isEmpty)
  guard (!hasPoint || base.radix == 10 || base = .octal || base = .marked 'x')
  let rest := rs.drop mantissa
  let exponentMark := (peek rest).toLower
  let hasExponent := exponentMark == 'e' || exponentMark == 'p'
  if hasExponent then
    guard (if exponentMark == 'p' then base = .marked 'x' else base.markLength == 0)
  else guard (!(hasPoint && base = .marked 'x'))
  let exponent ← if hasExponent then exponentLength exponentMark rest else some 0
  let taken := mantissa + exponent
  let imaginary := peek (rs.drop taken) == 'i'
  let isInt := !hasPoint && !hasExponent && !imaginary
  if isInt then guard (digits.all fun r => digitValue r.char < base.radix)
  guard (separatorsFit base ((rs.take taken).map (·.char)))
  if imaginary then some (.imaginary, taken + 1)
  else some (if isInt then .int else .float, taken)

/-! ## Quoted text -/

/-- The length of the escape after a backslash; `none` when it is not one. -/
def escapeLength (quote : Char) (rs : List Rune) : Option Nat :=
  let c := peek rs
  let coded (skip count radix limit : Nat) : Option Nat :=
    let digits := (rs.drop skip).take count
    let value := digits.foldl (fun v r => v * radix + digitValue r.char) 0
    if digits.length == count && digits.all (fun r => digitValue r.char < radix) &&
        value ≤ limit && !(limit > 255 && 0xD800 ≤ value && value < 0xE000) then
      some (skip + count)
    else none
  if rs.isEmpty then none
  else if c == quote || ['a', 'b', 'f', 'n', 'r', 't', 'v', '\\'].contains c then some 1
  else if '0' ≤ c && c ≤ '7' then coded 0 3 8 255
  else if c == 'x' then coded 1 2 16 255
  else if c == 'u' then coded 1 4 16 0x10FFFF
  else if c == 'U' then coded 1 8 16 0x10FFFF
  else none

/-- How many code points an interpreted text takes up to and including its closing quote, and how
many characters it denotes. -/
def quotedLength (quote : Char) (rs : List Rune) : Option (Nat × Nat) :=
  match rs with
  | [] => none
  | r :: rest =>
    if r.char == '\n' then none
    else if r.char == quote then some (1, 0)
    else if r.char == '\\' then
      match escapeLength quote rest with
      | none => none
      | some n => (quotedLength quote (rest.drop n)).map fun (l, k) => (1 + n + l, k + 1)
    else (quotedLength quote rest).map fun (l, k) => (l + 1, k + 1)
termination_by rs.length
decreasing_by all_goals (simp only [List.length_cons, List.length_drop]; omega)

def dropReturns (rs : List Rune) : List Rune := rs.filter fun r => r.char != '\r'

/-! ## Operators -/

/-- The operators and delimiters, longer ones before their beginnings. -/
def signs : List String :=
  ["<<=", ">>=", "&^=", "...", "&&", "||", "<-", "++", "--", "==", "!=", "<=", ">=", ":=", "+=",
    "-=", "*=", "/=", "%=", "&=", "|=", "^=", "<<", ">>", "&^", "+", "-", "*", "/", "%", "&", "|",
    "^", "<", ">", "=", "!", "~", "(", ")", "[", "]", "\x7b", "\x7d", ",", ".", ":"]

def sign? (rs : List Rune) : Option String := signs.find? fun s => startsWith s.toList rs

def endsStatement : TokenKind → Bool
  | .ident | .number _ | .char | .string => true
  | .keyword w => ["break", "continue", "fallthrough", "return"].contains w
  | .op s => ["++", "--", ")", "]", "\x7d"].contains s
  | _ => false

/-! ## Single tokens -/

/-- The class, the text and the length of the token at the front, which is neither white space nor
a comment. -/
def token? (rs : List Rune) : Option (TokenKind × Bytes × Nat) :=
  let c := peek rs
  let plain (kind : TokenKind) (n : Nat) : TokenKind × Bytes × Nat :=
    (kind, Bytes.ofRunes (rs.take n), n)
  if isLetterChar c then
    let n := run isIdentChar rs
    let word := Bytes.ofRunes (rs.take n)
    match keywords.find? fun k => word == Bytes.ofString k with
    | some k => some (.keyword k, word, n)
    | none => some (.ident, word, n)
  else if isDecimal c || (c == '.' && isDecimal (peek rs.tail)) then
    (number? rs).map fun (kind, n) => plain (.number kind) n
  else if c == ';' then some (plain (.semicolon true) 1)
  else if c == '"' then (quotedLength '"' rs.tail).map fun (n, _) => plain .string (n + 1)
  else if c == '\'' then
    match quotedLength '\'' rs.tail with
    | some (n, 1) => some (plain .char (n + 1))
    | _ => none
  else if c == '`' then
    let n := run (· != '`') rs.tail
    if (rs.tail.drop n).isEmpty then none
    else some (.string, Bytes.ofRunes (dropReturns (rs.take (n + 2))), n + 2)
  else (sign? rs).map fun s => plain (.op s) s.length

/-- The length of a comment's body that ends with `*/`, the end included. -/
def blockLength : List Rune → Option Nat
  | [] => none
  | r :: rest =>
    if r.char == '*' && peek rest == '/' && !rest.isEmpty then some 2
    else (blockLength rest).map (· + 1)

/-- The length of the comment at the front, zero when there is none; `none` when it does not
end. -/
def commentLength (rs : List Rune) : Option Nat :=
  if startsWith ['/', '/'] rs then some (run (· != '\n') rs)
  else if startsWith ['/', '*'] rs then (blockLength (rs.drop 2)).map (· + 2)
  else some 0

/-- White space between tokens, line breaks apart. -/
def isGap (c : Char) : Bool := c == ' ' || c == '\t' || c == '\r'

/-- The length in bytes of the first `n` code points. -/
def byteLength (n : Nat) (rs : List Rune) : Nat :=
  (rs.take n).foldl (fun k r => k + r.bytes.length) 0

/-! ## The whole text -/

/-- The tokens and comments from an offset on. `pending` says that a line break now ends a
statement. -/
def lexFrom (pending : Bool) (offset : Nat) (rs : List Rune) : Option (List Lexed) :=
  let lineEnd : Lexed := .token ⟨.semicolon false, Bytes.ofString "\n", offset, offset⟩
  match rs with
  | [] =>
    let done : List Lexed := [.token ⟨.eof, [], offset, offset⟩]
    some (if pending then lineEnd :: done else done)
  | r :: rest =>
    if isGap r.char then lexFrom pending (offset + r.bytes.length) rest
    else if r.char == '\n' then
      (lexFrom false (offset + 1) rest).map fun out => if pending then lineEnd :: out else out
    else
      match commentLength (r :: rest) with
      | none => none
      | some (n + 1) =>
        let taken := (r :: rest).take (n + 1)
        let stop := offset + byteLength (n + 1) (r :: rest)
        let comment : Lexed := .comment ⟨Bytes.ofRunes (dropReturns taken), offset⟩
        let broken := pending && startsWith ['/', '*'] taken && taken.any (·.char == '\n')
        let ended : List Lexed := if broken then [lineEnd] else []
        (lexFrom (pending && !broken) stop (rest.drop n)).map fun out => comment :: ended ++ out
      | some 0 =>
        match token? (r :: rest) with
        | none => none
        | some (_, _, 0) => none
        | some (kind, text, n + 1) =>
          let stop := offset + byteLength (n + 1) (r :: rest)
          (lexFrom (endsStatement kind) stop (rest.drop n)).map fun out =>
            .token ⟨kind, text, offset, stop⟩ :: out
termination_by rs.length
decreasing_by all_goals (simp only [List.length_cons, List.length_drop]; omega)

def isForbidden (r : Rune) : Bool := r.char == '\x00' || r.char == '\ufeff' || r.isBroken

end Lexer

def lex (s : Bytes) : Option (List Lexed) :=
  let rs := s.runes
  let body := if Lexer.peek rs == '\ufeff' then rs.tail else rs
  let offset := s.length - (Bytes.ofRunes body).length
  if body.any Lexer.isForbidden then none else Lexer.lexFrom false offset body

end AccessLayer.Go
