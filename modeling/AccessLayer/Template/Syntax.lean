import AccessLayer.Text.Unquoted

/-!
# Template texts

A template is text with actions between double braces. An action prints a value, starts a condition
or a loop, or ends one. A dash inside of the braces takes away the white space on its side.

* `Word`: a word of an action; `Piece`: text or an action.
* `pieces?`: the pieces of a template.
* `Operand`, `Command`, `Pipeline`, `Node`: the parts of a template.
-/

namespace AccessLayer.Template

open Bytes

/-- A word of an action. -/
inductive Word where
  | space
  | ident (s : Bytes)
  | field (s : Bytes)
  | dot
  | variable_ (s : Bytes)
  | text (s : Bytes)
  | number (n : Int)
  | sign (s : String)
deriving DecidableEq, Repr, Inhabited

/-- Text, or the words of an action. -/
inductive Piece where
  | text (s : Bytes)
  | action (words : List Word)
deriving Repr, Inhabited

/-- A value in a command. -/
inductive Operand where
  /-- The current value, or the value of a variable, and the fields to go along from it. -/
  | path (start : Option Bytes) (fields : List Bytes)
  | text (s : Bytes)
  | number (n : Int)
  | flag (b : Bool)
  | call (name : Bytes)
  /-- A pipeline in parentheses and the fields to go along from its value. -/
  | group (commands : List (List Operand)) (fields : List Bytes)
deriving Repr, Inhabited

/-- A function and its arguments, or a single value. -/
abbrev Command := List Operand

/-- Commands, each given the value of the one before as its last argument. -/
abbrev Pipeline := List Command

/-- A part of a template. -/
inductive Node where
  | text (s : Bytes)
  | output (p : Pipeline)
  | assign (name : Bytes) (p : Pipeline)
  | cond (p : Pipeline) (body other : List Node)
  | with_ (p : Pipeline) (body other : List Node)
  | loop (index element : Option Bytes) (p : Pipeline) (body other : List Node)
deriving Repr, Inhabited

/-! ## Words -/

def isSpaceByte (b : UInt8) : Bool := b == 32 || b == 9 || b == 10 || b == 13

/-- A letter, a digit, an underscore or a byte of a longer character. -/
def isWordByte (b : UInt8) : Bool :=
  (byte 'a' ≤ b && b ≤ byte 'z') || (byte 'A' ≤ b && b ≤ byte 'Z') ||
    (byte '0' ≤ b && b ≤ byte '9') || b == byte '_' || 128 ≤ b

def isDigitByte (b : UInt8) : Bool := byte '0' ≤ b && b ≤ byte '9'

def endsWord (rest : Bytes) : Bool :=
  (ofString "\x7d\x7d").isPrefixOf rest || match rest with
  | [] => true
  | b :: _ => isSpaceByte b || (".,|:)(".toList.map byte).contains b

/-- The length of a double-quoted literal after its opening quote, the closing one included. -/
def quotedLength : Bytes → Option Nat
  | [] => none
  | [b] => if b == byte '"' then some 1 else none
  | b :: c :: rest =>
    if b == byte '"' then some 1
    else if b == byte '\n' then none
    else if b == byte '\\' then
      if c == byte '\n' then none else (quotedLength rest).map (· + 2)
    else (quotedLength (c :: rest)).map (· + 1)

def decimal (digits : Bytes) : Nat :=
  digits.foldl (fun n b => n * 10 + (b.toNat - 48)) 0

def word? (s : Bytes) : Option (Word × Nat) :=
  match s with
  | [] => none
  | b :: rest =>
    let name := rest.takeWhile isWordByte
    let after := rest.dropWhile isWordByte
    if isSpaceByte b then some (.space, 1 + (rest.takeWhile isSpaceByte).length)
    else if b == byte '"' then do
      let n ← quotedLength rest
      let t ← unquote? (s.take (n + 1))
      return (.text t, n + 1)
    else if b == byte '`' then do
      let body := rest.takeWhile (· != b)
      guard (body.length < rest.length)
      return (.text (body.filter (· != byte '\r')), body.length + 2)
    else if b == byte '.' then
      if name.isEmpty then (if endsWord rest then some (.dot, 1) else none)
      else if (name.head?.map isDigitByte).getD false then none
      else if endsWord after then some (.field name, name.length + 1)
      else none
    else if b == byte '$' then
      if endsWord after then some (.variable_ name, name.length + 1) else none
    else if isDigitByte b || ((b == byte '-' || b == byte '+') && !name.isEmpty) then
      let digits := if isDigitByte b then b :: name else name
      if digits.all isDigitByte && endsWord after then
        let n : Int := decimal digits
        some (.number (if b == byte '-' then -n else n), name.length + 1)
      else none
    else if isWordByte b then
      if endsWord after then some (.ident (b :: name), name.length + 1) else none
    else if b == byte ':' then
      if rest.head? == some (byte '=') then some (.sign ":=", 2) else none
    else if b == byte '|' then some (.sign "|", 1)
    else if b == byte '(' then some (.sign "(", 1)
    else if b == byte ')' then some (.sign ")", 1)
    else if b == byte ',' then some (.sign ",", 1)
    else if b == byte '=' then some (.sign "=", 1)
    else none

/-- The words of an action from its front to the closing braces, and the rest of the template with
the white space that the action takes away removed. The fuel bounds the bytes. -/
def action? : (fuel : Nat) → Bytes → Option (List Word × Bytes)
  | 0, _ => none
  | fuel + 1, s =>
    if (ofString "\x7d\x7d").isPrefixOf s then some ([], s.drop 2)
    else if (s.head?.map isSpaceByte).getD false &&
        (ofString "-\x7d\x7d").isPrefixOf (s.drop 1) then
      some ([], (s.drop 4).dropWhile isSpaceByte)
    else do
      let (w, n) ← word? s
      let cut := if w = .space && (ofString "-\x7d\x7d").isPrefixOf (s.drop n) then n - 1 else n
      let (ws, rest) ← action? fuel (s.drop (max 1 cut))
      return (w :: ws, rest)

def afterComment? : Bytes → Option Bytes
  | [] => none
  | b :: rest =>
    if (ofString "*/").isPrefixOf (b :: rest) then some (rest.drop 1) else afterComment? rest

/-- A comment after the opening braces, with the rest of the template; `none` when there is no
comment, the inner value `none` when it does not end as it has to. -/
def comment? (s : Bytes) : Option (Option Bytes) :=
  if !(ofString "/*").isPrefixOf s then none
  else
    match afterComment? (s.drop 2) with
    | none => some none
    | some rest =>
      if (ofString "\x7d\x7d").isPrefixOf rest then some (some (rest.drop 2))
      else if (rest.head?.map isSpaceByte).getD false &&
          (ofString "-\x7d\x7d").isPrefixOf (rest.drop 1) then
        some (some ((rest.drop 4).dropWhile isSpaceByte))
      else some none

def trimEndSpace (s : Bytes) : Bytes := (s.reverse.dropWhile isSpaceByte).reverse

/-- The text before the first opening braces, and what follows them. -/
def cutOpen : Bytes → Bytes × Option Bytes
  | [] => ([], none)
  | b :: rest =>
    if (ofString "\x7b\x7b").isPrefixOf (b :: rest) then ([], some (rest.drop 1))
    else
      let (before, after) := cutOpen rest
      (b :: before, after)

def piecesFuel : (fuel : Nat) → Bytes → Option (List Piece)
  | 0, _ => none
  | fuel + 1, s =>
    match cutOpen s with
    | (before, none) => some [.text before]
    | (before, some inner) => do
      let trims := inner.head? == some (byte '-') &&
        ((inner.drop 1).head?.map isSpaceByte).getD false
      let before := if trims then trimEndSpace before else before
      let inner := if trims then inner.drop 2 else inner
      match comment? inner with
      | some none => none
      | some (some rest) => return .text before :: (← piecesFuel fuel rest)
      | none =>
        let (words, rest) ← action? (inner.length + 1) inner
        return .text before :: .action words :: (← piecesFuel fuel rest)

def pieces? (s : Bytes) : Option (List Piece) := piecesFuel (s.length + 1) s

end AccessLayer.Template
