import AccessLayer.Text.Rune

/-!
# YAML tokens

The structure of a document shows in its indentation. Tokens make it explicit: they say where block
collections begin and end and which scalars are keys.

* `Token`: a token.
* `Scanner`: what is known while a text is read.
-/

namespace AccessLayer.Yaml

/-- A token of a document. -/
inductive Token where
  | documentStart
  | blockSequenceStart
  | blockMappingStart
  | blockEnd
  | flowSequenceStart
  | flowSequenceEnd
  | flowMappingStart
  | flowMappingEnd
  | blockEntry
  | flowEntry
  | key
  | value
  | alias (name : List Char)
  | anchor (name : List Char)
  | tag (name : List Char)
  /-- A scalar, and whether it stands without quotes. -/
  | scalar (text : List Char) (plain : Bool)
deriving DecidableEq, Repr, Inhabited

/-- A place where a key may have begun: the number of tokens before it, where it stands, and whether
the indentation asks for a key there. -/
structure KeyPlace where
  tokens : Nat
  index : Nat
  line : Nat
  col : Nat
  required : Bool

/-- What is known while a text is read. -/
structure ScanState where
  rest : List Char
  index : Nat := 0
  line : Nat := 0
  col : Nat := 0
  tokens : Array Token := #[]
  /-- The columns of the open block collections, innermost first. -/
  indents : List Nat := []
  /-- Whether a key may begin here. -/
  keyAllowed : Bool := true
  /-- The place where a key may have begun, for each open flow collection and for the block. -/
  keys : List (Option KeyPlace) := [none]

/-- Something that reads a part of a text and may fail. -/
abbrev Scanner := StateT ScanState Option

namespace ScanState

def inFlow (s : ScanState) : Bool := 1 < s.keys.length

/-- The column after which the content of the innermost block collection stands. -/
def indent (s : ScanState) : Nat :=
  match s.indents with
  | [] => 0
  | i :: _ => i + 1

end ScanState

/-! ## Characters -/

def isBreak (c : Char) : Bool :=
  c == '\n' || c == '\r' || c.toNat == 0x85 || c.toNat == 0x2028 || c.toNat == 0x2029

/-- Whether a character is white space within a line. -/
def isBlank (c : Char) : Bool := c == ' ' || c == '\t'

/-- Whether the text ends, or white space comes next. -/
def spaceNext : List Char → Bool
  | [] => true
  | c :: _ => isBlank c || isBreak c

def lineEnds : List Char → Bool
  | [] => true
  | c :: _ => isBreak c

def documentMark (mark : Char) (cs : List Char) : Bool :=
  cs.take 3 == [mark, mark, mark] && spaceNext (cs.drop 3)

def ScanState.atDocumentMark (s : ScanState) : Bool :=
  s.col == 0 && (documentMark '-' s.rest || documentMark '.' s.rest)

def isAllowed (c : Char) : Bool :=
  let n := c.toNat
  n == 9 || n == 10 || n == 13 || n == 0x85 || (0x20 ≤ n && n ≤ 0x7E) || (0xA0 ≤ n && n ≤ 0xD7FF) ||
    (0xE000 ≤ n && n ≤ 0xFFFD && n != 0xFEFF) || 0x10000 ≤ n

namespace Scanner

/-- Passes one character, which is no line break. -/
def skip : Scanner Unit := modify fun s =>
  { s with rest := s.rest.tail, index := s.index + 1, col := s.col + 1 }

/-- Passes several characters, which are no line breaks. -/
def skipMany (n : Nat) : Scanner Unit := modify fun s =>
  { s with rest := s.rest.drop n, index := s.index + n, col := s.col + n }

/-- Passes a line break and gives it in its usual form. -/
def lineBreak : Scanner (List Char) := do
  let s ← get
  match s.rest with
  | '\r' :: '\n' :: rest =>
    set { s with rest, index := s.index + 2, line := s.line + 1, col := 0 }
    return ['\n']
  | c :: rest =>
    set { s with rest, index := s.index + 1, line := s.line + 1, col := 0 }
    return [if c.toNat == 0x2028 || c.toNat == 0x2029 then c else '\n']
  | [] => return []

def emit (t : Token) : Scanner Unit := modify fun s => { s with tokens := s.tokens.push t }

def fail {α : Type} : Scanner α := fun _ => none

def allowKey (b : Bool) : Scanner Unit := modify fun s => { s with keyAllowed := b }

end Scanner

end AccessLayer.Yaml
