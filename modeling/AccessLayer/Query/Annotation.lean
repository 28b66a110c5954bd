import AccessLayer.Text.Rune

/-!
# Parameter annotations

A query file declares its parameters in comment lines such as `// $post_id: String`. A line that is
not exactly of that form declares nothing.

* `Variable`: one declared parameter.
* `annotation?`: the declaration of a line.
* `annotations`: the declarations of a file, in order.
-/

namespace AccessLayer.Query

/-- A declared parameter: its name and the type written for it. -/
structure Variable where
  name : Bytes
  type : Bytes
deriving DecidableEq, Repr

namespace Annotation

/-- White space within a line. -/
def isBlank (b : UInt8) : Bool := b == 9 || b == 10 || b == 12 || b == 13 || b == 32

def isNameByte (b : UInt8) : Bool :=
  (48 ≤ b && b ≤ 57) || (65 ≤ b && b ≤ 90) || (97 ≤ b && b ≤ 122) || b == 95

/-- The text after the comment mark: two or more slashes, or one or more number signs. -/
def afterMark? (s : Bytes) : Option Bytes :=
  match s with
  | 47 :: 47 :: rest => some (rest.dropWhile (· == 47))
  | 35 :: rest => some (rest.dropWhile (· == 35))
  | _ => none

/-- The text without the white space at its start. -/
def skipBlanks (s : Bytes) : Bytes := s.dropWhile isBlank

def after? (b : UInt8) (s : Bytes) : Option Bytes :=
  match s with
  | c :: rest => if c == b then some rest else none
  | [] => none

/-- The run of bytes of a class at the start of a text, which may not be empty, and the rest. -/
def run? (p : UInt8 → Bool) (s : Bytes) : Option (Bytes × Bytes) :=
  match s.takeWhile p with
  | [] => none
  | taken => some (taken, s.dropWhile p)

end Annotation

open Annotation

def annotation? (line : Bytes) : Option Variable := do
  let s ← afterMark? (skipBlanks line)
  let s ← after? (Bytes.byte '$') (skipBlanks s)
  let (name, s) ← run? isNameByte s
  let s ← after? (Bytes.byte ':') (skipBlanks s)
  let (type, s) ← run? (!isBlank ·) (skipBlanks s)
  if (skipBlanks s).isEmpty then some ⟨name, type⟩ else none

def stripReturns (line : Bytes) : Bytes :=
  (line.reverse.dropWhile (· == Bytes.byte '\r')).reverse

/-- The declarations of a file, in order; repeated names are kept. -/
def annotations (text : Bytes) : List Variable :=
  (Bytes.splitOn (Bytes.byte '\n') text).filterMap fun line => annotation? (stripReturns line)

end AccessLayer.Query
