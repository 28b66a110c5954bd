import AccessLayer.Files.Path

/-!
# Variables in paths

A path may name variables of the environment, each after a dollar sign and with or without braces. A
variable that is not set is empty. A dollar sign without a name stays, and braces without one are
dropped.

* `Path.pieces`: the bytes and variables of a path.
* `Path.expand`: the path with the values of its variables.
-/

namespace AccessLayer.Path

def dollar : UInt8 := Bytes.byte '$'

def isSpecialByte (b : UInt8) : Bool := (Bytes.ofString "*#$@!?-0123456789").contains b

def isNameByte (b : UInt8) : Bool :=
  b == Bytes.byte '_' || (Bytes.byte '0' ≤ b && b ≤ Bytes.byte '9') ||
    (Bytes.byte 'a' ≤ b && b ≤ Bytes.byte 'z') || (Bytes.byte 'A' ≤ b && b ≤ Bytes.byte 'Z')

/-- The name that follows a dollar sign and the number of bytes that it takes up. -/
def nameAt : Bytes → Bytes × Nat
  | [] => ([], 0)
  | b :: rest =>
    if b == Bytes.byte '\x7b' then
      let name := rest.takeWhile (· != Bytes.byte '\x7d')
      -- a brace that is never closed holds no name
      if name.length == rest.length then ([], 1) else (name, name.length + 2)
    else if isSpecialByte b then ([b], 1)
    else
      let name := (b :: rest).takeWhile isNameByte
      (name, name.length)

/-- A part of a path. -/
inductive Piece where
  | byte (b : UInt8)
  | variable_ (name : Bytes)
deriving DecidableEq, Repr

def Piece.ofDollar (name : Bytes) (width : Nat) : List Piece :=
  if !name.isEmpty then [.variable_ name] else if width == 0 then [.byte dollar] else []

/-- The parts of a path after the bytes that are taken up already. -/
def piecesAfter : (taken : Nat) → Bytes → List Piece
  | _, [] => []
  | taken + 1, _ :: rest => piecesAfter taken rest
  | 0, b :: rest =>
    if b == dollar then
      let (name, width) := nameAt rest
      Piece.ofDollar name width ++ piecesAfter width rest
    else .byte b :: piecesAfter 0 rest

def pieces (p : Bytes) : List Piece := piecesAfter 0 p

def named (p : Bytes) : List Bytes :=
  (pieces p).filterMap fun
    | .byte _ => none
    | .variable_ name => some name

def Piece.value (env : List (Bytes × Bytes)) : Piece → Bytes
  | .byte b => [b]
  | .variable_ name => (env.lookup name).getD []

def expand (env : List (Bytes × Bytes)) (p : Bytes) : Bytes := (pieces p).flatMap (Piece.value env)

end AccessLayer.Path
