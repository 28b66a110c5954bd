import AccessLayer.Go.Keyword

/-!
# Tokens and comments of Go

A token keeps the range of bytes it was read from, so that a printer can see which tokens stood on
one line. A semicolon may be written or stand for a line break.

* `Token`: one token with its range.
* `Comment`, `CommentGroup`: comments, in runs without a blank line.
* `LineTable`: where the lines of a text start.
-/

namespace AccessLayer.Go

/-- The classes of number literals. -/
inductive NumberKind where
  | int
  | float
  | imaginary
deriving DecidableEq, Repr, Inhabited

/-- The class of a token. -/
inductive TokenKind where
  | ident
  | number (kind : NumberKind)
  | char
  | string
  | keyword (word : String)
  | op (sign : String)
  /-- A semicolon; `written` is false when a line break stands for it. -/
  | semicolon (written : Bool)
  | eof
deriving DecidableEq, Repr, Inhabited

/-- A token: its class, its text and the offsets it spans. -/
structure Token where
  kind : TokenKind
  text : Bytes
  start : Nat
  stop : Nat
deriving DecidableEq, Repr, Inhabited

/-- A comment with its markers, without carriage returns. -/
structure Comment where
  text : Bytes
  start : Nat
deriving DecidableEq, Repr, Inhabited

namespace Comment

def stop (c : Comment) : Nat := c.start + c.text.length

def isLine (c : Comment) : Bool := (Bytes.ofString "//").isPrefixOf c.text

end Comment

abbrev CommentGroup := List Comment

namespace CommentGroup

def start (g : CommentGroup) : Nat := (g.head?.map (·.start)).getD 0

def stop (g : CommentGroup) : Nat := (g.getLast?.map (·.stop)).getD 0

end CommentGroup

/-- What the text consists of besides white space. -/
inductive Lexed where
  | token (t : Token)
  | comment (c : Comment)
deriving DecidableEq, Repr, Inhabited

/-- The offsets at which the lines of a text start, in order. -/
abbrev LineTable := List Nat

namespace LineTable

/-- The line starts of a text whose first byte has the given offset. -/
def startsAfter : Nat → Bytes → LineTable
  | _, [] => []
  | offset, b :: rest =>
    if b == Bytes.byte '\n' then (offset + 1) :: startsAfter (offset + 1) rest
    else startsAfter (offset + 1) rest

def ofBytes (s : Bytes) : LineTable := 0 :: startsAfter 0 s

/-- The number of the line that holds the offset, counted from one. -/
def line (t : LineTable) (offset : Nat) : Nat := (t.takeWhile (· ≤ offset)).length

/-- The column of the offset in its line, in bytes, counted from one. -/
def column (t : LineTable) (offset : Nat) : Nat :=
  offset + 1 - ((t.takeWhile (· ≤ offset)).getLast?.getD 0)

/-- Joins a line, counted from one, with the line after it. -/
def merge (t : LineTable) (n : Nat) : LineTable := t.take n ++ t.drop (n + 1)

def breakAt (t : LineTable) (offset : Nat) : LineTable :=
  let before := t.takeWhile (· < offset)
  let after := t.dropWhile (· < offset)
  if after.head? == some offset then t else before ++ offset :: after

end LineTable

end AccessLayer.Go
