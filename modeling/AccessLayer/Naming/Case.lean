import AccessLayer.Text.Letter
import AccessLayer.Text.Rune

/-!
# Letter case of names

Names come from files, tables, fields and parameters, and become Go identifiers and file names. A
name is read as words, and the words are joined again in the case that the place asks for.

* `snake`: lower case with underscores, for file stems.
* `pascal`, `camel?`: joined words, for exported and local identifiers.
-/

namespace AccessLayer.Naming

def isIdentChar (c : Char) : Bool := c == '_' || isLetter c || isDigit c

/-- The characters of a name with an underscore for each that no Go identifier may hold. -/
def identChars (s : Bytes) : List Char :=
  (Bytes.chars s).map fun c => if isIdentChar c then c else '_'

/-- The name as one Go identifier, as far as its characters go. -/
def sanitize (s : Bytes) : Bytes := Bytes.ofChars (identChars s)

/-! ## Words -/

/-- Splits an identifier at its underscores and before each upper-case letter. The first word may be
empty, and so may those after an underscore. -/
def split : List Char → List (List Char)
  | [] => [[]]
  | c :: cs =>
    if c == '_' then [] :: split cs
    else
      match cs with
      | [] => [[c]]
      | d :: _ =>
        if isUpper d then [c] :: split cs
        else
          match split cs with
          | [] => [[c]]
          | w :: ws => (c :: w) :: ws

/-- The word with its first letter in upper case and the others in lower case. -/
def capitalize : List Char → List Char
  | [] => []
  | c :: cs => toUpper c :: cs.map toLower

/-- The name as joined words, each capitalized: `post_by_id` is `PostById`. -/
def pascal (s : Bytes) : Bytes := Bytes.ofChars ((split (identChars s)).flatMap capitalize)

/-- The name as joined words with a lower-case start: `post_id` is `postId`. The first byte alone is
put in lower case, so a longer first character is broken. A name without words has no such form. -/
def camel? (s : Bytes) : Option Bytes :=
  match pascal s with
  | [] => none
  | b :: rest => some (Bytes.toLower [b] ++ rest)

/-! ## Snake case -/

def isDivider (c : Char) : Bool := c == '-' || c == ' ' || c == '.'

def endsWord (c : Char) : Bool := !(isUpper c || c == '_' || isDivider c)

/-- One character of a name in snake case, given the one before it. -/
def snakeChar (previous : Option Char) (c : Char) : List Char :=
  let shown := toLower (if isDivider c then '_' else c)
  if isUpper c && previous.any endsWord then ['_', shown] else [shown]

/-- The characters of a name in snake case, given the character before them. -/
def snakeChars : Option Char → List Char → List Char
  | _, [] => []
  | previous, c :: cs => snakeChar previous c ++ snakeChars (some c) cs

/-- The name in snake case: `PostByID` is `post_by_id`. Dashes, points and blanks become
underscores, and a run of capitals stays together. -/
def snake (s : Bytes) : Bytes := Bytes.ofChars (snakeChars none (Bytes.chars s))

end AccessLayer.Naming
