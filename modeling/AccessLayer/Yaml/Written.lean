import AccessLayer.Text.Quoted
import AccessLayer.Yaml.Value

/-!
# Writing YAML

Texts are written without quotes where they read back as the same text, in quotes otherwise, and as
a block when they have several lines.

* `Style.ofText`: how a text is written.
* `Field`: an entry of a written mapping.
* `write`: a written mapping.
-/

namespace AccessLayer.Yaml

/-! ## Styles -/

/-- The ways to write a text. -/
inductive Style where
  | plain
  | single
  | double
  | literal
deriving DecidableEq, Repr

/-- What matters about a text when it is written. -/
structure Traits where
  /-- A sign would be taken for structure. -/
  hasIndicator : Bool
  hasBreak : Bool
  hasTab : Bool
  /-- A character can only be written as an escape. -/
  hasSpecial : Bool
  /-- It starts or ends with a blank or a line break. -/
  hasOuterSpace : Bool
  endsInBlank : Bool
  /-- A blank follows a line break. -/
  breakBlank : Bool
  /-- A line break follows a blank. -/
  blankBreak : Bool

def isPrintable (c : Char) : Bool :=
  let n := c.toNat
  n == 10 || (0x20 ≤ n && n ≤ 0x7E) || (0xA0 ≤ n && n ≤ 0xFFFD && n != 0xFEFF)

/-- Whether a character is taken for structure between its neighbours, which are missing at the ends
of the text. -/
def isStructural (before : Option Char) (c : Char) (after : Option Char) : Bool :=
  let blankAfter := after.all isBlank
  match before with
  | none =>
    ['#', ',', '[', ']', '\x7b', '\x7d', '&', '*', '!', '|', '>', '\'', '"', '%', '@',
      '`'].contains c || (['?', ':', '-'].contains c && blankAfter)
  | some b => (c == ':' && blankAfter) || (c == '#' && (isBlank b || isBreak b))

/-- Whether some character of a text has a property together with its neighbours. -/
def anyBetween (p : Option Char → Char → Option Char → Bool) :
    (before : Option Char) → List Char → Bool
  | _, [] => false
  | before, c :: rest => p before c rest.head? || anyBetween p (some c) rest

def Traits.ofChars (cs : List Char) : Traits :=
  let isOuter (c : Option Char) : Bool := c.any fun c => c == ' ' || isBreak c
  let start := cs.take 3
  { hasIndicator := start == ['-', '-', '-'] || start == ['.', '.', '.'] ||
      anyBetween isStructural none cs
    hasBreak := cs.any isBreak
    hasTab := cs.contains '\t'
    hasSpecial := cs.any fun c => c != '\t' && !isPrintable c
    hasOuterSpace := isOuter cs.head? || isOuter cs.getLast?
    endsInBlank := cs.getLast? == some ' '
    breakBlank := anyBetween (fun b c _ => c == ' ' && b.any isBreak) none cs
    blankBreak := anyBetween (fun b c _ => isBreak c && b == some ' ') none cs }

namespace Traits

/-- Whether the text may stand without quotes. -/
def allowsPlain (t : Traits) : Bool :=
  !(t.hasIndicator || t.hasBreak || t.hasTab || t.hasSpecial || t.hasOuterSpace || t.breakBlank ||
    t.blankBreak)

def allowsSingle (t : Traits) : Bool := !(t.hasTab || t.hasSpecial || t.breakBlank || t.blankBreak)

def allowsBlock (t : Traits) : Bool := !(t.hasSpecial || t.endsInBlank || t.blankBreak)

end Traits

/-- The words that other readers take for truth values. -/
def oldFlags : List String :=
  ["y", "Y", "yes", "Yes", "YES", "on", "On", "ON", "n", "N", "no", "No", "NO", "off", "Off", "OFF"]

/-- The groups of a number in base sixty after its first one. -/
def isSixtyTail (fuel : Nat) (cs : List Char) : Bool :=
  match fuel with
  | 0 => false
  | fuel + 1 =>
    match cs with
    | ':' :: rest =>
      let ds := rest.takeWhile Char.isDigit
      let after := rest.drop ds.length
      (ds.length == 1 || (ds.length == 2 && ds.head?.any (· ≤ '5'))) &&
        match after with
        | [] => true
        | '.' :: part => part.all fun c => c.isDigit || c == '_'
        | _ => isSixtyTail fuel after
    | _ => false

/-- Whether other readers take the text for a number in base sixty. -/
def isSixty (cs : List Char) : Bool :=
  match (Scalar.splitSign cs).2 with
  | c :: rest =>
    c.isDigit &&
      let tail := rest.dropWhile fun d => d.isDigit || d == '_'
      isSixtyTail (tail.length + 1) tail
  | [] => false

/-- Whether a text without quotes reads back as the same text, everywhere. -/
def readsBack (s : Bytes) : Bool :=
  Scalar.ofPlain s == .text s && !isSixty (Bytes.chars s) &&
    !oldFlags.any fun w => s == Bytes.ofString w

def Style.ofText (s : Bytes) : Style :=
  let t := Traits.ofChars (Bytes.chars s)
  if s.contains (Bytes.byte '\n') then if t.allowsBlock then .literal else .double
  else if readsBack s then
    if t.allowsPlain then .plain else if t.allowsSingle then .single else .double
  else .double

/-! ## Texts -/

def escapeLetter? (c : Char) : Option Char :=
  match c.toNat with
  | 0x00 => some '0'
  | 0x07 => some 'a'
  | 0x08 => some 'b'
  | 0x09 => some 't'
  | 0x0A => some 'n'
  | 0x0B => some 'v'
  | 0x0C => some 'f'
  | 0x0D => some 'r'
  | 0x1B => some 'e'
  | 0x22 => some '"'
  | 0x5C => some '\\'
  | 0x85 => some 'N'
  | 0xA0 => some '_'
  | 0x2028 => some 'L'
  | 0x2029 => some 'P'
  | _ => none

def upperHex (width n : Nat) : List Char := (Bytes.chars (Quoted.hex width n)).map Char.toUpper

def escaped (c : Char) : List Char :=
  if isPrintable c && !isBreak c && c != '"' && c != '\\' then [c]
  else
    match escapeLetter? c with
    | some d => ['\\', d]
    | none =>
      let n := c.toNat
      if n ≤ 0xFF then '\\' :: 'x' :: upperHex 2 n
      else if n ≤ 0xFFFF then '\\' :: 'u' :: upperHex 4 n
      else '\\' :: 'U' :: upperHex 8 n

def blockMarks (cs : List Char) : List Char :=
  (if cs.head?.any fun c => c == ' ' || isBreak c then ['4'] else []) ++
    match cs.reverse with
    | [] => ['-']
    | last :: before =>
      if !isBreak last then ['-'] else if before.head?.all isBreak then ['+'] else []

/-- The lines of a literal block. A line break is due before the first character of a line, unless
one was just written. -/
def blockChars (indent : Nat) (lineDue fresh : Bool) : List Char → List Char
  | [] => []
  | c :: cs =>
    if isBreak c then c :: blockChars indent true true cs
    else if lineDue then
      (if fresh then [] else ['\n']) ++ List.replicate indent ' ' ++ c ::
        blockChars indent false false cs
    else c :: blockChars indent false false cs

/-- A text with its content, if it is a block, at a column. -/
def textAt (indent : Nat) (s : Bytes) : Bytes :=
  let cs := Bytes.chars s
  match Style.ofText s with
  | .plain => s
  | .single =>
    Bytes.ofChars ('\'' :: cs.flatMap (fun c => if c == '\'' then [c, c] else [c]) ++ ['\''])
  | .double => Bytes.ofChars ('"' :: cs.flatMap escaped ++ ['"'])
  | .literal => Bytes.ofChars ('|' :: blockMarks cs ++ blockChars indent true false cs)

/-! ## Mappings -/

/-- An entry of a written mapping. -/
inductive Field where
  | text (s : Bytes)
  | texts (ss : List Bytes)
  | group (entries : List (Bytes × Bytes))
deriving DecidableEq, Repr

def Field.value : Field → Value
  | text s => .text s
  | texts ss => .list (ss.map .text)
  | group entries => .map (entries.map fun e => (e.1, .text e.2))

def nextLine (before line : Bytes) : Bytes :=
  if before.isEmpty || before.getLast? == some (Bytes.byte '\n') then before ++ line
  else before ++ "\n" ++ line

def lines (ls : List Bytes) : Bytes := nextLine (ls.foldl nextLine []) []

def inner : Bytes := "    "

def Field.lines (key : Bytes) : Field → List Bytes
  | text s => [key ++ ": " ++ textAt 4 s]
  | texts [] => [key ++ ": []"]
  | texts ss => (key ++ ":") :: ss.map fun s => inner ++ "- " ++ textAt 6 s
  | group entries => (key ++ ":") :: entries.map fun e => inner ++ e.1 ++ ": " ++ textAt 8 e.2

def write (entries : List (Bytes × Field)) : Bytes :=
  lines (entries.flatMap fun e => e.2.lines e.1)

end AccessLayer.Yaml
