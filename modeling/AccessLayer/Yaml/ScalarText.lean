import AccessLayer.Yaml.Token

/-!
# The text of YAML scalars

A scalar may go over several lines. Line breaks within it are folded: a single one becomes a blank,
and of several one is left out. The content of a literal block keeps its breaks.

* `Scanner.plain`, `Scanner.quoted`, `Scanner.blockScalar`: the three forms of scalars.
-/

namespace AccessLayer.Yaml.Scanner

/-! ## White space between the parts of a scalar -/

/-- White space inside of a scalar: blanks within a line, or line breaks. -/
structure Gap where
  blanks : List Char := []
  /-- Whether a line break was passed. -/
  hasBreak : Bool := false
  first : List Char := []
  others : List Char := []

def Gap.text (g : Gap) : List Char :=
  if g.hasBreak then
    if g.first == ['\n'] then (if g.others.isEmpty then [' '] else g.others)
    else g.first ++ g.others
  else g.blanks

/-- Reads a gap. A tab may not stand before column `indent` of a further line. -/
def gap (indent : Nat) (fuel : Nat) (g : Gap) : Scanner Gap :=
  match fuel with
  | 0 => return g
  | fuel + 1 => do
    let s ← get
    match s.rest with
    | [] => return g
    | c :: _ =>
      if isBlank c then
        if g.hasBreak then
          if c == '\t' && s.col < indent then fail else skip; gap indent fuel g
        else skip; gap indent fuel { g with blanks := g.blanks ++ [c] }
      else if isBreak c then
        let b ← lineBreak
        if g.hasBreak then gap indent fuel { g with others := g.others ++ b }
        else gap indent fuel { g with blanks := [], hasBreak := true, first := b }
      else return g

/-! ## Plain scalars -/

def plainEnds (inFlow : Bool) (cs : List Char) : Bool :=
  match cs with
  | [] => true
  | c :: rest =>
    isBlank c || isBreak c || (c == ':' && spaceNext rest) ||
      (inFlow && [',', '?', '[', ']', '\x7b', '\x7d'].contains c)

def plainRun (inFlow : Bool) : List Char → List Char
  | [] => []
  | c :: rest => if plainEnds inFlow (c :: rest) then [] else c :: plainRun inFlow rest

/-- Ends a plain scalar; after a line break a key may begin. -/
def plainEnded (g : Gap) (text : List Char) : Scanner (List Char) := do
  if g.hasBreak then allowKey true
  return text

def plainFrom (indent : Nat) (fuel : Nat) (text : List Char) (g : Gap) : Scanner (List Char) :=
  match fuel with
  | 0 => return text
  | fuel + 1 => do
    let s ← get
    if s.atDocumentMark || s.rest.head? == some '#' then plainEnded g text
    else
      match plainRun s.inFlow s.rest with
      | [] => plainEnded g text
      | run =>
        skipMany run.length
        let text := text ++ g.text ++ run
        let s ← get
        match s.rest with
        | [] => return text
        | c :: _ =>
          if isBlank c || isBreak c then
            let g ← gap indent (s.rest.length + 1) {}
            let s ← get
            if !s.inFlow && s.col < indent then plainEnded g text else plainFrom indent fuel text g
          else return text

def plain : Scanner Token := do
  let s ← get
  let text ← plainFrom s.indent (s.rest.length + 1) [] {}
  return .scalar text true

/-! ## Quoted scalars -/

def shortEscape? (c : Char) : Option Char :=
  match c with
  | '0' => some '\x00'
  | 'a' => some '\x07'
  | 'b' => some '\x08'
  | 't' | '\t' => some '\t'
  | 'n' => some '\n'
  | 'v' => some '\x0b'
  | 'f' => some '\x0c'
  | 'r' => some '\r'
  | 'e' => some '\x1b'
  | ' ' => some ' '
  | '"' => some '"'
  | '\'' => some '\''
  | '\\' => some '\\'
  | 'N' => some '\u0085'
  | '_' => some '\u00a0'
  | 'L' => some '\u2028'
  | 'P' => some '\u2029'
  | _ => none

/-- The number of hexadecimal digits after an escape. -/
def hexWidth? (c : Char) : Option Nat :=
  match c with
  | 'x' => some 2
  | 'u' => some 4
  | 'U' => some 8
  | _ => none

def hexValue? (c : Char) : Option Nat :=
  if c.isDigit then some (c.toNat - '0'.toNat)
  else if 'a' ≤ c && c ≤ 'f' then some (c.toNat - 'a'.toNat + 10)
  else if 'A' ≤ c && c ≤ 'F' then some (c.toNat - 'A'.toNat + 10)
  else none

def charOf? (n : Nat) : Option Char := if n.isValidChar then some (Char.ofNat n) else none

def escape : Scanner Char := do
  let s ← get
  match s.rest with
  | [] => fail
  | c :: rest =>
    match shortEscape? c, hexWidth? c with
    | some d, _ => skip; return d
    | none, some n =>
      match (rest.take n).mapM hexValue? with
      | none => fail
      | some ds =>
        if ds.length < n then fail
        else
          skipMany (n + 1)
          match charOf? (ds.foldl (fun v d => v * 16 + d) 0) with
          | some d => return d
          | none => fail
    | none, none => fail

/-- What ended a run of characters of a quoted scalar. -/
inductive RunEnd where
  | quote
  | space
  | joined
deriving DecidableEq

/-- The characters of a quoted scalar up to white space or its end. -/
def quotedRun (mark : Char) (fuel : Nat) (text : List Char) : Scanner (List Char × RunEnd) :=
  match fuel with
  | 0 => fail
  | fuel + 1 => do
    let s ← get
    match s.rest with
    | [] => fail
    | c :: rest =>
      if isBlank c || isBreak c then return (text, .space)
      else if c == mark then
        if mark == '\'' && rest.head? == some '\'' then
          skipMany 2
          quotedRun mark fuel (text ++ ['\''])
        else skip; return (text, .quote)
      else if mark == '"' && c == '\\' then
        skip
        if rest.head?.any isBreak then
          let _ ← lineBreak
          return (text, .joined)
        else
          let d ← escape
          quotedRun mark fuel (text ++ [d])
      else skip; quotedRun mark fuel (text ++ [c])

def quotedFrom (mark : Char) (fuel : Nat) (text : List Char) : Scanner (List Char) :=
  match fuel with
  | 0 => fail
  | fuel + 1 => do
    let s ← get
    if s.atDocumentMark then fail
    else
      let (text, ending) ← quotedRun mark (s.rest.length + 1) text
      if ending = .quote then return text
      else
        let s ← get
        let g ← gap 0 (s.rest.length + 1) { hasBreak := ending = .joined }
        quotedFrom mark fuel (text ++ g.text)

def quoted (mark : Char) : Scanner Token := do
  skip
  let s ← get
  let text ← quotedFrom mark (s.rest.length + 1) []
  return .scalar text false

/-! ## Block scalars -/

/-- What happens to the line breaks at the end of a block scalar. -/
inductive Chomp where
  | strip
  | clip
  | keep
deriving DecidableEq

/-- The mark for the line breaks at the end. -/
def chomp? (c : Char) : Option Chomp :=
  if c == '+' then some .keep else if c == '-' then some .strip else none

def indentMark? (c : Char) : Option Nat :=
  if c.isDigit then some (c.toNat - '0'.toNat) else none

/-- The marks after the sign of a block scalar, in any order. -/
def blockMarks : Scanner (Chomp × Option Nat) := do
  let s ← get
  let (chomp, indent, n) := match s.rest with
    | [] => (Chomp.clip, none, 0)
    | c :: rest =>
      match chomp? c, indentMark? c with
      | some k, _ =>
        match rest.head?.bind indentMark? with
        | some i => (k, some i, 2)
        | none => (k, none, 1)
      | none, some i =>
        match rest.head?.bind chomp? with
        | some k => (k, some i, 2)
        | none => (.clip, some i, 1)
      | none, none => (.clip, none, 0)
  if indent == some 0 then fail
  else
    skipMany n
    return (chomp, indent)

/-- Passes the empty lines and the indentation before a line of a block scalar. With `indent` zero
the indentation is not known yet. Gives the line breaks and the largest column. -/
def blockBreaks (indent : Nat) (fuel : Nat) (breaks : List Char) (deepest : Nat) :
    Scanner (List Char × Nat) :=
  match fuel with
  | 0 => return (breaks, deepest)
  | fuel + 1 => do
    let s ← get
    let blanks := s.rest.takeWhile (· == ' ')
    let n := if indent == 0 then blanks.length else min blanks.length (indent - s.col)
    skipMany n
    let s ← get
    let deepest := max deepest s.col
    match s.rest with
    | '\t' :: _ => if indent == 0 || s.col < indent then fail else return (breaks, deepest)
    | c :: _ =>
      if isBreak c then
        let b ← lineBreak
        blockBreaks indent fuel (breaks ++ b) deepest
      else return (breaks, deepest)
    | [] => return (breaks, deepest)

/-- The lines of a block scalar. `leading` is the break before the next line, `trailing` the empty
lines after it, and `wasBlank` whether the line before started with white space. -/
def blockLines (literal : Bool) (indent : Nat) (fuel : Nat) (text leading trailing : List Char)
    (wasBlank : Bool) : Scanner (List Char × List Char × List Char) :=
  match fuel with
  | 0 => return (text, leading, trailing)
  | fuel + 1 => do
    let s ← get
    match s.rest with
    | [] => return (text, leading, trailing)
    | c :: _ =>
      if s.col != indent then return (text, leading, trailing)
      else
        let blank := isBlank c
        let joint : List Char :=
          if !literal && !wasBlank && !blank && leading == ['\n'] then
            if trailing.isEmpty then [' '] else []
          else leading
        let line := s.rest.takeWhile fun d => !isBreak d
        skipMany line.length
        let b ← lineBreak
        let (breaks, _) ← blockBreaks indent (s.rest.length + 1) [] 0
        blockLines literal indent fuel (text ++ joint ++ trailing ++ line) b breaks blank

def blockScalar (literal : Bool) : Scanner Token := do
  skip
  let (chomp, given) ← blockMarks
  let s ← get
  skipMany (s.rest.takeWhile isBlank).length
  let s ← get
  if s.rest.head? == some '#' then
    skipMany (s.rest.takeWhile fun c => !isBreak c).length
  let s ← get
  if !lineEnds s.rest then fail
  else
    let _ ← lineBreak
    let known := (given.map fun n => match s.indents with
      | [] => n
      | i :: _ => i + n).getD 0
    let (breaks, deepest) ← blockBreaks known (s.rest.length + 1) [] 0
    let indent := if known == 0 then max (max deepest s.indent) 1 else known
    let (text, leading, trailing) ← blockLines literal indent (s.rest.length + 1) [] [] breaks false
    let text := match chomp with
      | .strip => text
      | .clip => text ++ leading
      | .keep => text ++ leading ++ trailing
    return .scalar text false

end AccessLayer.Yaml.Scanner
