import AccessLayer.Go.Lexer
import AccessLayer.Go.Syntax

/-!
# Reading token by token

A reader walks over the tokens of a file. Every token knows the comments before it: the group that
ends on the line above it, and the group that follows the previous token on its line. Reading fails
at the first syntax error, since a file with one is never laid out.

* `Step`: a token with its comments; `Step.ofLexed`: the steps of a file and its comment groups.
* `Reader`: the state of reading and its operations.
* `Reader.iterate`: repetition, bounded by the tokens that are left.
-/

namespace AccessLayer.Go

/-- A token with the comments that belong to it. -/
structure Step where
  token : Token
  /-- The comments that end on the line above the token. -/
  lead : CommentGroup
  /-- The comments that follow the previous token on its line. -/
  trail : CommentGroup
deriving Inhabited

namespace Step

/-- The comments at the front that each start at most `gap` lines after the one before, the first
one on any line; `endLine` is the line on which the one before ends. -/
def group (lines : LineTable) (gap : Nat) : Option Nat → List Comment → CommentGroup × List Comment
  | _, [] => ([], [])
  | endLine, c :: cs =>
    if endLine.all fun l => lines.line c.start ≤ l + gap then
      let (g, rest) := group lines gap (some (lines.line c.stop)) cs
      (c :: g, rest)
    else ([], c :: cs)

def groups (lines : LineTable) : Nat → List Comment → List CommentGroup
  | 0, _ => []
  | _, [] => []
  | fuel + 1, cs =>
    let (g, rest) := group lines 1 none cs
    g :: groups lines fuel rest

/-- The step of a token, given the start of the token before and the comments between the two,
with the groups that the comments form. -/
def ofToken (lines : LineTable) (prev : Option Nat) (comments : List Comment) (t : Token) :
    Step × List CommentGroup :=
  let sameLine := match prev, comments with
    | some p, c :: _ => lines.line p == lines.line c.start
    | _, _ => false
  let (first, rest) := if sameLine then group lines 0 none comments else ([], comments)
  let ends := match t.kind with
    | .semicolon _ | .eof => true
    | _ => !rest.isEmpty
  let firstEnd := (first.getLast?.map fun c => lines.line c.stop).getD 0
  let trail := if ends || lines.line t.start != firstEnd then first else []
  let others := groups lines rest.length rest
  let lead := match others.getLast? with
    | some g => if lines.line (CommentGroup.stop g) + 1 == lines.line t.start then g else []
    | none => []
  (⟨t, lead, trail⟩, if first.isEmpty then others else first :: others)

/-- The steps of a file, and all its comment groups in order. -/
def ofLexed (lines : LineTable) :
    Option Nat → List Comment → List Lexed → List Step × List CommentGroup
  | _, _, [] => ([], [])
  | prev, pending, .comment c :: rest => ofLexed lines prev (pending ++ [c]) rest
  | prev, pending, .token t :: rest =>
    let (step, gs) := ofToken lines prev pending t
    let (steps, more) := ofLexed lines (some t.start) [] rest
    (step :: steps, gs ++ more)

end Step

/-- What is left to read, where the last token that is no semicolon stopped, and how deep the
reader is in brackets; the depth is negative in the head of a control statement. -/
structure ReadState where
  steps : List Step
  lastStop : Nat
  depth : Int
deriving Inhabited

/-- Reading with one token of lookahead. -/
abbrev Reader := StateT ReadState Option

namespace Reader

/-- The end of a file, for a reader that has gone past it. -/
def endStep : Step := ⟨⟨.eof, [], 0, 0⟩, [], []⟩

def step : Reader Step := return (← get).steps.headD endStep

def token : Reader Token := return (← step).token

def kind : Reader TokenKind := return (← token).kind

def position : Reader Nat := return (← token).start

/-- Where the last token that is no semicolon stopped. -/
def lastStop : Reader Nat := return (← get).lastStop

/-- The bytes from an offset up to the end of the last token. -/
def rangeFrom (start : Nat) : Reader Range := return ⟨start, ← lastStop⟩

def advance : Reader Token := do
  let t ← token
  modify fun s =>
    { s with
      steps := s.steps.tail
      lastStop := match t.kind with
        | .semicolon _ => s.lastStop
        | _ => t.stop }
  return t

def atOp (sign : String) : Reader Bool := return (← kind) == .op sign

def atWord (word : String) : Reader Bool := return (← kind) == .keyword word

def atIdent : Reader Bool := return (← kind) == .ident

def atSemicolon : Reader Bool := do
  match ← kind with
  | .semicolon _ => return true
  | _ => return false

def expectOp (sign : String) : Reader Nat := do
  guard (← atOp sign)
  return (← advance).start

def expectWord (word : String) : Reader Nat := do
  guard (← atWord word)
  return (← advance).start

def acceptOp (sign : String) : Reader Bool := do
  if ← atOp sign then
    let _ ← advance
    return true
  return false

def ident : Reader Ident := do
  guard (← atIdent)
  let t ← advance
  return ⟨t.text, t.start⟩

def literal : Reader Literal := do
  let t ← advance
  return ⟨t.kind, t.text, ⟨t.start, t.stop⟩⟩

/-- Takes the end of a statement, which may be left out before a closing bracket, and says whether
a comment follows on the line. -/
def endOfStatement : Reader Bool := do
  match ← kind with
  | .op ")" | .op "\x7d" => return false
  | .semicolon true =>
    let _ ← advance
    return !(← step).trail.isEmpty
  | .semicolon false =>
    let trail := (← step).trail
    let _ ← advance
    return !trail.isEmpty
  | _ => failure

/-- Reads with another bracket depth, and restores it. -/
def atDepth {α : Type} (change : Int → Int) (r : Reader α) : Reader α := do
  let outer := (← get).depth
  modify fun s => { s with depth := change s.depth }
  let a ← r
  modify fun s => { s with depth := outer }
  return a

def nested {α : Type} (r : Reader α) : Reader α := atDepth (· + 1) r

/-- Reads the head of a control statement, where a brace opens the body. -/
def inHead {α : Type} (r : Reader α) : Reader α := atDepth (fun _ => -1) r

/-- Repeats a step until it says that it is done; fails when the fuel runs out. -/
def iterateFuel {σ : Type} (next : σ → Reader (σ × Bool)) : Nat → σ → Reader σ
  | 0, _ => failure
  | fuel + 1, s => do
    let (s, more) ← next s
    if more then iterateFuel next fuel s else return s

/-- Repeats a step until it says that it is done. A step that goes on takes a token, so that the
tokens that are left bound the repetition. -/
def iterate {σ : Type} (next : σ → Reader (σ × Bool)) (s : σ) : Reader σ := do
  iterateFuel next ((← get).steps.length + 2) s

/-- Reads items separated by commas up to a closing bracket, which is not taken. A comma may follow
the last item. -/
def commaList {α : Type} (item : Reader α) (closing : String) : Reader (List α) := do
  let items ← iterate (fun acc => do
    if ← atOp closing then return (acc, false)
    let a ← item
    if ← acceptOp "," then return (a :: acc, true)
    guard (← atOp closing)
    return (a :: acc, false)) []
  return items.reverse

def commaList1 {α : Type} (item : Reader α) : Reader (List α) := do
  let first ← item
  let items ← iterate (fun acc => do
    if ← acceptOp "," then return ((← item) :: acc, true)
    return (acc, false)) [first]
  return items.reverse

def manyWhile {α : Type} (test : Reader Bool) (item : Reader α) : Reader (List α) := do
  let items ← iterate (fun acc => do
    if ← test then return ((← item) :: acc, true)
    return (acc, false)) []
  return items.reverse

end Reader

end AccessLayer.Go
