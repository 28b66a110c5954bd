import AccessLayer.Go.Print.Columns
import AccessLayer.Go.Print.DocComment
import AccessLayer.Go.Syntax

/-!
# Printing token by token

Tokens are put on a sheet one after the other. White space is held back until the next token, so
that comments that stand before that token in the source can be placed among it. The sheet follows
the source: it knows for each token where it stood, and keeps line breaks and one blank line.

* `Printer.gap`, `Printer.word`, `Printer.ident`, `Printer.literal`: printing.
* `Printer.linebreak`: line breaks as in the source.
* `Sheet.finish`: the pieces of the finished sheet.
-/

namespace AccessLayer.Go

open Bytes

/-- A place in the source or in the output. Line zero is no place. -/
structure Position where
  offset : Nat
  line : Nat
  column : Nat
deriving DecidableEq, Repr, Inhabited

namespace Position

def infinity : Nat := 1073741824

def isValid (p : Position) : Bool := 0 < p.line

end Position

/-- White space that is held back. -/
inductive Gap where
  | ignore
  | blank
  | cell
  | newline
  | formfeed
  | indent
  | unindent
deriving DecidableEq, Repr, Inhabited

/-- A sheet: what has been printed, last piece first, and the state of printing. -/
structure Sheet where
  lines : LineTable
  pieces : List Piece
  /-- Whether neighbouring parameters of one type are merged and variables of a function that only
  have a value are declared in the short form. -/
  isTidy : Bool
  comments : List CommentGroup
  /-- How deep the composite literals are nested. -/
  level : Nat
  indent : Nat
  /-- No blank is added after a block comment. -/
  noExtraBlank : Bool
  /-- No line break is added after a block comment. -/
  noExtraBreak : Bool
  endAlignment : Bool
  /-- A line break here would read as a semicolon. -/
  impliedSemi : Bool
  lastToken : Option TokenKind
  /-- The opening bracket that the last token is. -/
  prevOpen : Option TokenKind
  gaps : List Gap
  pos : Position
  out : Position
  last : Position
  /-- The output lines of the items being printed, innermost first, once their first token is
  known. -/
  marks : List (Option Nat)
deriving Inhabited

/-- Printing on a sheet. -/
abbrev Printer := StateM Sheet

namespace Sheet

def blank (lines : LineTable) (isTidy : Bool) (comments : List CommentGroup) : Sheet :=
  { lines
    pieces := []
    isTidy
    comments
    level := 0
    indent := 0
    noExtraBlank := false
    noExtraBreak := false
    endAlignment := false
    impliedSemi := false
    lastToken := none
    prevOpen := none
    gaps := []
    pos := ⟨0, 1, 1⟩
    out := ⟨0, 1, 1⟩
    last := ⟨0, 0, 0⟩
    marks := [] }

def line (s : Sheet) (offset : Nat) : Nat := s.lines.line offset

def place (s : Sheet) (offset : Nat) : Position :=
  ⟨offset, s.lines.line offset, s.lines.column offset⟩

/-- Whether printing the comments needs a line break: they are on several lines, or one of them
runs to the end of its line. -/
def breaksLine (s : Sheet) (g : CommentGroup) : Bool :=
  g.any fun c => c.isLine || c.text.contains (byte '\n') ||
    s.line c.start != s.line (CommentGroup.start g)

/-- Whether the next comments stand before the place, and printing them there adds no
semicolon. -/
def commentBefore (s : Sheet) (next : Position) : Bool :=
  match s.comments with
  | [] => false
  | g :: _ => CommentGroup.start g < next.offset && (!s.impliedSemi || !s.breaksLine g)

def commentSizeBefore (s : Sheet) (next : Position) : Nat :=
  let before := s.comments.takeWhile fun g =>
    CommentGroup.start g < next.offset && (!s.impliedSemi || !s.breaksLine g)
  total (before.flatMap fun g => g.map fun c => c.text.length)

end Sheet

namespace Printer

/-- At most one blank line is kept. -/
def limit (n : Nat) : Nat := min n 2

/-! ## Writing -/

/-- Writes a piece of white space; in a line whose columns have ended it starts no cell. -/
def write (p : Piece) : Printer Unit := modify fun s =>
  let (p, endAlignment) :=
    if s.endAlignment then
      match p with
      | .tab | .cell => (Piece.blank, true)
      | .newline | .formfeed => (Piece.formfeed, false)
      | q => (q, true)
    else (p, false)
  match p with
  | .newline | .formfeed =>
    { s with
      pieces := p :: s.pieces
      endAlignment
      pos := ⟨s.pos.offset + 1, s.pos.line + 1, 1⟩
      out := ⟨s.out.offset, s.out.line + 1, 1⟩ }
  | _ =>
    { s with
      pieces := p :: s.pieces
      endAlignment
      pos := ⟨s.pos.offset + 1, s.pos.line, s.pos.column + 1⟩
      out := ⟨s.out.offset, s.out.line, s.out.column + 1⟩ }

/-- Writes a piece of white space several times. -/
def writeTimes (p : Piece) : Nat → Printer Unit
  | 0 => pure ()
  | n + 1 => do
    write p
    writeTimes p n

/-- The place after a text that starts at a place. -/
def moved (p : Position) (text : Bytes) : Position :=
  let breaks := text.count (byte '\n')
  let lastLine := (text.reverse.takeWhile (· != byte '\n')).length
  if breaks == 0 then ⟨p.offset + text.length, p.line, p.column + text.length⟩
  else ⟨p.offset + text.length, p.line + breaks, lastLine + 1⟩

/-- Writes a text that stands at a place of the source, indented if it starts a line. -/
def writeText (at_ : Position) (text : Bytes) : Printer Unit := modify fun s =>
  let n := if s.out.column == 1 then s.indent else 0
  let pieces := List.replicate n Piece.tab ++ s.pieces
  let pos := if at_.isValid then at_
    else ⟨s.pos.offset + n, s.pos.line, s.pos.column + n⟩
  let out : Position := ⟨s.out.offset, s.out.line, s.out.column + n⟩
  let pos := moved pos text
  { s with
    pieces := .text text :: pieces
    endAlignment := s.endAlignment || text.contains (byte '\n')
    pos
    out := moved out text
    last := pos }

def shift (change : Nat → Nat) : Printer Unit := modify fun s =>
    { s with indent := change s.indent }

/-- Writes white space that was held back. A line break right before an unindentation comes after
it. -/
def writeGaps (gs : List Gap) : Printer Unit :=
  match gs with
  | [] => pure ()
  | .newline :: .unindent :: rest | .formfeed :: .unindent :: rest => do
    shift (· - 1)
    writeGaps (.formfeed :: rest)
  | .ignore :: rest => writeGaps rest
  | .indent :: rest => do
    shift (· + 1)
    writeGaps rest
  | .unindent :: rest => do
    shift (· - 1)
    writeGaps rest
  | .newline :: rest => do
    write .newline
    writeGaps rest
  | .formfeed :: rest => do
    write .formfeed
    writeGaps rest
  | .blank :: rest => do
    write .blank
    writeGaps rest
  | .cell :: rest => do
    write .cell
    writeGaps rest
termination_by gs.length

/-- Writes the first of the gaps that are held back. -/
def flushGaps (n : Nat) : Printer Unit := do
  let gs := (← get).gaps
  writeGaps (gs.take n)
  modify fun s => { s with gaps := gs.drop n }

/-! ## Comments -/

/-- What happens to the held-back white space before a comment on the line of the last token:
blanks are dropped, cells stay. Also whether there is a cell, and how much of it to write. -/
def gapsOnLine : List Gap → List Gap × Bool × Option Nat
  | [] => ([], false, none)
  | .blank :: gs =>
    let (gs, sep, n) := gapsOnLine gs
    (.ignore :: gs, sep, n.map (· + 1))
  | .cell :: gs =>
    let (gs, _, n) := gapsOnLine gs
    (.cell :: gs, true, n.map (· + 1))
  | .indent :: gs =>
    let (gs, sep, n) := gapsOnLine gs
    (.indent :: gs, sep, n.map (· + 1))
  | gs => (gs, false, some 0)

/-- What happens to the held-back white space before a comment on a line of its own: blanks and
cells are dropped, and so is the first line break. Also whether a line break was dropped, and how
much to write. `aligned` says that an unindentation belongs before the comment. -/
def gapsAbove (aligned : Bool) : List Gap → List Gap × Bool × Option Nat
  | [] => ([], false, none)
  | .blank :: gs | .cell :: gs =>
    let (gs, dropped, n) := gapsAbove aligned gs
    (.ignore :: gs, dropped, n.map (· + 1))
  | .indent :: gs =>
    let (gs, dropped, n) := gapsAbove aligned gs
    (.indent :: gs, dropped, n.map (· + 1))
  | .unindent :: gs =>
    if aligned || gs.head? == some .unindent then
      let (gs, dropped, n) := gapsAbove aligned gs
      (.unindent :: gs, dropped, n.map (· + 1))
    else (.unindent :: gs, false, some 0)
  | .newline :: gs | .formfeed :: gs => (.ignore :: gs, true, some 0)
  | .ignore :: gs => (.ignore :: gs, false, some 0)

/-- Writes the white space before a comment at a place. `next` is the place of the item after the
comments, `prev` the comment before this one, `token` the next token. -/
def commentFront (at_ next : Position) (prev : Option Comment) (token : TokenKind) :
    Printer Unit := do
  let s ← get
  if s.pieces.isEmpty then return
  let afterLine := (prev.map Comment.isLine).getD false
  if at_.line == s.last.line && !afterLine then
    let hasSep ←
      if prev.isNone then
        let (gaps, sep, n) := gapsOnLine s.gaps
        modify fun s => { s with gaps }
        flushGaps (n.getD 0)
        pure sep
      else pure false
    if !hasSep then write (if at_.line == next.line then .blank else .tab)
  else
    let aligned := token != .op "\x7d" && at_.column == next.column
    let (gaps, dropped, n) := gapsAbove aligned s.gaps
    modify fun s => { s with gaps }
    flushGaps (n.getD 0)
    let s ← get
    let breaks := if at_.isValid && s.last.isValid then at_.line - s.last.line else 0
    let breaks := if s.indent == 0 && dropped && prev.isNone then breaks + 1 else breaks
    let breaks := if breaks == 0 && afterLine then 1 else breaks
    writeTimes .formfeed (limit breaks)

/-- A text without the white space at its end. -/
def trimRight (text : Bytes) : Bytes :=
  ofRunes ((text.runes.reverse.dropWhile fun r => isSpace r.char).reverse)

/-- The lines of a block comment after the first, without the white space that all of them share,
as far as the last line shows how far the comment was indented. -/
def stripShared (lines : List Bytes) : List Bytes :=
  match lines with
  | [] | [_] => lines
  | first :: rest =>
    let inner := (rest.dropLast).filter fun l => !(l.all DocComment.isIndentByte)
    let last := rest.getLast?.getD []
    let candidates := if inner.isEmpty then [last] else inner ++ [last]
    let shared := match candidates with
      | [] => []
      | c :: cs => cs.foldl (fun acc l => DocComment.common acc (DocComment.leading l))
        (DocComment.leading c)
    let shared := if (shared.getLast? == some (byte ' ')) &&
        (candidates.all fun l => (l.drop shared.length).head? == some (byte '*')) then
      shared.dropLast
    else shared
    first :: rest.map fun l =>
      if l.all DocComment.isIndentByte && l != last then [] else l.drop shared.length

def writeComment (c : Comment) : Printer Unit := do
  let s ← get
  let at_ := s.place c.start
  if c.isLine then writeText at_ (trimRight c.text)
  else
    let lines := splitOn (byte '\n') c.text
    let lines := if at_.column == 1 && 0 < s.indent then
        match lines with
        | [] => []
        | l :: ls => l :: ls.map fun m => ofString "   " ++ m
      else lines
    match stripShared lines with
    | [] => pure ()
    | first :: rest =>
      if !first.isEmpty then writeText at_ (trimRight first)
      rest.forM fun l => do
        write .formfeed
        if !l.isEmpty then writeText (← get).pos (trimRight l)

/-- What happens to the held-back white space after the comments: blanks and cells are dropped, and
of the line breaks one is kept if needed. Also whether one was kept, and whether a break between
sections was dropped. -/
def gapsBelow : Bool → List Gap → List Gap × Bool × Bool
  | _, [] => ([], false, false)
  | need, .blank :: gs | need, .cell :: gs =>
    let (gs, kept, dropped) := gapsBelow need gs
    (.ignore :: gs, kept, dropped)
  | need, .newline :: gs =>
    if need then
      let (gs, _, dropped) := gapsBelow false gs
      (.newline :: gs, true, dropped)
    else
      let (gs, kept, dropped) := gapsBelow need gs
      (.ignore :: gs, kept, dropped)
  | need, .formfeed :: gs =>
    if need then
      let (gs, _, dropped) := gapsBelow false gs
      (.formfeed :: gs, true, dropped)
    else
      let (gs, kept, _) := gapsBelow need gs
      (.ignore :: gs, kept, true)
  | need, g :: gs =>
    let (gs, kept, dropped) := gapsBelow need gs
    (g :: gs, kept, dropped)

/-- Writes the white space after the comments; whether a line break was written, and whether a
break between sections was dropped. -/
def commentBack (needsBreak : Bool) : Printer (Bool × Bool) := do
  let (gaps, kept, dropped) := gapsBelow needsBreak (← get).gaps
  modify fun s => { s with gaps }
  flushGaps gaps.length
  if needsBreak && !kept then
    write .newline
    return (true, dropped)
  return (kept, dropped)

/-- Writes one group of comments; the last comment of the source that was written. A group at the
left margin right above the next token is a doc comment. The result is `none` when nothing of the
group is left. -/
def writeGroup (next : Position) (prev : Option Comment) (token : TokenKind) (g : CommentGroup) :
    Printer (Option Comment) := do
  let s ← get
  let isDoc := token != .keyword "import" && (s.place (CommentGroup.start g)).column == 1 &&
    s.place (CommentGroup.stop g + 1) == next
  let shown := if isDoc then DocComment.format g else g
  if shown.isEmpty then
    commentFront (s.place (CommentGroup.start g)) next prev token
    modify fun s => { s with pos := next, last := next }
    return none
  let _ ← shown.foldlM (fun prev c => do
    commentFront ((← get).place c.start) next prev token
    writeComment c
    return some c) prev
  if isDoc then
    modify fun s =>
      let stop := s.place (CommentGroup.stop g)
      { s with pos := stop, last := stop }
  return g.getLast?

/-- Writes all comments before a place; the last one, and whether printing may go on. -/
def writeGroups (next : Position) (token : TokenKind) :
    Nat → Option Comment → Printer (Option Comment × Bool)
  | 0, prev => return (prev, true)
  | fuel + 1, prev => do
    let s ← get
    if !s.commentBefore next then return (prev, true)
    match s.comments with
    | [] => return (prev, true)
    | g :: rest =>
      let lastOne ← writeGroup next prev token g
      modify fun s => { s with comments := rest }
      if lastOne.isNone then return (none, false)
      writeGroups next token fuel lastOne

/-- Writes the comments before the next token together with the held-back white space; whether a
line break was written, and whether a break between sections was dropped. -/
def intersperse (next : Position) (token : TokenKind) : Printer (Bool × Bool) := do
  let (lastOne, goOn) ← writeGroups next token (← get).comments.length none
  match lastOne with
  | none => if goOn then return (false, false) else commentBack false
  | some c =>
    let s ← get
    let closes := (token == .op ")" && s.prevOpen != some (.op "(")) ||
      (token == .op "]" && s.prevOpen != some (.op "["))
    let sameLine := !s.noExtraBlank && !c.isLine && s.line c.start == next.line &&
      token != .op "," && !closes
    let hasBreak := s.gaps.any fun g => g == .newline || g == .formfeed
    let broken := sameLine && hasBreak && !s.noExtraBreak && s.level == 0
    if sameLine && !broken then write .blank
    commentBack (broken || c.isLine || token == .eof ||
      (token == .op "\x7d" && !s.noExtraBreak))

/-- Writes what is held back before the next token. -/
def flush (next : Position) (token : TokenKind) : Printer (Bool × Bool) := do
  let s ← get
  if s.commentBefore next then intersperse next token
  else
    flushGaps s.gaps.length
    return (false, false)

/-! ## Items -/

def gap (g : Gap) : Printer Unit := modify fun s =>
  if g = .ignore then s
  else
    { s with
      gaps := s.gaps ++ [g]
      impliedSemi := if g = .newline || g = .formfeed then false else s.impliedSemi
      prevOpen := match s.lastToken with
        | none => s.prevOpen
        | some (.op "(") => some (.op "(")
        | some (.op "[") => some (.op "[")
        | _ => none
      lastToken := none }

def setPos (offset : Nat) : Printer Unit := modify fun s => { s with pos := s.place offset }

/-- Whether two tokens without a blank between them would read as one. -/
def combines (prev : Option TokenKind) (next : Bytes) : Bool :=
  match prev, next.head? with
  | some (.number .int), some b => b == byte '.'
  | some (.op "+"), some b => b == byte '+'
  | some (.op "-"), some b => b == byte '-'
  | some (.op "/"), some b => b == byte '*'
  | some (.op "<"), some b => b == byte '-' || b == byte '<'
  | some (.op "&"), some b => b == byte '&' || b == byte '^'
  | _, _ => false

/-- Prints a token; `semi` says that a line break after it would read as a semicolon. -/
def item (kind : TokenKind) (text : Bytes) (semi : Bool) : Printer Unit := do
  modify fun s =>
    { s with
      prevOpen := match s.lastToken with
        | none => s.prevOpen
        | some (.op "(") => some (.op "(")
        | some (.op "[") => some (.op "[")
        | _ => none
      lastToken := some kind }
  let next := (← get).pos
  let (wrote, dropped) ← flush next kind
  let s ← get
  let breaks := limit (next.line - s.pos.line)
  let breaks := if wrote && breaks == 2 then 1 else breaks
  let broken := !s.impliedSemi && 0 < breaks
  if broken then writeTimes (if dropped then .formfeed else .newline) breaks
  modify fun s =>
    { s with
      marks := match s.marks with
        | none :: ms => some s.out.line :: ms
        | ms => ms }
  writeText next text
  modify fun s => { s with impliedSemi := semi && !broken }

/-- Whether a line break after an operator or keyword reads as a semicolon. -/
def endsStatement (text : String) : Bool :=
  ["break", "continue", "fallthrough", "return", "++", "--", ")", "]", "\x7d"].contains text

def sign (text : String) : Printer Unit := do
  let s ← get
  if combines s.lastToken text then modify fun s => { s with gaps := [.blank] }
  item (.op text) text (endsStatement text)

def word (text : String) : Printer Unit := item (.keyword text) text (endsStatement text)

def ident (i : Ident) : Printer Unit := item .ident i.name true

def literal (kind : TokenKind) (text : Bytes) : Printer Unit := item kind text true

def lineOf (offset : Nat) : Printer Nat := return (← get).line offset

/-- Breaks the line as often as the source does before the given line, at least `least` times and
at most twice. White space goes before the break; `newSection` ends the columns. The result counts
the breaks, a new section counting as two. -/
def linebreak (line least : Nat) (before : Gap) (newSection : Bool) : Printer Nat := do
  let n := max (limit (line - (← get).pos.line)) least
  if n == 0 then return 0
  gap before
  if newSection then gap .formfeed
  let plain := if newSection then n - 1 else n
  (List.replicate plain Gap.newline).forM gap
  return if newSection then plain + 2 else plain

/-- Prints an item and tells the output line of its first token. -/
def marking (p : Printer Unit) : Printer Nat := do
  modify fun s => { s with marks := none :: s.marks }
  p
  let m := ((← get).marks.head?.join).getD 0
  modify fun s => { s with marks := s.marks.tail }
  return m

/-- How many lines have been printed since the given output line. -/
def linesFrom (line : Nat) : Printer Nat := return (← get).out.line - line

def nested (p : Printer Unit) : Printer Unit := do
  modify fun s => { s with level := s.level + 1 }
  p
  modify fun s => { s with level := s.level - 1 }

end Printer

namespace Sheet

/-- The pieces of a finished sheet: the comments that are left come last. -/
def finish (s : Sheet) : List Piece :=
  let close : Printer Unit := do
    modify fun s => { s with impliedSemi := false }
    let _ ← Printer.flush ⟨Position.infinity, Position.infinity, 0⟩ .eof
  (close.run s).2.pieces.reverse

/-- How long the printed text is without column layout, if it is on one line. -/
def size? (s : Sheet) : Option Nat :=
  let pieces := s.finish
  let breaks : Piece → Bool
    | .newline | .formfeed => true
    | .text t => t.contains (byte '\n')
    | _ => false
  let trimmed := pieces.reverse.dropWhile fun
    | .blank | .tab | .cell => true
    | _ => false
  if pieces.any breaks then none
  else some (total (trimmed.map fun
    | .text t => t.length
    | _ => 1))

end Sheet

end AccessLayer.Go
