import AccessLayer.Text.Rune

/-!
# Column layout

A printed file is a sequence of pieces: text, blanks, tabs that end a cell, and line breaks.
Neighbouring lines with a cell in the same column form a block, and the cells of a block are made
equally wide. A line without cells, or a break that asks for it, ends all blocks.

* `Piece`: one piece of a printed file.
* `Columns.layout`: the text of the pieces, with aligned columns and no blanks at the ends of lines.
-/

namespace AccessLayer.Go

/-- One piece of a printed file. -/
inductive Piece where
  | text (s : Bytes)
  | blank
  /-- Ends a cell whose column is kept even where all its cells are empty. -/
  | tab
  | cell
  | newline
  /-- Ends a line and all blocks of columns. -/
  | formfeed
deriving DecidableEq, Repr, Inhabited

namespace Columns

/-- Text or white space of one line. -/
inductive Segment where
  | text (s : Bytes)
  | blank (s : Bytes)
deriving DecidableEq, Repr, Inhabited

def Segment.width : Segment → Nat
  | .text s | .blank s => s.runes.length

/-- A cell: its segments, in order, and whether its column is kept even where it is empty. -/
structure Cell where
  segments : List Segment
  isKept : Bool
deriving Repr, Inhabited

namespace Cell

def width (c : Cell) : Nat := Bytes.total (c.segments.map Segment.width)

end Cell

/-- A line: its cells, and what follows the last of them. -/
structure Line where
  cells : List Cell
  rest : List Segment
deriving Repr, Inhabited

/-- A section: lines whose columns are laid out together. -/
abbrev Section := List Line

/-! ## From pieces to sections -/

/-- What has been collected, everything last first. -/
structure Draft where
  sections : List Section
  lines : List Line
  cells : List Cell
  segments : List Segment
deriving Inhabited

namespace Draft

def endCell (d : Draft) (isKept : Bool) : Draft :=
  { d with cells := ⟨d.segments.reverse, isKept⟩ :: d.cells, segments := [] }

/-- Ends the current line, and with it the section if asked to or if the line has no cells. -/
def endLine (d : Draft) (force : Bool) : Draft :=
  let lines := ⟨d.cells.reverse, d.segments.reverse⟩ :: d.lines
  if force || d.cells.isEmpty then ⟨lines.reverse :: d.sections, [], [], []⟩
  else ⟨d.sections, lines, [], []⟩

def add (d : Draft) : Piece → Draft
  | .text s => { d with segments := .text s :: d.segments }
  | .blank => { d with segments := .blank " " :: d.segments }
  | .tab => d.endCell true
  | .cell => d.endCell false
  | .newline => d.endLine false
  | .formfeed => d.endLine true

/-- The sections of a finished draft; a last line without a break counts. -/
def finish (d : Draft) : List Section :=
  let d := if d.cells.isEmpty && d.segments.isEmpty then d else d.endLine true
  (if d.lines.isEmpty then d.sections else d.lines.reverse :: d.sections).reverse

end Draft

def sections (ps : List Piece) : List Section :=
  (ps.foldl Draft.add (⟨[], [], [], []⟩ : Draft)).finish

/-! ## Widths -/

/-- The width of a block of cells: one more than its widest cell, nothing when all cells are empty
and none is kept. -/
def blockWidth (cells : List Cell) : Nat :=
  if cells.all fun c => c.width == 0 && !c.isKept then 0
  else (cells.map fun c => c.width + 1).foldl max 0

/-- The widths of the cells of each line from the given column on. The lines of one block have a
cell in this column; the block is as wide as its widest cell. -/
def widthsFuel (column : Nat) : Nat → List Line → List (List Nat)
  | 0, ls => ls.map fun _ => []
  | _, [] => []
  | fuel + 1, l :: ls =>
    if l.cells.length ≤ column then [] :: widthsFuel column fuel ls
    else
      let block := l :: ls.takeWhile fun m => column < m.cells.length
      let after := ls.dropWhile fun m => column < m.cells.length
      let width := blockWidth (block.filterMap fun m => m.cells[column]?)
      (widthsFuel (column + 1) fuel block).map (width :: ·) ++ widthsFuel column fuel after

def widths (ls : Section) : List (List Nat) :=
  widthsFuel 0 (ls.length + (ls.map fun l => l.cells.length).foldl max 0 + 1) ls

/-! ## Text -/

def tabWidth : Nat := 8

/-- The white space that fills an empty cell at the start of a line: tabs. -/
def tabs (width : Nat) : Bytes :=
  List.replicate ((width + tabWidth - 1) / tabWidth) (Bytes.byte '\t')

/-- The segments of a line whose cells are filled up to the given widths. Empty cells at the start
are filled with tabs, all others with blanks. -/
def fill : Bool → List Cell → List Nat → List Segment
  | _, [], _ => []
  | _, c :: cs, [] => c.segments ++ fill false cs []
  | leading, c :: cs, w :: ws =>
    if c.segments.isEmpty then
      .blank (if leading then tabs w else List.replicate w (Bytes.byte ' ')) :: fill leading cs ws
    else
      c.segments ++ .blank (List.replicate (w - c.width) (Bytes.byte ' ')) :: fill false cs ws

def isBlank : Segment → Bool
  | .blank _ => true
  | .text _ => false

def bytes : Segment → Bytes
  | .text s | .blank s => s

/-- The text of a line, without blanks at its end. -/
def lineText (l : Line) (ws : List Nat) : Bytes :=
  let all := fill true l.cells ws ++ l.rest
  (all.reverse.dropWhile isBlank).reverse.flatMap bytes

/-- The text of a section, every line ended. -/
def sectionText (ls : Section) : Bytes :=
  (ls.zip (widths ls)).flatMap fun (l, ws) => lineText l ws ++ "\n"

def layout (ps : List Piece) : Bytes := (sections ps).flatMap sectionText

end Columns

end AccessLayer.Go
