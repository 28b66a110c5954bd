import AccessLayer.Go.Parse.File
import AccessLayer.Go.Print.Stmt

/-!
# Printing files

* `Print.layout`: the printers of expressions and statements tied together.
* `File.print`: the text of a file in its standard layout.
-/

namespace AccessLayer.Go

namespace Print

open Printer

/-- The printers tied together; what is nested deeper than the fuel is left out. -/
def layout : Nat → Layout
  | 0 => ⟨fun _ _ _ => pure (), fun _ _ => pure (), fun _ _ => pure ()⟩
  | fuel + 1 =>
    let l := layout fuel
    ⟨expr1 l, stmt l, block l⟩

def funcDecl (l : Layout) (d : FuncDecl) : Printer Unit := do
  setPos d.range.start
  word "func"
  gap .blank
  let column := (← get).out.column - 5
  if let some r := d.receiver then
    parameters l r .function
    gap .blank
  l.expr (.ident d.name)
  signature l d.signature
  if let some body := d.body then
    funcBody l (← distanceFrom d.range.start column) .cell body

/-- Prints declarations. A blank line stands between declarations of different kinds and before a
commented one. -/
def declList (l : Layout) : Option String → List Decl → Printer Unit
  | _, [] => pure ()
  | prev, d :: ds => do
    let s ← get
    let least := if prev != some d.word || !d.doc.isEmpty then 2 else 1
    let long := s.line d.range.start < s.line d.range.stop
    let _ ← linebreak (s.line d.range.start) least .ignore (d.word == "func" && long)
    match d with
    | .gen g => genDecl l g
    | .func f => funcDecl l f
    declList l (some d.word) ds

def file (l : Layout) (f : File) : Printer Unit := do
  setPos f.package
  word "package"
  gap .blank
  l.expr (.ident f.name)
  declList l none f.decls
  gap .newline

end Print

namespace File

/-- The text of a file in its standard layout, or in the tidy one. The line starts say which parts
of the file stand on one line. -/
def print (f : File) (lines : LineTable) (isTidy : Bool) : Bytes :=
  let s := ((Print.file (Print.layout (2 * f.tokens + 8)) f).run
    (Sheet.blank lines isTidy f.comments)).2
  Columns.layout s.finish

/-- A text in its standard layout; `none` when it is no valid Go. -/
def reprint (text : Bytes) : Option Bytes :=
  (parse text).map fun f => f.print (LineTable.ofBytes text) false

end File

end AccessLayer.Go
