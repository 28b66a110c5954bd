import AccessLayer.Go.Parse.File
import AccessLayer.Go.References
import AccessLayer.Go.StdPackage

/-!
# Imports in order

The imports of a file are brought in line with its references: unused ones go, packages of the
standard library are added, and the rest is merged into one declaration of sorted blocks, the
standard library first.

* `ImportLine`: one import; a block is a run of imports without a blank line.
* `Imports.settle`: the blocks that a file's references call for.
* `Imports.arrange`: the text of a file with its imports in order.
-/

namespace AccessLayer.Go

/-- One import: its name, empty when it has none, its path as written, and the comments above it
and beside it. -/
structure ImportLine where
  name : Bytes
  path : Bytes
  above : List Bytes
  beside : Bytes
deriving DecidableEq, Repr, Inhabited

namespace ImportLine

def target (l : ImportLine) : Bytes := (l.path.drop 1).dropLast

/-- The first element of the path. -/
def root (l : ImportLine) : Bytes := l.target.takeWhile (· != Bytes.byte '/')

/-- Zero for a path whose first element has no dot, one for other paths; two stands for the paths
of one hosting platform, which come last. -/
def group (l : ImportLine) : Nat :=
  if (Bytes.ofString "appengine").isPrefixOf l.target then 2
  else if l.root.contains (Bytes.byte '.') then 1
  else 0

def isVersion (part : Bytes) : Bool :=
  match part with
  | v :: digits =>
    v == Bytes.byte 'v' && !digits.isEmpty &&
      digits.all fun b => Bytes.byte '0' ≤ b && b ≤ Bytes.byte '9'
  | [] => false

/-- The name that a package probably has: the last element of its path, without what cannot stand in
a name, and skipping a version. -/
def assumedName (path : Bytes) : Bytes :=
  let parts := (Bytes.splitOn (Bytes.byte '/') path).reverse
  let base := match parts with
    | last :: before :: _ => if isVersion last then before else last
    | [last] => last
    | [] => []
  let base := (Bytes.dropFront? "go-" base).getD base
  let isNameChar (c : Char) : Bool := c == '_' || isLetter c || isDigit c
  Bytes.ofRunes (base.runes.takeWhile fun r => isNameChar r.char)

def identifier (l : ImportLine) : Bytes :=
  if l.name.isEmpty then assumedName l.target else l.name

/-- Whether the import has no name to refer to it by, and is kept for its effect. -/
def isNameless (l : ImportLine) : Bool := l.name == "_" || l.name == "." || l.target == "C"

/-- The order within a block: by group, path and name. -/
def le (a b : ImportLine) : Bool :=
  if a.group != b.group then a.group < b.group
  else if a.target != b.target then Bytes.le a.target b.target
  else Bytes.le a.name b.name

/-- Whether an import outside of the first block belongs to the standard library; a name or a
comment says that it does not. -/
def isStandard (inFirstBlock : Bool) (l : ImportLine) : Bool :=
  let reserved := ["test/", "example/", "internal/"].any fun p =>
    (Bytes.ofString p).isPrefixOf l.target
  !(l.root.drop 1).contains (Bytes.byte '.') && !reserved &&
    (inFirstBlock || (l.name.isEmpty && l.beside.isEmpty))

def text (l : ImportLine) : Bytes :=
  let named : Bytes := if l.name.isEmpty then [] else l.name ++ " "
  let commented : Bytes := if l.beside.isEmpty then [] else " " ++ l.beside
  named ++ l.path ++ commented

end ImportLine

/-- A run of imports without a blank line. -/
abbrev ImportBlock := List ImportLine

namespace Imports

/-! ## Reading -/

/-- The comments that stand between two offsets. -/
def commentsIn (f : File) (start stop : Nat) : List Comment :=
  (f.comments.flatten).filter fun c => start ≤ c.start && c.start < stop

/-- The import that an entry declares, given where the entry before it stopped. -/
def lineOf (f : File) (lines : LineTable) (prevStop : Nat) (s : Spec) : Option ImportLine :=
  match s with
  | .importSpec r _ name path _ =>
    let here := lines.line r.stop
    let beside := (commentsIn f r.stop (r.stop + 1000000)).filter fun c =>
      lines.line c.start == here
    let above := (commentsIn f prevStop r.start).filter fun c =>
      lines.line c.start != lines.line prevStop
    some ⟨(name.map (·.name)).getD [], path.text, above.map (·.text),
      (beside.head?.map (·.text)).getD []⟩
  | _ => none

/-- The blocks of a declaration's entries. An entry starts a block when a blank line stands before
it. -/
def blocksOf (f : File) (lines : LineTable) : Nat → List Spec → List ImportBlock
  | _, [] => []
  | prevStop, s :: ss =>
    match lineOf f lines prevStop s, blocksOf f lines s.range.stop ss, ss.head? with
    | some l, b :: bs, some next =>
      if lines.line s.range.stop + 1 < lines.line next.range.start then [l] :: b :: bs
      else (l :: b) :: bs
    | some l, bs, _ => [l] :: bs
    | none, bs, _ => bs

def decls (f : File) : List GenDecl :=
  f.decls.filterMap fun
    | .gen d => if d.word = .importWord then some d else none
    | .func _ => none

/-! ## Settling -/

/-- How many path elements two paths share. -/
def shared : Bytes → Bytes → Nat
  | a :: s, b :: t => if a == b then (if a == Bytes.byte '/' then 1 else 0) + shared s t else 0
  | _, _ => 0

/-- Puts an import into the block of the import that shares most of its path, the first one of
several. -/
def insert (path : Bytes) (blocks : List ImportBlock) : List ImportBlock :=
  let line : ImportLine := ⟨[], "\"" ++ path ++ "\"", [], []⟩
  let best (b : ImportBlock) : Option Nat := (b.map fun l => shared l.target path).max?
  let most := (blocks.filterMap best).max?
  match blocks.findIdx? fun b => best b == most && most.isSome with
  | some i => blocks.modify i (· ++ [line])
  | none => [[line]]

/-- Drops an import that says the same as the one after it. -/
def dedupe : ImportBlock → ImportBlock
  | a :: b :: rest =>
    if a.target == b.target && a.name == b.name && a.beside.isEmpty then dedupe (b :: rest)
    else a :: dedupe (b :: rest)
  | ls => ls

def splitGroups : ImportBlock → List ImportBlock
  | [] => []
  | l :: ls =>
    match splitGroups ls with
    | (m :: b) :: bs => if l.group == m.group then (l :: m :: b) :: bs else [l] :: (m :: b) :: bs
    | bs => [l] :: bs

/-- Moves the imports of the standard library to the first block. -/
def standardFirst (blocks : List ImportBlock) : List ImportBlock :=
  match blocks with
  | [] => []
  | first :: rest =>
    let stdFirst := first.filter (ImportLine.isStandard true)
    let otherFirst := first.filter fun l => !ImportLine.isStandard true l
    let moved := rest.flatten.filter (ImportLine.isStandard false)
    let others := rest.map fun b => b.filter fun l => !ImportLine.isStandard false l
    let std := if moved.isEmpty then stdFirst
      else dedupe ((stdFirst ++ moved).mergeSort ImportLine.le)
    ([std, otherFirst] ++ others).filter fun b => !b.isEmpty

/-- The names of exported things start with an upper-case letter. -/
def isExported (name : Bytes) : Bool := (name.chars.head?.map isUpper).getD false

/-- The blocks that references call for: unused imports go, missing packages of the standard library
come, and the blocks are sorted. -/
def settle (references : List (Bytes × Bytes)) (blocks : List ImportBlock) : List ImportBlock :=
  let refs := references.filter fun (_, sel) => isExported sel
  let names := (refs.map (·.1)).eraseDups
  let used := blocks.map fun b => b.filter fun l => l.isNameless || names.contains l.identifier
  let used := used.filter fun b => !b.isEmpty
  let known := (blocks.flatten.filter fun l => !l.isNameless).map (·.identifier)
  let missing := names.filter fun n => !known.contains n
  let added := missing.filterMap fun n =>
    StdPackage.find? n ((refs.filter fun (p, _) => p == n).map (·.2))
  let all := (Bytes.sort added).foldl (fun bs p => insert p bs) used
  standardFirst ((all.map fun b => dedupe (b.mergeSort ImportLine.le)).flatMap splitGroups)

/-! ## Writing -/

def declText (blocks : List ImportBlock) (parens : Bool) : Bytes :=
  let blockText (b : ImportBlock) : Bytes :=
    Bytes.join "\n" (b.flatMap fun l => l.above ++ [l.text])
  match blocks with
  | [] => []
  | [[l]] =>
    if parens then "import (\n" ++ blockText [l] ++ "\n)" else "import " ++ l.text
  | bs => "import (\n" ++ Bytes.join "\n\n" (bs.map blockText) ++ "\n)"

def splice (text : Bytes) : Nat → List (Range × Bytes) → Bytes
  | offset, [] => text.drop offset
  | offset, (r, new) :: rest => text.slice offset r.start ++ new ++ splice text r.stop rest

def packageLineEnd (text : Bytes) (f : File) : Nat :=
  let after := text.drop f.name.range.stop
  f.name.range.stop + (after.takeWhile (· != Bytes.byte '\n')).length

/-- The range of a declaration with the comments beside its last entry. -/
def declRange (f : File) (lines : LineTable) (d : GenDecl) : Range :=
  let stop := match d.parens with
    | some _ => d.range.stop
    | none =>
      ((commentsIn f d.range.stop (d.range.stop + 1000000)).filter fun c =>
        lines.line c.start == lines.line d.range.stop).foldl (fun n c => max n c.stop) d.range.stop
  ⟨d.range.start, stop⟩

/-- The text of a file with its imports in order; unchanged when they are already. -/
def arrangeFile (text : Bytes) (f : File) : Bytes :=
  let lines := LineTable.ofBytes text
  let ds := decls f
  match ds with
  | [] =>
    let blocks := settle f.references []
    if blocks.isEmpty then text
    else
      let stop := packageLineEnd text f
      splice text 0 [(⟨stop, stop⟩, "\n\n" ++ declText blocks false ++ "\n")]
  | first :: others =>
    let own := blocksOf f lines first.range.start first.specs
    let more := others.flatMap fun d => (blocksOf f lines d.range.start d.specs).flatten
    let blocks := match own.reverse with
      | [] => if more.isEmpty then [] else [more]
      | last :: before => (((last ++ more) :: before)).reverse
    let settled := settle f.references blocks
    if settled == own && others.isEmpty && !settled.isEmpty then text
    else
      let kept := blocks.flatten.any fun l => settled.flatten.contains l
      let parens := (first.parens.isSome && kept) || !others.isEmpty
      splice text 0 ((declRange f lines first, declText settled parens) ::
        others.map fun d => (declRange f lines d, []))

/-- The text of a file with its imports in order; `none` when it is no valid Go. -/
def arrange (text : Bytes) : Option Bytes := (File.parse text).map (arrangeFile text)

end Imports

end AccessLayer.Go
