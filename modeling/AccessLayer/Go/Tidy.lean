import AccessLayer.Go.Parse.File

/-!
# Tidy files

Rules beyond the standard layout: no blank lines at the edges of bodies and field lists, none
between a call and the test of its error, a blank line between long declarations, literals whose
elements are broken over lines consistently, neighbouring declarations in one group, and comments
that start with a blank. Most rules only say which parts of the file stand on one line, so they
change the line starts and leave the tree alone.

* `Tidy.Site`: a place of the file that a rule looks at; `Tidy.sites`: all of them, in order.
* `Tidy.settle`: what a rule does to the line starts.
* `Tidy.file`: a tidy file and its line starts.
-/

namespace AccessLayer.Go

namespace Tidy

/-! ## Sites -/

/-- A place of the file that a rule looks at. -/
inductive Site where
  /-- A block: its braces, the bytes of its statements, and how many there are; whether it is the
  body of a function; the condition right before it. -/
  | body (lbrace rbrace : Nat) (inner : Option Range) (count : Nat) (isFunction : Bool)
      (test : Option Range)
  /-- A statement that assigns an error and the test of that error after it. -/
  | errorTest (assigned test : Nat)
  /-- A field list: its brackets and the bytes of its fields. -/
  | fields (opening closing : Nat) (inner : Option Range)
  | assigned (sign value : Nat)
  | clause (start colon : Nat)
  /-- A composite literal: its braces and its elements; whether each is a literal itself. -/
  | literal (lbrace rbrace : Nat) (elements : List (Range × Bool))
deriving Repr, Inhabited

/-- Collecting sites, the last one first. -/
abbrev Survey := StateM (List Site)

/-- The surveys that call each other. -/
structure Surveys where
  expr : Expr → Survey Unit
  stmt : Stmt → Survey Unit

def note (s : Site) : Survey Unit := modify (s :: ·)

/-- The range from the first to the last of some ranges. -/
def hull (rs : List Range) : Option Range :=
  match rs.head?, rs.getLast? with
  | some a, some b => some ⟨a.start, b.stop⟩
  | _, _ => none

def fieldList (v : Surveys) (fs : FieldList) : Survey Unit := do
  note (.fields fs.opening fs.closing (hull (fs.fields.map (·.range))))
  fs.fields.forM fun f => v.expr f.type

/-- Surveys the parameters and results of a function. A single result without parentheses is no
list. -/
def signature (v : Surveys) (sig : Signature) : Survey Unit := do
  sig.typeParams.forM (fieldList v)
  fieldList v sig.params
  sig.results.forM fun rs =>
    if (rs.fields.map (·.range.start)).head? == some rs.opening then
      rs.fields.forM fun f => v.expr f.type
    else fieldList v rs

def nameOf : Expr → Bytes
  | .ident i => i.name
  | _ => []

def assignsError : Stmt → Bool
  | .assign _ left _ sign _ =>
    (sign == ":=" || sign == "=") && (left.getLast?.map nameOf) == some (Bytes.ofString "err")
  | _ => false

def testsError : Stmt → Bool
  | .cond _ none (.binary _ x _ sign y) _ none =>
    sign == "!=" && nameOf x == "err" && nameOf y == "nil"
  | _ => false

def errorTests : List Stmt → Survey Unit
  | a :: b :: rest => do
    if assignsError a && testsError b then note (.errorTest a.stop b.start)
    errorTests (b :: rest)
  | _ => pure ()

def body (v : Surveys) (b : Block) (isFunction : Bool) (test : Option Range) : Survey Unit := do
  errorTests b.stmts
  note (.body b.lbrace b.rbrace (hull (b.stmts.map (·.range))) b.stmts.length isFunction test)
  b.stmts.forM v.stmt

def expr (v : Surveys) (x : Expr) : Survey Unit := do
  match x with
  | .ident _ | .literal _ => pure ()
  | .funcLit _ sig b =>
    signature v sig
    body v b true none
  | .composite _ type lbrace elements rbrace =>
    type.forM v.expr
    elements.forM v.expr
    let isLiteral : Expr → Bool
      | .composite _ _ _ _ _ => true
      | _ => false
    note (.literal lbrace rbrace (elements.map fun e => (e.range, isLiteral e)))
  | .paren _ a | .star _ a | .unary _ _ a | .selector _ a _ | .chan _ _ _ a => v.expr a
  | .index _ a _ is _ =>
    v.expr a
    is.forM v.expr
  | .slice _ a _ bounds _ =>
    v.expr a
    bounds.forM fun b => b.forM v.expr
  | .assertion _ a _ type _ =>
    v.expr a
    type.forM v.expr
  | .call _ fn _ args _ _ =>
    v.expr fn
    args.forM v.expr
  | .binary _ a _ _ b | .pair _ a _ b | .map _ a b =>
    v.expr a
    v.expr b
  | .variadic _ a => a.forM v.expr
  | .array _ n a =>
    n.forM v.expr
    v.expr a
  | .struct _ fs | .interface _ fs => fieldList v fs
  | .func _ sig => signature v sig

def genDecl (v : Surveys) (d : GenDecl) : Survey Unit :=
  d.specs.forM fun
    | .importSpec _ _ _ _ _ => pure ()
    | .value _ _ _ type values _ => do
      type.forM v.expr
      values.forM v.expr
    | .type _ _ _ typeParams _ type _ => do
      typeParams.forM (fieldList v)
      v.expr type

def stmt (v : Surveys) (s : Stmt) : Survey Unit := do
  match s with
  | .decl d => genDecl v d
  | .empty _ _ | .branch _ _ _ => pure ()
  | .labeled _ _ _ inner => v.stmt inner
  | .expr x | .incDec _ x _ _ | .go _ x | .defer _ x => v.expr x
  | .send _ a _ b =>
    v.expr a
    v.expr b
  | .assign _ left signAt _ right =>
    right.head?.forM fun x => note (.assigned signAt x.start)
    left.forM v.expr
    right.forM v.expr
  | .ret _ xs => xs.forM v.expr
  | .block b => body v b false none
  | .cond _ init test b other =>
    init.forM v.stmt
    v.expr test
    body v b false (some test.range)
    other.forM v.stmt
  | .caseClause r values colon stmts =>
    errorTests stmts
    note (.clause r.start colon)
    values.forM fun xs => xs.forM v.expr
    stmts.forM v.stmt
  | .switch _ init tag b =>
    init.forM v.stmt
    tag.forM v.expr
    body v b false none
  | .typeSwitch _ init guard b =>
    init.forM v.stmt
    v.stmt guard
    body v b false none
  | .commClause _ comm _ stmts =>
    errorTests stmts
    comm.forM v.stmt
    stmts.forM v.stmt
  | .select _ b => body v b false none
  | .loop _ init test post b =>
    init.forM v.stmt
    test.forM v.expr
    post.forM v.stmt
    body v b false (test.map (·.range))
  | .rangeLoop _ key value _ _ ranged b =>
    key.forM v.expr
    value.forM v.expr
    v.expr ranged
    body v b false none

/-- The surveys tied together; what is nested deeper than the fuel is left out. -/
def surveys : Nat → Surveys
  | 0 => ⟨fun _ => pure (), fun _ => pure ()⟩
  | fuel + 1 =>
    let v := surveys fuel
    ⟨expr v, stmt v⟩

def decl (v : Surveys) : Decl → Survey Unit
  | .gen d => genDecl v d
  | .func d => do
    d.receiver.forM (fieldList v)
    signature v d.signature
    d.body.forM fun b => body v b true none

/-- The sites of a file, in the order in which the rules look at them. -/
def sites (f : File) : List Site :=
  let v := surveys (2 * f.tokens + 8)
  ((f.decls.forM (decl v)).run []).2.reverse

/-! ## Rules -/

def joinLines (t : LineTable) (first last : Nat) : LineTable :=
  (List.range (last - first)).foldl (fun t _ => t.merge first) t

/-- Removes the blank lines between two offsets. -/
def closeGap (t : LineTable) (start stop : Nat) : LineTable :=
  joinLines t (t.line start + 1) (t.line stop)

def commentsBetween (f : File) (start stop : Nat) : List CommentGroup :=
  f.comments.filter fun g => start ≤ CommentGroup.start g && CommentGroup.start g < stop

def widen (inner : Option Range) (comments : List CommentGroup) : Option Range :=
  let outer := hull (comments.map fun g => ⟨CommentGroup.start g, CommentGroup.stop g⟩)
  match inner, outer with
  | none, o => o
  | i, none => i
  | some a, some b => some ⟨min a.start b.start, max a.stop b.stop⟩

/-- Takes the blank lines off the edges of what stands between two brackets. -/
def trimInside (t : LineTable) (opening closing : Nat) (inner : Option Range) (atFront : Bool) :
    LineTable :=
  match inner with
  | none => t
  | some r =>
    let t := closeGap t r.stop closing
    if atFront then closeGap t opening r.start else t

/-- The longest case clause that is put on one line. -/
def shortClause : Nat := 60

/-- Whether an element starts on a later line than the one before it ends; `prev` is where that one
ends. -/
def brokenBetween (t : LineTable) (f : File) : Nat → List (Range × Bool) → Bool
  | _, [] => false
  | prev, (r, _) :: rest =>
    let start := match commentsBetween f prev r.start with
      | g :: _ => CommentGroup.start g
      | [] => r.start
    t.line prev < t.line start || brokenBetween t f r.stop rest

def breakLiterals (t : LineTable) : List (Range × Bool) → LineTable
  | (a, la) :: (b, lb) :: rest =>
    let t := if (la || lb) && t.line a.stop == t.line b.start then t.breakAt a.stop else t
    breakLiterals t ((b, lb) :: rest)
  | _ => t

/-- Breaks the lines of a composite literal consistently: if one element is on a line of its own,
the braces are on other lines than the elements. -/
def settleLiteral (t : LineTable) (f : File) (lbrace rbrace : Nat)
    (elements : List (Range × Bool)) : LineTable :=
  match elements, elements.getLast? with
  | (first, _) :: rest, some (last, _) =>
    let openLine := t.line lbrace
    if openLine == t.line rbrace then t
    else
      let front := match commentsBetween f lbrace first.start with
        | g :: _ => CommentGroup.start g
        | [] => first.start
      let frontBroken := openLine < t.line front
      let between := brokenBetween t f first.stop rest
      let backBroken := t.line last.stop < t.line rbrace
      let t := if frontBroken then joinLines t (openLine + 1) (t.line front) else t
      let around := frontBroken || backBroken
      let t := if (between || around) && openLine == t.line first.start then
          t.breakAt (lbrace + 1)
        else t
      let t := if (between || around) && t.line rbrace == t.line last.stop then
          t.breakAt rbrace
        else t
      if between then breakLiterals t elements else t
  | _, _ => t

def settle (f : File) (t : LineTable) : Site → LineTable
  | .body lbrace rbrace inner count isFunction test =>
    let comments := commentsBetween f lbrace rbrace
    if count == 0 && comments.isEmpty then closeGap t lbrace rbrace
    else if 1 < count && !isFunction then t
    else
      let longTest := (test.map fun r => t.line r.start != t.line r.stop).getD false
      trimInside t lbrace rbrace (widen inner comments) (!longTest)
  | .errorTest assigned test => closeGap t assigned test
  | .fields opening closing inner =>
    let comments := commentsBetween f opening closing
    match inner, comments with
    | none, [] => joinLines t (t.line opening) (t.line (closing + 1))
    | _, _ =>
      match widen inner comments with
      | none => t
      | some r => closeGap (closeGap t opening r.start) r.stop (closing + 1)
  | .assigned sign value => joinLines t (t.line sign) (t.line value)
  | .clause start colon =>
    if t.line start == t.line colon || !(commentsBetween f start colon).isEmpty ||
        shortClause < colon - start then t
    else joinLines t (t.line start) (t.line colon)
  | .literal lbrace rbrace elements => settleLiteral t f lbrace rbrace elements

/-! ## Declarations -/

/-- Whether a comment, without its marks, is a directive to a tool. -/
def isDirective (text : Bytes) : Bool :=
  let isLower (b : UInt8) : Bool := Bytes.byte 'a' ≤ b && b ≤ Bytes.byte 'z'
  let tool := text.takeWhile fun b => isLower b || b == Bytes.byte '-'
  let rest := text.drop tool.length
  let named := !tool.isEmpty && rest.head? == some (Bytes.byte ':') &&
    ((rest[1]?).map isLower).getD false
  let isWordByte (b : UInt8) : Bool :=
    isLower b || (Bytes.byte 'A' ≤ b && b ≤ Bytes.byte 'Z') ||
      (Bytes.byte '0' ≤ b && b ≤ Bytes.byte '9') || b == Bytes.byte '_'
  let first := text.takeWhile isWordByte
  named || ["line", "export", "extern", "sys", "sysnb", "nolint"].any fun w => first == w

def hasDirective (g : CommentGroup) : Bool :=
  g.any fun c => c.isLine && isDirective (c.text.drop 2)

/-- Puts a declaration of a single entry that stands right below another of its kind into one group
with it. `lastLine` is the line of the last declaration that was taken in. -/
def takeLone (t : LineTable) : Nat → GenDecl → List Decl → GenDecl × List Decl
  | lastLine, start, .gen next :: rest =>
    if next.word = start.word && next.parens.isNone &&
        t.line next.range.start ≤ lastLine + 1 && !hasDirective next.doc then
      let lparen := (start.parens.map (·.1)).getD start.range.start
      let joined : GenDecl := .mk ⟨start.range.start, next.range.stop + 1⟩ start.doc start.word
        (some (lparen, next.range.stop)) (start.specs ++ next.specs)
      takeLone t (t.line next.range.start) joined rest
    else (start, .gen next :: rest)
  | _, start, rest => (start, rest)

/-- Puts neighbouring declarations of single entries into groups. -/
def joinDecls (t : LineTable) : Nat → List Decl → List Decl
  | 0, ds => ds
  | _, [] => []
  | fuel + 1, .gen d :: rest =>
    if hasDirective d.doc then .gen d :: joinDecls t fuel rest
    else
      let (joined, rest) := takeLone t (t.line d.range.start) d rest
      .gen joined :: joinDecls t fuel rest
  | fuel + 1, d :: rest => d :: joinDecls t fuel rest

/-- Puts a blank line between long declarations. `prev` tells where the last one ended and whether
it was long. -/
def spaceDecls (f : File) : LineTable → Option (Nat × Bool) → List Decl → LineTable
  | t, _, [] => t
  | t, prev, d :: ds =>
    let start := match commentsBetween f ((prev.map (·.1)).getD 0) d.range.start with
      | g :: _ => CommentGroup.start g
      | [] => d.range.start
    let isLong := t.line start < t.line d.range.stop
    let t := match prev with
      | some (stop, true) => if isLong && t.line stop + 1 == t.line start then t.breakAt stop else t
      | _ => t
    spaceDecls f t (some (d.range.stop, isLong)) ds

/-- Takes the parentheses off a single variable. -/
def ungroup (f : File) (t : LineTable) : Decl → Decl × LineTable
  | .gen (.mk r doc .varWord (some (lparen, rparen)) [s]) =>
    if doc.isEmpty && (commentsBetween f r.start s.range.start).isEmpty then
      let t := joinLines t (t.line r.start) (t.line s.range.start)
      let t := joinLines t (t.line s.range.stop) (t.line rparen)
      (.gen (.mk ⟨r.start, s.range.stop⟩ doc .varWord none [s]), t)
    else (.gen (.mk r doc .varWord (some (lparen, rparen)) [s]), t)
  | d => (d, t)

/-- Takes the parentheses off single variables. -/
def ungroupAll (f : File) : LineTable → List Decl → List Decl × LineTable
  | t, [] => ([], t)
  | t, d :: ds =>
    let (d, t) := ungroup f t d
    let (ds, t) := ungroupAll f t ds
    (d :: ds, t)

/-! ## Comments -/

/-- Whether a comment may get a blank after its marks: it is no directive and does not look like
code. -/
def isProse (c : Comment) : Bool :=
  let text : Bytes := c.text.drop 2
  let isPlain (ch : Char) : Bool := isLetter ch || isDigit ch || isSpace ch
  let startsPlain := ((Bytes.chars text).head?.map isPlain).getD false
  c.isLine && !isDirective text && startsPlain

/-- Puts a blank after the marks of every comment of a group of running text. -/
def spaceComments (g : CommentGroup) : CommentGroup :=
  if g.all isProse then
    g.map fun c =>
      let text := c.text.drop 2
      if ((Bytes.chars text).head?.map isSpace).getD true then c
      else { c with text := "// " ++ text }
  else g

def file (f : File) (t : LineTable) : File × LineTable :=
  let ds := joinDecls t f.decls.length f.decls
  let t := spaceDecls f t none ds
  let (ds, t) := ungroupAll f t ds
  let tidy : File := { f with decls := ds, comments := f.comments.map spaceComments }
  (tidy, (sites tidy).foldl (settle f) t)

end Tidy

end AccessLayer.Go
