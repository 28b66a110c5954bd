import AccessLayer.Go.Print.Expr

/-!
# Printing statements and declarations

Statements stand on lines of their own, with at most one blank line between them. Entries of a
grouped declaration are aligned in columns.

* `Print.stmtList`, `Print.block`, `Print.stmt`: statements.
* `Print.genDecl`: declarations.
-/

namespace AccessLayer.Go

namespace Print

open Printer

/-! ## Declarations -/

/-- Which entries keep a column for the type: those of a run of entries with values in which some
entry shows a type. -/
def keepTypeColumn (specs : List Spec) : List Bool :=
  let shape : Spec → Bool × Bool
    | .value _ _ _ type values _ => (!values.isEmpty, type.isSome)
    | _ => (false, false)
  let shapes := specs.map shape
  let runOf (i : Nat) : List (Bool × Bool) :=
    ((shapes.take i).reverse.takeWhile (·.1)).reverse ++ (shapes.drop i).takeWhile (·.1)
  shapes.zipIdx.map fun ((hasValues, _), i) => hasValues && (runOf i).any (·.2)

/-- Prints an entry of a group of constants or variables in columns. -/
def valueColumns (l : Layout) (s : Spec) (keepType : Bool) : Printer Unit := do
  match s with
  | .value _ _ names type values commented =>
    identList l names false
    if type.isSome || keepType then gap .cell
    if let some t := type then l.expr t
    if !values.isEmpty then
      gap .cell
      sign "="
      gap .blank
      exprList l none values 1 ⟨true, false⟩ none
    if commented then
      let used := (if type.isSome || keepType then 1 else 0) + (if values.isEmpty then 0 else 1)
      (List.replicate (3 - used) Gap.cell).forM gap
  | _ => pure ()

/-- Prints an entry of a declaration of `n` entries. -/
def spec (l : Layout) (s : Spec) (n : Nat) (indented : Bool) : Printer Unit := do
  match s with
  | .importSpec _ _ name path _ =>
    if let some i := name then
      l.expr (.ident i)
      gap .blank
    l.expr (.literal path)
  | .value _ _ names type values _ =>
    identList l names indented
    if let some t := type then
      gap .blank
      l.expr t
    if !values.isEmpty then
      gap .blank
      sign "="
      gap .blank
      exprList l none values 1 ⟨true, false⟩ none
  | .type _ _ name typeParams isAlias type _ =>
    l.expr (.ident name)
    if let some tps := typeParams then parameters l tps .typeName
    gap (if n == 1 then .blank else .cell)
    if isAlias then
      sign "="
      gap .blank
    l.expr type

def specLines (item : Spec → Bool → Printer Unit) : Option Nat → List (Spec × Bool) → Printer Unit
  | _, [] => pure ()
  | prev, (s, keep) :: rest => do
    if let some line := prev then
      let newSection := 0 < (← linesFrom line)
      let _ ← linebreak (← lineOf s.range.start) 1 .ignore newSection
    let line ← marking (item s keep)
    specLines item (some line) rest

def genDecl (l : Layout) (d : GenDecl) : Printer Unit := do
  setPos d.range.start
  word d.word.text
  gap .blank
  match d.parens, d.specs with
  | none, [s] => spec l s 1 true
  | parens, specs =>
    if let some (lparen, _) := parens then setPos lparen
    sign "("
    if !specs.isEmpty then
      gap .indent
      gap .formfeed
      let n := specs.length
      if 1 < n && (d.word == .constWord || d.word == .varWord) then
        specLines (valueColumns l) none (specs.zip (keepTypeColumn specs))
      else specLines (fun s _ => spec l s n false) none (specs.map fun s => (s, false))
      gap .unindent
      gap .formfeed
    if let some (_, rparen) := parens then setPos rparen
    sign ")"

/-! ## Statements -/

/-- Whether an expression is a name, qualified or not. -/
def isTypeName : Expr → Bool
  | .ident _ => true
  | .selector _ base _ => isTypeName base
  | _ => false

/-- Whether an expression holds a composite literal that starts with a type name and stands in no
parentheses. The fuel bounds the depth of the search. -/
def holdsLiteral : Nat → Expr → Bool
  | 0, _ => true
  | fuel + 1, x =>
    match x with
    | .composite _ type _ _ _ => (type.map isTypeName).getD false
    | .selector _ b _ | .star _ b | .unary _ _ b | .assertion _ b _ _ _ => holdsLiteral fuel b
    | .index _ b _ is _ => holdsLiteral fuel b || is.any (holdsLiteral fuel)
    | .slice _ b _ bs _ => holdsLiteral fuel b || (bs.filterMap id).any (holdsLiteral fuel)
    | .call _ f _ args _ _ => holdsLiteral fuel f || args.any (holdsLiteral fuel)
    | .binary _ a _ _ b | .pair _ a _ b => holdsLiteral fuel a || holdsLiteral fuel b
    | _ => false

/-- The expression of a statement head without parentheses that do nothing. -/
def stripParens : Expr → Expr
  | .paren r inner => if holdsLiteral (r.stop - r.start + 1) inner then .paren r inner
    else stripParens inner
  | x => x

/-- Prints the parts of a statement head before its body. -/
def head (l : Layout) (isLoop : Bool) (init : Option Stmt) (test : Option Expr)
    (post : Option Stmt) : Printer Unit := do
  gap .blank
  let semicolon : Printer Unit := do
    item (.semicolon true) ";" false
    gap .blank
  if init.isNone && post.isNone then
    if let some x := test then
      l.expr (stripParens x)
      gap .blank
  else
    if let some s := init then l.stmt s false
    semicolon
    if let some x := test then
      l.expr (stripParens x)
      if !isLoop then gap .blank
    if isLoop then
      semicolon
      if let some s := post then
        l.stmt s false
        gap .blank

/-- How many labels stand before a statement. -/
def labelCount : Stmt → Nat
  | .labeled _ _ _ inner => labelCount inner + 1
  | _ => 0

/-- Prints statements on lines of their own. `fresh` says that every statement starts a new
section. -/
def stmtLines (l : Layout) (fresh nextIsBrace : Bool) :
    Option Nat → List Stmt → Printer Unit
  | _, [] => pure ()
  | prev, s :: ss => do
    let newSection ← match prev with
      | none => pure true
      | some line => do
        let n ← linesFrom line
        pure (fresh || 0 < n)
    if !(← get).pieces.isEmpty then
      let _ ← linebreak (← lineOf s.start) 1 .ignore newSection
    let line ← marking (l.stmt s (nextIsBrace && ss.isEmpty))
    stmtLines l fresh nextIsBrace (some (line + labelCount s)) ss

def stmtList (l : Layout) (stmts : List Stmt) (indented nextIsBrace : Bool) : Printer Unit := do
  if indented then gap .indent
  stmtLines l (!indented) nextIsBrace none (stmts.filter fun s => !s.isEmpty)
  if indented then gap .unindent

def block (l : Layout) (b : Block) (indented : Bool) : Printer Unit := do
  setPos b.lbrace
  sign "\x7b"
  stmtList l b.stmts indented true
  let _ ← linebreak (← lineOf b.rbrace) 1 .ignore true
  setPos b.rbrace
  sign "\x7d"

/-- Whether a list looks better if all of it is indented: an element starts on a new line, or
several elements take more than one line. -/
def indentsWholly (s : Sheet) (xs : List Expr) : Bool :=
  match xs, xs.getLast? with
  | first :: _ :: _, some final =>
    let bounds := xs.map fun x => (s.line x.start, s.line x.stop)
    let gaps := (s.line first.start :: bounds.map (·.2)).zip (bounds.map (·.1))
    s.line first.start < s.line final.stop &&
      (gaps.any (fun (a, b) => a < b) || 1 < (bounds.filter fun (a, b) => a < b).length)
  | _, _ => false

def labeled (l : Layout) (label : Ident) (colon : Nat) (inner : Stmt) (nextIsBrace : Bool) :
    Printer Unit := do
  gap .unindent
  l.expr (.ident label)
  setPos colon
  sign ":"
  gap .indent
  match inner with
  | .empty at_ _ =>
    if nextIsBrace then pure ()
    else
      gap .newline
      setPos at_
      item (.semicolon true) ";" false
  | _ =>
    let _ ← linebreak (← lineOf inner.start) 1 .ignore true
    l.stmt inner nextIsBrace

/-- Prints a clause of a switch or select statement after its head. -/
def clauseBody (l : Layout) (colon : Nat) (body : List Stmt) (nextIsBrace : Bool) :
    Printer Unit := do
  setPos colon
  sign ":"
  stmtList l body true nextIsBrace

/-- Prints a declaration in a function. On a tidy sheet a variable that only has a value is declared
in the short form, and a value without a name is assigned to nothing. -/
def declStmt (l : Layout) (d : GenDecl) : Printer Unit := do
  match d.word, d.specs with
  | .varWord, [.value r _ names none values _] =>
    if (← get).isTidy then
      let depth := if 1 < names.length && 1 < values.length then 2 else 1
      exprList l (some r.start) (names.map .ident) depth ⟨true, false⟩ none
      gap .blank
      sign (if names.all fun i => i.name == "_" then "=" else ":=")
      gap .blank
      exprList l none values depth ⟨true, false⟩ none
    else genDecl l d
  | _, _ => genDecl l d

/-- Prints a statement; whether a closing brace follows. -/
def stmt (l : Layout) (st : Stmt) (nextIsBrace : Bool) : Printer Unit := do
  setPos st.start
  match st with
  | .decl d => declStmt l d
  | .empty _ _ => pure ()
  | .labeled _ label colon inner => labeled l label colon inner nextIsBrace
  | .expr x => l.expr0 x 1
  | .send _ channel arrow value =>
    l.expr0 channel 1
    gap .blank
    setPos arrow
    sign "<-"
    gap .blank
    l.expr0 value 1
  | .incDec _ value signAt s =>
    l.expr0 value 2
    setPos signAt
    sign s
  | .assign r left signAt s right =>
    let depth := if 1 < left.length && 1 < right.length then 2 else 1
    exprList l (some r.start) left depth ⟨true, false⟩ (some signAt)
    gap .blank
    setPos signAt
    sign s
    gap .blank
    exprList l (some signAt) right depth ⟨true, false⟩ none
  | .go _ c =>
    word "go"
    gap .blank
    l.expr c
  | .defer _ c =>
    word "defer"
    gap .blank
    l.expr c
  | .ret _ results =>
    word "return"
    if !results.isEmpty then
      gap .blank
      if indentsWholly (← get) results then
        gap .indent
        exprList l none results 1 ⟨false, false⟩ none
        gap .unindent
      else exprList l none results 1 ⟨true, false⟩ none
  | .branch _ w label =>
    word w
    if let some i := label then
      gap .blank
      l.expr (.ident i)
  | .block b => l.block b true
  | .cond _ init test body other =>
    word "if"
    head l false init (some test) none
    l.block body true
    if let some s := other then
      gap .blank
      word "else"
      gap .blank
      l.stmt s nextIsBrace
  | .caseClause r values colon body =>
    match values with
    | some xs =>
      word "case"
      gap .blank
      exprList l (some r.start) xs 1 ⟨true, false⟩ (some colon)
    | none => word "default"
    clauseBody l colon body nextIsBrace
  | .switch _ init tag body =>
    word "switch"
    head l false init tag none
    l.block body false
  | .typeSwitch _ init guard body =>
    word "switch"
    if let some s := init then
      gap .blank
      l.stmt s false
      item (.semicolon true) ";" false
    gap .blank
    l.stmt guard false
    gap .blank
    l.block body false
  | .commClause _ comm colon body =>
    match comm with
    | some s =>
      word "case"
      gap .blank
      l.stmt s false
    | none => word "default"
    clauseBody l colon body nextIsBrace
  | .select _ body =>
    word "select"
    gap .blank
    let s ← get
    if body.stmts.isEmpty && !s.commentBefore (s.place body.rbrace) then
      setPos body.lbrace
      sign "\x7b"
      setPos body.rbrace
      sign "\x7d"
    else l.block body false
  | .loop _ init test post body =>
    word "for"
    head l true init test post
    l.block body true
  | .rangeLoop _ key value signAt s ranged body =>
    word "for"
    gap .blank
    if let some k := key then
      l.expr k
      if let some v := value then
        setPos v.start
        sign ","
        gap .blank
        l.expr v
      gap .blank
      setPos signAt
      sign s
      gap .blank
    word "range"
    gap .blank
    l.expr (stripParens ranged)
    gap .blank
    l.block body true

end Print

end AccessLayer.Go
