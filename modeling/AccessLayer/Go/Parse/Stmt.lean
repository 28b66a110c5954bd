import AccessLayer.Go.Parse.Expr

/-!
# Reading declarations and statements

* `Parse.genDecl`: import, constant, variable and type declarations.
* `Parse.stmt`: statements.
-/

namespace AccessLayer.Go

namespace Parse

open Reader

/-! ## Declarations -/

def importSpec (doc : CommentGroup) : Reader Spec := do
  let start ← position
  let name ←
    if ← atIdent then some <$> ident
    else if ← atOp "." then
      let t ← advance
      pure (some ⟨t.text, t.start⟩)
    else pure none
  guard ((← kind) == .string)
  let path ← literal
  let range ← rangeFrom start
  return .importSpec range doc name path (← endOfStatement)

def valueSpec (g : Grammar) (word : DeclWord) (doc : CommentGroup) : Reader Spec := do
  let start ← position
  let names ← commaList1 ident
  let type ←
    if ← atOp "=" then pure none
    else if word = .constWord then
      if (← atSemicolon) || (← atOp ")") then pure none else g.type?
    else some <$> g.type
  let values ← if ← acceptOp "=" then commaList1 g.expr else pure []
  let range ← rangeFrom start
  return .value range doc names type values (← endOfStatement)

/-- Whether an expression can only be a type constraint. -/
def isConstraint : Expr → Bool
  | .array _ _ _ | .struct _ _ | .func _ _ | .interface _ _ | .map _ _ _ | .chan _ _ _ _ => true
  | .binary _ x _ _ y => isConstraint x || isConstraint y
  | .unary _ sign _ => sign == "~"
  | .paren _ x => isConstraint x
  | _ => false

/-- Splits an expression into the name of a type parameter and its constraint, if it can be read
that way. -/
def extractName (force : Bool) : Expr → Option (Ident × Option Expr)
  | .ident i => some (i, none)
  | .binary r x signAt sign y =>
    if sign == "*" then
      match x with
      | .ident i =>
        if force || isConstraint y then some (i, some (.star ⟨signAt, y.stop⟩ y)) else none
      | _ => none
    else if sign == "|" then
      match extractName (force || isConstraint y) x with
      | some (i, some left) => some (i, some (.binary ⟨left.start, r.stop⟩ left signAt sign y))
      | _ => none
    else none
  | .call _ (.ident i) lparen [arg] none rparen =>
    if force || isConstraint arg then some (i, some (.paren ⟨lparen, rparen + 1⟩ arg)) else none
  | _ => none

/-- The rest of a type declaration, after its type parameters if it has any. -/
def typeSpecRest (g : Grammar) : Reader (Bool × Expr) := do
  let isAlias ← acceptOp "="
  return (isAlias, ← g.type)

/-- A type whose name an opening bracket follows: an array type or type parameters. -/
def bracketedTypeSpec (g : Grammar) : Reader (Option FieldList × Bool × Expr) := do
  let lbrack ← expectOp "["
  if ← atIdent then
    let name ← ident
    let x ←
      if ← atOp "[" then pure (Expr.ident name)
      else nested do g.binaryFrom (← g.primary (.ident name)) 1
    let atClose ← atOp "]"
    match extractName (← atOp ",") x with
    | some (name, type) =>
      if type.isSome || !atClose then
        let fields ← paramList g (some ⟨some name, type⟩) "]" false
        let rbrack ← expectOp "]"
        let (isAlias, t) ← typeSpecRest g
        return (some (.mk lbrack fields rbrack), isAlias, t)
      else return (none, false, ← arrayType g lbrack (some x))
    | none => return (none, false, ← arrayType g lbrack (some x))
  return (none, false, ← arrayType g lbrack none)

def typeSpec (g : Grammar) (doc : CommentGroup) : Reader Spec := do
  let name ← ident
  let (typeParams, isAlias, t) ←
    if ← atOp "[" then bracketedTypeSpec g
    else
      let (isAlias, t) ← typeSpecRest g
      pure (none, isAlias, t)
  let range ← rangeFrom name.start
  return .type range doc name typeParams isAlias t (← endOfStatement)

def spec (g : Grammar) (word : DeclWord) (doc : CommentGroup) : Reader Spec :=
  match word with
  | .importWord => importSpec doc
  | .typeWord => typeSpec g doc
  | w => valueSpec g w doc

/-- A declaration of one entry, or of entries in parentheses. -/
def genDecl (g : Grammar) (word : DeclWord) : Reader GenDecl := do
  let doc := (← step).lead
  let start ← expectWord word.text
  if ← atOp "(" then
    let lparen ← expectOp "("
    let specs ← manyWhile (return !(← atOp ")") && (← kind) != .eof) do
      spec g word (← step).lead
    let rparen ← expectOp ")"
    let _ ← endOfStatement
    return .mk ⟨start, rparen + 1⟩ doc word (some (lparen, rparen)) specs
  let s ← spec g word []
  return .mk ⟨start, s.range.stop⟩ doc word none [s]

def declWord? : TokenKind → Option DeclWord
  | .keyword "import" => some .importWord
  | .keyword "const" => some .constWord
  | .keyword "var" => some .varWord
  | .keyword "type" => some .typeWord
  | _ => none

/-! ## Simple statements -/

def assignSigns : List String :=
  [":=", "=", "+=", "-=", "*=", "/=", "%=", "&=", "|=", "^=", "<<=", ">>=", "&^="]

/-- A simple statement as read: a statement, or the head of a loop ranged a range. -/
inductive Simple where
  | stmt (s : Stmt)
  | range (left : List Expr) (signAt : Nat) (sign : String) (ranged : Expr)

/-- A simple statement. Labels and ranges are read where they may stand. -/
def simple (g : Grammar) (labelOk rangeOk : Bool) : Reader Simple := do
  let start ← position
  let left ← commaList1 g.expr
  match ← kind with
  | .op sign =>
    if assignSigns.contains sign then
      let signAt ← expectOp sign
      if rangeOk && (← atWord "range") && (sign == ":=" || sign == "=") then
        let _ ← advance
        return .range left signAt sign (← g.expr)
      let right ← commaList1 g.expr
      return .stmt (.assign (← rangeFrom start) left signAt sign right)
    match left with
    | [x] =>
      if sign == ":" then
        match x with
        | .ident label =>
          guard labelOk
          let colon ← expectOp ":"
          let inner ← g.stmt
          return .stmt (.labeled ⟨start, max (colon + 1) inner.stop⟩ label colon inner)
        | _ => failure
      else if sign == "<-" then
        let arrow ← expectOp "<-"
        let value ← g.expr
        return .stmt (.send ⟨start, value.stop⟩ x arrow value)
      else if sign == "++" || sign == "--" then
        let signAt ← expectOp sign
        return .stmt (.incDec ⟨start, signAt + 2⟩ x signAt sign)
      else return .stmt (.expr x)
    | _ => failure
  | _ =>
    match left with
    | [x] => return .stmt (.expr x)
    | _ => failure

def plainSimple (g : Grammar) : Reader Stmt := do
  match ← simple g false false with
  | .stmt s => return s
  | .range _ _ _ _ => failure

def conditionOf : Stmt → Option Expr
  | .expr x => some x
  | _ => none

def require {α : Type} : Option α → Reader α
  | some a => pure a
  | none => failure

/-! ## Control statements -/

def stmtList (g : Grammar) : Reader (List Stmt) :=
  manyWhile (do
    return !(← atWord "case") && !(← atWord "default") && !(← atOp "\x7d") && (← kind) != .eof)
    g.stmt

def block (g : Grammar) : Reader Block := do
  let lbrace ← expectOp "\x7b"
  let stmts ← stmtList g
  let rbrace ← expectOp "\x7d"
  return .mk lbrace stmts rbrace

def condHead (g : Grammar) : Reader (Option Stmt × Expr) := inHead do
  let init ← if ← atSemicolon then pure none else some <$> plainSimple g
  if ← atOp "\x7b" then
    return (none, ← require (init.bind conditionOf))
  guard (← atSemicolon)
  let _ ← advance
  return (init, ← require (conditionOf (← plainSimple g)))

/-- A conditional statement; `g.stmt` reads a chained one. -/
def condStmt (g : Grammar) : Reader Stmt := do
  let start ← expectWord "if"
  guard (!(← atOp "\x7b"))
  let (init, test) ← condHead g
  let body ← g.block
  if ← atWord "else" then
    let _ ← advance
    if ← atWord "if" then
      let other ← g.stmt
      return .cond ⟨start, other.stop⟩ init test body (some other)
    let other ← g.block
    let _ ← endOfStatement
    return .cond ⟨start, other.rbrace + 1⟩ init test body (some (.block other))
  let _ ← endOfStatement
  return .cond ⟨start, body.rbrace + 1⟩ init test body none

/-- Where a clause stops: after its last statement, or after its colon. -/
def clauseStop (colon : Nat) (body : List Stmt) : Nat :=
  (body.getLast?.map (·.stop)).getD (colon + 1)

def caseClause (g : Grammar) : Reader Stmt := do
  let start ← position
  let values ←
    if ← atWord "case" then
      let _ ← advance
      some <$> commaList1 g.expr
    else
      let _ ← expectWord "default"
      pure none
  let colon ← expectOp ":"
  let body ← stmtList g
  return .caseClause ⟨start, clauseStop colon body⟩ values colon body

def clauses (clause : Reader Stmt) : Reader Block := do
  let lbrace ← expectOp "\x7b"
  let list ← manyWhile (return (← atWord "case") || (← atWord "default")) clause
  let rbrace ← expectOp "\x7d"
  let _ ← endOfStatement
  return .mk lbrace list rbrace

def isTypeGuard : Stmt → Bool
  | .expr (.assertion _ _ _ none _) => true
  | .assign _ [_] _ sign [.assertion _ _ _ none _] => sign == ":="
  | _ => false

def switchStmt (g : Grammar) : Reader Stmt := do
  let start ← expectWord "switch"
  let (init, tag) ←
    if ← atOp "\x7b" then pure (none, none)
    else inHead do
      let first ← if ← atSemicolon then pure none else some <$> plainSimple g
      if ← atSemicolon then
        let _ ← advance
        let second ← if ← atOp "\x7b" then pure none else some <$> plainSimple g
        return (first, second)
      return (none, first)
  let body ← clauses (caseClause g)
  let range : Range := ⟨start, body.rbrace + 1⟩
  match tag with
  | none => return .switch range init none body
  | some s =>
    if isTypeGuard s then return .typeSwitch range init s body
    return .switch range init (some (← require (conditionOf s))) body

def commClause (g : Grammar) : Reader Stmt := do
  let start ← position
  let comm ←
    if ← atWord "case" then
      let _ ← advance
      match ← plainSimple g with
      | .assign r left signAt sign right =>
        guard ((sign == "=" || sign == ":=") && left.length ≤ 2 && right.length == 1)
        pure (some (Stmt.assign r left signAt sign right))
      | .incDec _ _ _ _ => failure
      | s => pure (some s)
    else
      let _ ← expectWord "default"
      pure none
  let colon ← expectOp ":"
  let body ← stmtList g
  return .commClause ⟨start, clauseStop colon body⟩ comm colon body

def selectStmt (g : Grammar) : Reader Stmt := do
  let start ← expectWord "select"
  let body ← clauses (commClause g)
  return .select ⟨start, body.rbrace + 1⟩ body

/-- The head of a loop: ranged a range, or with its three parts. -/
inductive LoopHead where
  | range (left : List Expr) (signAt : Nat) (sign : String) (ranged : Expr)
  | parts (init : Option Stmt) (test : Option Stmt) (post : Option Stmt)

def loopHead (g : Grammar) : Reader LoopHead := do
  if ← atOp "\x7b" then return .parts none none none
  inHead do
    if ← atWord "range" then
      let signAt ← position
      let _ ← advance
      return .range [] signAt "" (← g.expr)
    let first ← if ← atSemicolon then pure none else some <$> simple g false true
    match first with
    | some (.range left signAt sign ranged) => return .range left signAt sign ranged
    | _ =>
      let first := first.bind fun
        | .stmt s => some s
        | .range _ _ _ _ => none
      if !(← atSemicolon) then return .parts none first none
      let _ ← advance
      let test ← if ← atSemicolon then pure none else some <$> plainSimple g
      let _ ← endOfStatement
      let post ← if ← atOp "\x7b" then pure none else some <$> plainSimple g
      return .parts first test post

def loopStmt (g : Grammar) : Reader Stmt := do
  let start ← expectWord "for"
  let head ← loopHead g
  let body ← g.block
  let _ ← endOfStatement
  let range : Range := ⟨start, body.rbrace + 1⟩
  match head with
  | .range left signAt sign ranged =>
    guard (left.length ≤ 2)
    return .rangeLoop range left.head? left[1]? signAt sign ranged body
  | .parts init test post =>
    let test ← match test with
      | none => pure none
      | some s => some <$> require (conditionOf s)
    return .loop range init test post body

/-! ## All statements -/

/-- The call of a `go` or `defer` statement, which may not be in parentheses. -/
def startedCall (g : Grammar) : Reader Expr := do
  match ← g.expr with
  | .call r fn lparen args dots rparen => return .call r fn lparen args dots rparen
  | _ => failure

/-- A statement that leaves a block: its word and the label it names. -/
def branchStmt (word : String) : Reader Stmt := do
  let start ← expectWord word
  let label ← if word != "fallthrough" && (← atIdent) then some <$> ident else pure none
  let range ← rangeFrom start
  let _ ← endOfStatement
  return .branch range word label

def startsSimple : TokenKind → Bool
  | .ident | .number _ | .char | .string => true
  | .keyword w => ["func", "struct", "map", "chan", "interface"].contains w
  | .op s => ["(", "[", "+", "-", "*", "&", "^", "<-", "!"].contains s
  | _ => false

/-- A statement that starts with one of the words for control flow. -/
def wordStmt (g : Grammar) (word : String) : Reader Stmt := do
  let start ← position
  match word with
  | "go" =>
    let _ ← advance
    let call ← startedCall g
    let _ ← endOfStatement
    return .go ⟨start, call.stop⟩ call
  | "defer" =>
    let _ ← advance
    let call ← startedCall g
    let _ ← endOfStatement
    return .defer ⟨start, call.stop⟩ call
  | "return" =>
    let _ ← advance
    let bare := (← atSemicolon) || (← atOp "\x7d")
    let results ← if bare then pure [] else commaList1 g.expr
    let range ← rangeFrom start
    let _ ← endOfStatement
    return .ret range results
  | "if" => condStmt g
  | "switch" => switchStmt g
  | "select" => selectStmt g
  | "for" => loopStmt g
  | w =>
    guard (["break", "continue", "goto", "fallthrough"].contains w)
    branchStmt w

def stmt (g : Grammar) : Reader Stmt := do
  let k ← kind
  if let some word := declWord? k then
    guard (word ≠ .importWord)
    return .decl (← genDecl g word)
  if startsSimple k then
    match ← simple g true false with
    | .stmt (.labeled r label colon inner) => return .labeled r label colon inner
    | .stmt s =>
      let _ ← endOfStatement
      return s
    | .range _ _ _ _ => failure
  match k with
  | .op "\x7b" =>
    let b ← g.block
    let _ ← endOfStatement
    return .block b
  | .op "\x7d" => return .empty (← position) true
  | .semicolon written =>
    let t ← advance
    return .empty t.start (!written)
  | .keyword word => wordStmt g word
  | _ => failure

end Parse

end AccessLayer.Go
