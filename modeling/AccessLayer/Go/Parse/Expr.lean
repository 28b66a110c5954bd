import AccessLayer.Go.Parse.Type

/-!
# Reading expressions

Operands, what follows them, and operators by precedence. A brace after an operand opens a literal
value only where the operand can be a type and no statement head is open.

* `Parse.operand`, `Parse.primary`: operands and what follows them.
* `Parse.unary`, `Parse.binaryFrom`: operators.
* `Parse.elements`: the elements of a composite literal.
-/

namespace AccessLayer.Go

namespace Parse

open Reader

/-- A function type, or a function literal when a body follows. -/
def funcTypeOrLit (g : Grammar) : Reader Expr := do
  let (start, sig) ← funcType g
  if ← atOp "\x7b" then
    let body ← nested g.block
    return .funcLit ⟨start, body.rbrace + 1⟩ sig body
  return .func (← rangeFrom start) sig

def operand (g : Grammar) : Reader Expr := do
  match ← kind with
  | .ident => return .ident (← ident)
  | .number _ | .char | .string => return .literal (← literal)
  | .op "(" =>
    let lparen ← expectOp "("
    let inner ← nested g.expr
    let rparen ← expectOp ")"
    return .paren ⟨lparen, rparen + 1⟩ inner
  | .keyword "func" => funcTypeOrLit g
  | _ => g.type

/-! ## What follows an operand -/

/-- What stands between the brackets of an index, a slice or an instance. -/
def indexOrSlice (g : Grammar) (base : Expr) : Reader Expr := do
  let lbrack ← expectOp "["
  guard (!(← atOp "]"))
  let inner ← nested do
    let first ← if ← atOp ":" then pure none else some <$> g.expr
    if ← atOp ":" then
      let bounds ← iterate (fun (acc : List (Option Expr)) => do
        if acc.length < 3 && (← acceptOp ":") then
          let none_ := (← atOp ":") || (← atOp "]")
          let bound ← if none_ then pure none else some <$> g.expr
          return (bound :: acc, true)
        return (acc, false)) [first]
      return Sum.inl bounds.reverse
    let rest ← iterate (fun acc => do
      if ← acceptOp "," then
        if ← atOp "]" then return (acc, true)
        return ((← g.type) :: acc, true)
      return (acc, false)) []
    return Sum.inr (first.toList ++ rest.reverse)
  let rbrack ← expectOp "]"
  match inner with
  | .inl bounds =>
    guard (bounds.length < 3 || (bounds.drop 1).all Option.isSome)
    return .slice ⟨base.start, rbrack + 1⟩ base lbrack bounds rbrack
  | .inr indices => return indexed base lbrack indices rbrack

/-- The arguments of a call. Three points end them. -/
def callArgs (g : Grammar) (fn : Expr) : Reader Expr := do
  let lparen ← expectOp "("
  let (args, dots) ← nested do
    iterate (fun ((acc : List Expr), (dots : Option Nat)) => do
      if dots.isSome || (← atOp ")") then return ((acc, dots), false)
      let arg ← g.expr
      let dots ← if ← atOp "..." then some <$> expectOp "..." else pure none
      if ← acceptOp "," then return ((arg :: acc, dots), true)
      guard (← atOp ")")
      return ((arg :: acc, dots), false)) ([], none)
  let rparen ← expectOp ")"
  return .call ⟨fn.start, rparen + 1⟩ fn lparen args.reverse dots rparen

/-- What follows a point: a selected name or an asserted type. -/
def afterPoint (g : Grammar) (base : Expr) : Reader Expr := do
  if ← atIdent then
    let sel ← ident
    return .selector ⟨base.start, sel.range.stop⟩ base sel
  let lparen ← expectOp "("
  let type ←
    if ← atWord "type" then
      let _ ← expectWord "type"
      pure none
    else some <$> g.type
  let rparen ← expectOp ")"
  return .assertion ⟨base.start, rparen + 1⟩ base lparen type rparen

/-- Whether a brace after the operand opens a literal value; `none` when it would have to, but the
operand is in parentheses. -/
def opensLiteral (depth : Int) (x : Expr) : Option Bool :=
  let opens := match x.unparen with
    | .ident _ | .selector _ _ _ | .index _ _ _ _ _ => 0 ≤ depth
    | .array _ _ _ | .struct _ _ | .map _ _ _ => true
    | _ => false
  match x with
  | .paren _ _ => if opens then none else some false
  | _ => some opens

def primary (g : Grammar) (x : Expr) : Reader Expr :=
  iterate (fun x => do
    match ← kind with
    | .op "." =>
      let _ ← advance
      return (← afterPoint g x, true)
    | .op "[" => return (← indexOrSlice g x, true)
    | .op "(" => return (← callArgs g x, true)
    | .op "\x7b" =>
      match opensLiteral (← get).depth x with
      | none => failure
      | some true => return (← g.literalValue (some x), true)
      | some false => return (x, false)
    | _ => return (x, false)) x

/-! ## Composite literals -/

/-- A key, a value or an element: an expression or a literal value without its type. -/
def elementPart (g : Grammar) : Reader Expr := do
  if ← atOp "\x7b" then g.literalValue none else g.expr

def element (g : Grammar) : Reader Expr := do
  let x ← elementPart g
  if ← atOp ":" then
    let colon ← expectOp ":"
    let value ← elementPart g
    return .pair ⟨x.start, value.stop⟩ x colon value
  return x

def literalValue (g : Grammar) (type : Option Expr) : Reader Expr := do
  let lbrace ← expectOp "\x7b"
  let elements ← nested (commaList (element g) "\x7d")
  let rbrace ← expectOp "\x7d"
  let start := (type.map (·.start)).getD lbrace
  return .composite ⟨start, rbrace + 1⟩ type lbrace elements rbrace

/-! ## Operators -/

/-- Reads an arrow before a channel type as part of the type: the arrow makes the outermost channel
a receiving one, and a sending channel passes its own arrow inwards. -/
def receiveChan (arrow : Nat) : Expr → Option Expr
  | .chan r .both _ value => some (.chan ⟨arrow, r.stop⟩ .receive arrow value)
  | .chan r .send inner value =>
    (receiveChan inner value).map fun value => .chan ⟨arrow, r.stop⟩ .receive arrow value
  | _ => none

def unary (g : Grammar) : Reader Expr := do
  match ← kind with
  | .op "+" | .op "-" | .op "!" | .op "^" | .op "&" | .op "~" =>
    let sign ← advance
    let inner ← g.unary
    match sign.kind with
    | .op s => return .unary ⟨sign.start, inner.stop⟩ s inner
    | _ => failure
  | .op "<-" =>
    let arrow ← expectOp "<-"
    let inner ← g.unary
    match inner with
    | .chan _ _ _ _ =>
      match receiveChan arrow inner with
      | some t => return t
      | none => failure
    | _ => return .unary ⟨arrow, inner.stop⟩ "<-" inner
  | .op "*" =>
    let start ← expectOp "*"
    let inner ← g.unary
    return .star ⟨start, inner.stop⟩ inner
  | _ => g.primary (← operand g)

/-- The rest of a binary expression after its first operand. -/
def binaryFrom (g : Grammar) (x : Expr) (least : Nat) : Reader Expr :=
  iterate (fun x => do
    match ← kind with
    | .op sign =>
      let p := precedence sign
      if p < least || p == 0 then return (x, false)
      let signAt ← expectOp sign
      let y ← g.binary (p + 1)
      return (.binary ⟨x.start, y.stop⟩ x signAt sign y, true)
    | _ => return (x, false)) x

/-- An expression whose operators bind at least as tightly as given. -/
def binary (g : Grammar) (least : Nat) : Reader Expr := do
  g.binaryFrom (← g.unary) least

end Parse

end AccessLayer.Go
