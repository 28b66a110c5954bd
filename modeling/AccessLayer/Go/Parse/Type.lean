import AccessLayer.Go.Parse.Reader

/-!
# Reading types

Types of Go as they stand in declarations: names with type arguments, arrays, structs, functions,
interfaces, maps and channels. The readers are open: what they need of each other is a record that
`Parse.grammar` closes.

* `Grammar`: the readers that the others call.
* `Parse.typeName`, `Parse.parameters`, `Parse.structType`, `Parse.interfaceType`, …
-/

namespace AccessLayer.Go

/-- The readers that call each other. -/
structure Grammar where
  type? : Reader (Option Expr)
  unary : Reader Expr
  /-- An expression whose operators bind at least as tightly as given. -/
  binary : Nat → Reader Expr
  /-- What follows an operand: selectors, indices, calls, literal values. -/
  primary : Expr → Reader Expr
  /-- The rest of a binary expression after its first operand. -/
  binaryFrom : Expr → Nat → Reader Expr
  literalValue : Option Expr → Reader Expr
  block : Reader Block
  stmt : Reader Stmt

namespace Grammar

def expr (g : Grammar) : Reader Expr := g.binary 1

def type (g : Grammar) : Reader Expr := do
  let some t ← g.type? | failure
  return t

end Grammar

namespace Parse

open Reader

/-! ## Names and arguments -/

def indexed (base : Expr) (lbrack : Nat) (indices : List Expr) (rbrack : Nat) : Expr :=
  .index ⟨base.start, rbrack + 1⟩ base lbrack indices rbrack

def typeName (name : Option Ident) : Reader Expr := do
  let first ← match name with
    | some i => pure i
    | none => ident
  if ← acceptOp "." then
    let sel ← ident
    return .selector ⟨first.start, sel.range.stop⟩ (.ident first) sel
  return .ident first

def typeInstance (g : Grammar) (base : Expr) : Reader Expr := do
  let lbrack ← expectOp "["
  let args ← nested (commaList g.type "]")
  guard (!args.isEmpty)
  let rbrack ← expectOp "]"
  return indexed base lbrack args rbrack

def qualifiedIdent (g : Grammar) (name : Option Ident) : Reader Expr := do
  let t ← typeName name
  if ← atOp "[" then typeInstance g t else return t

/-- An array or slice type after its opening bracket; the length may have been read. -/
def arrayType (g : Grammar) (lbrack : Nat) (length : Option Expr) : Reader Expr := do
  let length ← match length with
    | some n => pure (some n)
    | none =>
      nested do
        if ← atOp "..." then
          let dots ← expectOp "..."
          return some (Expr.variadic ⟨dots, dots + 3⟩ none)
        else if ← atOp "]" then return none
        else return some (← g.expr)
  let _ ← expectOp "]"
  let element ← g.type
  return .array ⟨lbrack, element.stop⟩ length element

/-- After a name: an array type, or the type arguments of the name. The name is given back when it
stays one. -/
def arrayOrInstance (g : Grammar) (name : Ident) : Reader (Option Ident × Expr) := do
  let lbrack ← expectOp "["
  let (args, trailing) ← nested do
    if ← atOp "]" then return ([], false)
    let first ← g.expr
    let (rest, trailing) ← iterate (fun (acc, _) => do
      if ← acceptOp "," then
        if ← atOp "]" then return ((acc, true), false)
        return (((← g.expr) :: acc, false), true)
      return ((acc, false), false)) ([first], false)
    return (rest.reverse, trailing)
  let rbrack ← expectOp "]"
  match args with
  | [] =>
    let element ← g.type
    return (some name, .array ⟨lbrack, element.stop⟩ none element)
  | [length] =>
    match ← g.type? with
    | some element =>
      guard (!trailing)
      return (some name, .array ⟨lbrack, element.stop⟩ (some length) element)
    | none => return (none, indexed (.ident name) lbrack args rbrack)
  | _ => return (none, indexed (.ident name) lbrack args rbrack)

/-! ## Constraints -/

def constraintTerm (g : Grammar) : Reader Expr := do
  if ← atOp "~" then
    let start ← expectOp "~"
    let t ← g.type
    return .unary ⟨start, t.stop⟩ "~" t
  g.type

/-- The terms of a constraint, joined by bars; the first may have been read. -/
def constraint (g : Grammar) (first : Option Expr) : Reader Expr := do
  let first ← match first with
    | some t => pure t
    | none => constraintTerm g
  iterate (fun t => do
    if ← atOp "|" then
      let bar ← expectOp "|"
      let term ← constraintTerm g
      return (.binary ⟨t.start, term.stop⟩ t bar "|" term, true)
    return (t, false)) first

/-! ## Parameters -/

/-- A parameter as written: a name, a type or both. -/
structure Param where
  name : Option Ident
  type : Option Expr
deriving Inhabited

def dotsType (g : Grammar) : Reader Expr := do
  let dots ← expectOp "..."
  let t ← g.type
  return .variadic ⟨dots, t.stop⟩ (some t)

def paramAfterName (g : Grammar) (inBrackets : Bool) (name : Ident) : Reader Param := do
  match ← kind with
  | .op "[" =>
    let (name, t) ← arrayOrInstance g name
    return ⟨name, some t⟩
  | .op "..." => return ⟨some name, some (← dotsType g)⟩
  | .op "." => return ⟨none, some (← qualifiedIdent g (some name))⟩
  | .op "~" =>
    guard inBrackets
    return ⟨some name, some (← constraint g none)⟩
  | .op "|" =>
    guard inBrackets
    return ⟨none, some (← constraint g (some (.ident name)))⟩
  | _ => return ⟨some name, ← g.type?⟩

def param (g : Grammar) (inBrackets : Bool) (name : Option Ident) : Reader Param := do
  let p ← match name with
    | some n => paramAfterName g inBrackets n
    | none =>
      match ← kind with
      | .ident => paramAfterName g inBrackets (← ident)
      | .op "..." => pure ⟨none, some (← dotsType g)⟩
      | .op "~" =>
        guard inBrackets
        pure ⟨none, some (← constraint g none)⟩
      | _ => pure ⟨none, some (← g.type)⟩
  match p.type with
  | some t =>
    if inBrackets && (← atOp "|") then return ⟨p.name, some (← constraint g (some t))⟩
    return p
  | none => return p

def isVariadic : Expr → Bool
  | .variadic _ _ => true
  | _ => false

/-- Gives every name the type on its right. The parameters come last first. -/
def distribute : Option Expr → List Param → Option (List (Ident × Expr))
  | _, [] => some []
  | _, ⟨some n, some t⟩ :: ps => (distribute (some t) ps).map fun out => (n, t) :: out
  | some t, ⟨some n, none⟩ :: ps => (distribute (some t) ps).map fun out => (n, t) :: out
  | _, _ => none

def groupNames : List (Ident × Expr) → List Field
  | [] => []
  | (n, t) :: ps =>
    match groupNames ps with
    | .mk doc names type tag c :: fs =>
      if type.range = t.range then .mk doc (n :: names) type tag c :: fs
      else .mk [] [n] t none false :: .mk doc names type tag c :: fs
    | [] => [.mk [] [n] t none false]

/-- The fields of a parameter list. Either every parameter has a name or none has one, and only
the last may take any number of arguments, where that is allowed at all. -/
def paramFields (inBrackets variadicOk : Bool) (ps : List Param) : Option (List Field) := do
  let types : List (Option Expr) := ps.map fun p => p.type.or (p.name.map Expr.ident)
  let named := ps.any fun p => p.name.isSome && p.type.isSome
  let fields ←
    if named then (distribute none ps.reverse).map fun out => groupNames out.reverse
    else if inBrackets then none
    else some (types.filterMap fun t => t.map fun t => .mk [] [] t none false)
  let misplaced := if variadicOk then ps.dropLast else ps
  guard (misplaced.all fun p => !(p.type.map isVariadic).getD false)
  match fields.getLast? with
  | some (.mk _ names type _ _) => guard (!(isVariadic type && names.length > 1))
  | none => pure ()
  return fields

/-- The parameters up to a closing bracket. The first parameter, or its name, may have been
read. -/
def paramList (g : Grammar) (first : Option Param) (closing : String) (variadicOk : Bool) :
    Reader (List Field) := do
  let inBrackets := closing == "]"
  let head ← match first with
    | none => pure []
    | some p =>
      let p ← match p.name, p.type with
        | name, some t =>
          if inBrackets then pure ⟨name, some (← constraint g (some t))⟩ else pure p
        | name, none => param g inBrackets name
      if ← atOp closing then pure [p]
      else
        let _ ← expectOp ","
        pure [p]
  let rest ← commaList (param g inBrackets none) closing
  match paramFields inBrackets variadicOk (head ++ rest) with
  | some fields => return fields
  | none => failure

def parameters (g : Grammar) (variadicOk : Bool) : Reader FieldList := do
  let lparen ← expectOp "("
  let fields ← if ← atOp ")" then pure [] else paramList g none ")" variadicOk
  let rparen ← expectOp ")"
  return .mk lparen fields rparen

/-- The results of a function: a list in parentheses, one type, or nothing. -/
def results (g : Grammar) : Reader (Option FieldList) := do
  if ← atOp "(" then return some (← parameters g false)
  match ← g.type? with
  | some t => return some (.mk t.start [.mk [] [] t none false] t.stop)
  | none => return none

def signature (g : Grammar) (typeParams : Option FieldList) : Reader Signature := do
  let ps ← parameters g true
  let rs ← results g
  return .mk typeParams ps rs

def typeParameters (g : Grammar) : Reader FieldList := do
  let lbrack ← expectOp "["
  guard (!(← atOp "]"))
  let fields ← paramList g none "]" false
  let rbrack ← expectOp "]"
  return .mk lbrack fields rbrack

/-! ## Structs and interfaces -/

/-- The names and the type of a struct field that starts with a name. -/
def namedField (g : Grammar) : Reader (List Ident × Expr) := do
  let name ← ident
  match ← kind with
  | .op "." => return ([], ← qualifiedIdent g (some name))
  | .string | .semicolon _ | .op "\x7d" => return ([], .ident name)
  | _ =>
    let names ← iterate (fun acc => do
      if ← acceptOp "," then return ((← ident) :: acc, true)
      return (acc, false)) [name]
    if names.length == 1 && (← atOp "[") then
      let (name, t) ← arrayOrInstance g name
      return (name.toList, t)
    return (names.reverse, ← g.type)

def structField (g : Grammar) : Reader Field := do
  let doc := (← step).lead
  let (names, t) ←
    if ← atOp "*" then do
      let start ← expectOp "*"
      let t ← qualifiedIdent g none
      pure ([], Expr.star ⟨start, t.stop⟩ t)
    else namedField g
  let tag ← if (← kind) == .string then some <$> literal else pure none
  let commented ← endOfStatement
  return .mk doc names t tag commented

def structType (g : Grammar) : Reader Expr := do
  let start ← expectWord "struct"
  let lbrace ← expectOp "\x7b"
  let fields ← manyWhile (return (← atIdent) || (← atOp "*")) (structField g)
  let rbrace ← expectOp "\x7d"
  return .struct ⟨start, rbrace + 1⟩ (.mk lbrace fields rbrace)

/-- A method of an interface, or an embedded type that starts with a name. -/
def methodSpec (g : Grammar) : Reader (List Ident × Expr) := do
  match ← typeName none with
  | .ident name =>
    match ← kind with
    | .op "[" =>
      let lbrack ← expectOp "["
      let first ← nested g.expr
      let rest ← if ← acceptOp "," then nested (commaList g.type "]") else pure []
      let rbrack ← expectOp "]"
      return ([], indexed (.ident name) lbrack (first :: rest) rbrack)
    | .op "(" =>
      let sig ← signature g none
      return ([name], .func (← rangeFrom name.start) sig)
    | _ => return ([], .ident name)
  | t => if ← atOp "[" then return ([], ← typeInstance g t) else return ([], t)

def interfaceElements (g : Grammar) : Reader (List Field) := do
  let fields ← iterate (fun acc => do
    let doc := (← step).lead
    let entry ←
      if ← atIdent then
        match ← methodSpec g with
        | ([], t) => pure (some ([], ← constraint g (some t)))
        | method => pure (some method)
      else if ← atOp "~" then pure (some ([], ← constraint g none))
      else
        match ← g.type? with
        | some t => pure (some ([], ← constraint g (some t)))
        | none => pure none
    match entry with
    | some (names, t) => return (Field.mk doc names t none (← endOfStatement) :: acc, true)
    | none => return (acc, false)) []
  return fields.reverse

def interfaceType (g : Grammar) : Reader Expr := do
  let start ← expectWord "interface"
  let lbrace ← expectOp "\x7b"
  let fields ← interfaceElements g
  let rbrace ← expectOp "\x7d"
  return .interface ⟨start, rbrace + 1⟩ (.mk lbrace fields rbrace)

/-! ## All types -/

def funcType (g : Grammar) : Reader (Nat × Signature) := do
  let start ← expectWord "func"
  return (start, ← signature g none)

def mapType (g : Grammar) : Reader Expr := do
  let start ← expectWord "map"
  let _ ← expectOp "["
  let key ← g.type
  let _ ← expectOp "]"
  let value ← g.type
  return .map ⟨start, value.stop⟩ key value

def chanType (g : Grammar) : Reader Expr := do
  let start ← position
  if ← acceptOp "<-" then
    let _ ← expectWord "chan"
    let value ← g.type
    return .chan ⟨start, value.stop⟩ .receive start value
  let _ ← expectWord "chan"
  if ← atOp "<-" then
    let arrow ← expectOp "<-"
    let value ← g.type
    return .chan ⟨start, value.stop⟩ .send arrow value
  let value ← g.type
  return .chan ⟨start, value.stop⟩ .both start value

def type? (g : Grammar) : Reader (Option Expr) := do
  match ← kind with
  | .ident => some <$> qualifiedIdent g none
  | .op "[" =>
    let lbrack ← expectOp "["
    some <$> arrayType g lbrack none
  | .keyword "struct" => some <$> structType g
  | .op "*" =>
    let start ← expectOp "*"
    let t ← g.type
    return some (.star ⟨start, t.stop⟩ t)
  | .keyword "func" =>
    let (start, sig) ← funcType g
    return some (.func (← rangeFrom start) sig)
  | .keyword "interface" => some <$> interfaceType g
  | .keyword "map" => some <$> mapType g
  | .keyword "chan" | .op "<-" => some <$> chanType g
  | .op "(" =>
    let lparen ← expectOp "("
    let t ← g.type
    let rparen ← expectOp ")"
    return some (.paren ⟨lparen, rparen + 1⟩ t)
  | _ => return none

end Parse

end AccessLayer.Go
