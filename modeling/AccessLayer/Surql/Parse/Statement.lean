import AccessLayer.Surql.Parse.Value
import AccessLayer.Surql.Statement

/-!
# Reading statements

A file is cut into statements, and each is read on its own. Definitions of tables, fields and events
are read clause by clause, in any order; a clause that is given twice counts with its last value. A
clause that the generator has no use for ends the reading of its statement.

* `parse`: the statements of a text.
-/

namespace AccessLayer.Surql

open Reader

namespace Definition

/-! ## Parts shared by definitions -/

/-- Skips `OVERWRITE` or `IF NOT EXISTS`. -/
def modifiers : Reader Unit := do
  if ← acceptKeyword "OVERWRITE" then return ()
  else if ← acceptKeyword "IF" then
    expectKeyword "NOT"
    expectKeyword "EXISTS"

/-- Reads a name; `what` says in the message what it would name. -/
def name (what : Bytes) : Reader Bytes := do
  let t ← peek
  if t.kind == .ident || t.kind == .string then
    discard advance
    return t.literal
  else failAt t (.expectedName what t)

/-- Reads the table after `ON`, with or without the word `TABLE`. -/
def tableName : Reader Bytes := do
  discard (acceptKeyword "TABLE")
  name "table"

/-- Applies a step as long as tokens are left. -/
def untilEnd {σ : Type} (step : σ → Reader σ) : (fuel : Nat) → σ → Reader σ
  | 0, _ => exhausted
  | fuel + 1, s => do
    if (← get).atEnd then return s
    else
      let s ← step s
      untilEnd step fuel s

/-! ## Tables -/

def endsFlags (t : Token) : Bool :=
  t.isKeyword "AS" || t.isKeyword "PERMISSIONS" || t.isKeyword "COMMENT"

def table (pos : Nat) : Reader TableDef := do
  modifiers
  let name ← name "table"
  let flags := (← get).rest.takeWhile fun t => !endsFlags t
  skipToEnd
  return { pos, name,
           schemafull := flags.any (·.isKeyword "SCHEMAFULL")
           drop := flags.any (·.isKeyword "DROP") }

/-! ## Fields -/

/-- The name of a field: everything before `ON`. One token names the field by its text, several by
their source text. -/
def fieldName : Reader Bytes := do
  let c ← get
  let own := c.rest.takeWhile fun t => !t.isKeyword "ON"
  if own.length == c.rest.length then failAt c.stop (.expectedOn c.stop)
  else
    set (c.skip own.length)
    match own with
    | [] => failAt c.peek (.expectedName "field" c.peek)
    | [t] => return t.literal
    | t :: _ => raw t.start.offset

def fieldClause (d : FieldDef) : Reader FieldDef := do
  if ← acceptKeyword "FLEXIBLE" then return { d with flexible := true }
  else if ← acceptKeyword "READONLY" then return { d with readonly := true }
  else if ← acceptKeyword "TYPE" then return { d with kind := some (← kind) }
  else if ← acceptKeyword "DEFAULT" then
    discard (acceptKeyword "ALWAYS")
    return { d with default := some (← value) }
  else if ← acceptKeyword "VALUE" then return { d with value := some (← Surql.value) }
  else if ← acceptKeyword "ASSERT" then return { d with assert := some (← value) }
  else if ← acceptKeyword "COMMENT" then
    discard advance
    return d
  else
    skipToEnd
    return d

def field (pos : Nat) : Reader FieldDef := do
  modifiers
  let name ← fieldName
  discard advance
  let table ← tableName
  untilEnd fieldClause ((← get).rest.length + 1) { pos, name, table }

/-! ## Events -/

def values : (fuel : Nat) → Reader (List Value)
  | 0 => exhausted
  | fuel + 1 => do
    let v ← value
    if ← check .comma then
      discard advance
      return v :: (← values fuel)
    else return [v]

def eventClause (d : EventDef) : Reader EventDef := do
  if ← acceptKeyword "WHEN" then return { d with when? := some (← value) }
  else if ← acceptKeyword "THEN" then
    return { d with actions := d.actions ++ (← values ((← get).rest.length + 1)) }
  else if ← acceptKeyword "COMMENT" then
    discard advance
    return d
  else
    skipToEnd
    return d

def event (pos : Nat) : Reader EventDef := do
  modifiers
  let name ← name "event"
  expectKeyword "ON"
  let table ← tableName
  untilEnd eventClause ((← get).rest.length + 1) { pos, name, table }

/-! ## All definitions -/

/-- The rest of a definition whose first word stands at `pos`. -/
def any (pos : Nat) : Reader Statement := do
  let t ← advance
  if t.kind != .ident then failAt t (.expectedDefinitionKind t)
  else
    let kind := Bytes.toUpper t.literal
    if kind == "TABLE" then return .table (← table pos)
    else if kind == "FIELD" then return .field (← field pos)
    else if kind == "EVENT" then return .event (← event pos)
    else
      skipToEnd
      return .define pos kind (← raw pos)

end Definition

namespace Statement

def read : Reader Statement := do
  let first ← peek
  let pos := first.start.offset
  if first.isKeyword "DEFINE" then
    discard advance
    Definition.any pos
  else
    skipToEnd
    return .raw pos (Bytes.toUpper first.literal) (← Reader.raw pos)

def ofSpan (src : Bytes) (span : Span) : Except ParseError Statement :=
  read.run' (Cursor.ofSpan src span)

end Statement

/-- The statements of a text. Tokens are checked first, then brackets, then statements in order. -/
def parse (src : Bytes) : Except ParseError (List Statement) := do
  let tokens ← tokenize src
  let spans ← splitSpans tokens
  spans.mapM (Statement.ofSpan src)

end AccessLayer.Surql
