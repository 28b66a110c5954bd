import AccessLayer.Go.Parse.Stmt

/-!
# Reading files

The readers of types, expressions and statements are tied together, each level of nesting using up
one unit of a supply that the number of tokens bounds.

* `Parse.grammar`: the readers tied together.
* `File.parse`: the tree of a file.
-/

namespace AccessLayer.Go

namespace Parse

open Reader

/-- The readers tied together; a nesting deeper than the fuel fails. -/
def grammar : Nat → Grammar
  | 0 =>
    { type? := failure
      unary := failure
      binary := fun _ => failure
      primary := fun _ => failure
      binaryFrom := fun _ _ => failure
      literalValue := fun _ => failure
      block := failure
      stmt := failure }
  | fuel + 1 =>
    let g := grammar fuel
    { type? := type? g
      unary := unary g
      binary := binary g
      primary := primary g
      binaryFrom := binaryFrom g
      literalValue := literalValue g
      block := block g
      stmt := stmt g }

def funcDecl (g : Grammar) : Reader FuncDecl := do
  let doc := (← step).lead
  let start ← expectWord "func"
  let receiver ← if ← atOp "(" then some <$> parameters g true else pure none
  let name ← ident
  let typeParams ←
    if ← atOp "[" then
      guard receiver.isNone
      some <$> typeParameters g
    else pure none
  let sig ← signature g typeParams
  if ← atOp "\x7b" then
    let body ← g.block
    let range ← rangeFrom start
    let _ ← endOfStatement
    return ⟨range, doc, receiver, name, sig, some body⟩
  let range ← rangeFrom start
  let _ ← endOfStatement
  guard (!(← atOp "\x7b"))
  return ⟨range, doc, receiver, name, sig, none⟩

/-- A declaration at the top of a file. Imports come first. -/
def decl (g : Grammar) (importOk : Bool) : Reader Decl := do
  match declWord? (← kind) with
  | some word =>
    guard (importOk || word ≠ .importWord)
    return .gen (← genDecl g word)
  | none => return .func (← funcDecl g)

def file (g : Grammar) : Reader File := do
  let doc := (← step).lead
  let start ← expectWord "package"
  let name ← ident
  let _ ← endOfStatement
  let (decls, _) ← iterate (fun ((acc : List Decl), (importOk : Bool)) => do
    if (← kind) == .eof then return ((acc, importOk), false)
    let isImport ← atWord "import"
    let d ← decl g importOk
    return ((d :: acc, isImport), true)) ([], true)
  return ⟨doc, start, name, decls.reverse, [], 0⟩

end Parse

namespace File

/-- The tree of a file, read with the given line starts; `none` when the text is no valid Go. -/
def parse (text : Bytes) : Option File := do
  let lexed ← lex text
  let (steps, comments) := Step.ofLexed (LineTable.ofBytes text) none [] lexed
  let (f, _) ← (Parse.file (Parse.grammar (2 * steps.length + 8))).run ⟨steps, 0, 0⟩
  return { f with comments, tokens := steps.length }

end File

end AccessLayer.Go
