import AccessLayer.Record.GoField

/-!
# Generated Go sources

A generated source is a package clause, imports and declarations. The layout of its text does not
matter, because it is formatted afterwards.

* `Declaration`: a declaration with its documentation.
* `Source`: a source.
* `Source.text`: its text.
-/

namespace AccessLayer.Layer

open Record (GoField)

/-! ## Lines -/

/-- A line one step further in; an empty line stays empty. -/
def indent (line : Bytes) : Bytes := if line.isEmpty then [] else Bytes.byte '\t' :: line

def block (head : Bytes) (body : List Bytes) : List Bytes :=
  (head ++ " \x7b") :: body.map indent ++ [Bytes.ofString "\x7d"]

def commentLine (line : Bytes) : Bytes := "// " ++ line

def fieldLine (f : GoField) : Bytes := f.name ++ " " ++ f.type ++ " `json:\"" ++ f.key ++ "\"`"

/-! ## Declarations -/

/-- A parameter of a generated function. -/
structure FuncParam where
  name : Bytes
  type : Bytes
deriving DecidableEq, Repr

def FuncParam.text (p : FuncParam) : Bytes := p.name ++ " " ++ p.type

def callParams : List FuncParam := [⟨"ctx", "context.Context"⟩, ⟨"db", "*surrealdb.DB"⟩]

/-- A declaration of a generated source. -/
inductive Declaration where
  | constant (name value : Bytes)
  | variable_ (name : Bytes) (value : List Bytes)
  | struct (name : Bytes) (fields : List GoField)
  | func (name : Bytes) (params : List FuncParam) (result : Bytes) (body : List Bytes)
deriving DecidableEq, Repr

namespace Declaration

def name : Declaration → Bytes
  | constant name _ => name
  | variable_ name _ => name
  | struct name _ => name
  | func name _ _ _ => name

def lines : Declaration → List Bytes
  | constant name value => ["const " ++ name ++ " = " ++ value]
  | variable_ name value =>
    match value with
    | [] => []
    | first :: rest => ("var " ++ name ++ " = " ++ first) :: rest
  | struct name fields => block ("type " ++ name ++ " struct") (fields.map fieldLine)
  | func name params result body =>
    block ("func " ++ name ++ "(" ++ Bytes.join ", " (params.map (·.text)) ++ ") " ++ result) body

end Declaration

/-- A declaration with its documentation. -/
structure Documented where
  doc : List Bytes
  decl : Declaration
deriving DecidableEq, Repr

def Documented.text (d : Documented) : Bytes :=
  Bytes.join "\n" (d.doc.map commentLine ++ d.decl.lines)

/-! ## Sources -/

/-- An import: the name it goes by, which may be empty, and its path as a literal. -/
structure Import where
  name : Bytes := []
  literal : Bytes
deriving DecidableEq, Repr

def Import.text (i : Import) : Bytes :=
  if i.name.isEmpty then i.literal else i.name ++ " " ++ i.literal

/-- The imports of a source. -/
inductive Imports where
  | single (i : Import)
  /-- Groups of imports with a blank line between them. -/
  | groups (gs : List (List Import))
deriving DecidableEq, Repr

def Imports.text : Imports → Bytes
  | single i => "import " ++ i.text
  | groups gs =>
    "import (\n" ++
      Bytes.join "\n\n" (gs.map fun g => Bytes.join "\n" (g.map fun i => indent i.text)) ++ "\n)"

/-- A generated source. -/
structure Source where
  head : List Bytes := []
  package : Bytes
  imports : Imports
  decls : List Documented
deriving DecidableEq, Repr

namespace Source

def declared (s : Source) : List Bytes := s.decls.map (·.decl.name)

def text (s : Source) : Bytes :=
  Bytes.join "\n" (s.head ++ ["package " ++ s.package]) ++ "\n\n" ++ s.imports.text ++ "\n\n" ++
    Bytes.join "\n\n" (s.decls.map (·.text)) ++ "\n"

end Source

/-! ## Packages that generated sources use -/

def stdImport (path : Bytes) : Import := { literal := "\"" ++ path ++ "\"" }

def clientImport : Import :=
  { name := "surrealdb", literal := "\"github.com/surrealdb/surrealdb.go\"" }

def modelsImport : Import :=
  { name := "models", literal := "\"github.com/surrealdb/surrealdb.go/pkg/models\"" }

end AccessLayer.Layer
