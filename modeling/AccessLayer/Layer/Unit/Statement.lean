import AccessLayer.Layer.Artifact
import AccessLayer.Layer.Project
import AccessLayer.Query.Params

/-!
# Statement modules

A query or mutation file gets a constant with its text and a function that runs it.

* `StatementKind`: how queries and mutations are named.
* `StatementUnit`: a file as its module sees it.
* `StatementUnit.function`: the function of the module.
-/

namespace AccessLayer.Layer

inductive StatementKind where
  | query
  | mutation
deriving DecidableEq, Repr

namespace StatementKind

def category : StatementKind → Category
  | query => .queries
  | mutation => .mutations

def dir (k : StatementKind) (s : Settings) : Bytes :=
  match k with
  | query => s.paths.queries
  | mutation => s.paths.mutations

def sourceKind : StatementKind → SourceKind
  | query => .query
  | mutation => .mutation

def verb : StatementKind → Bytes
  | query => "query"
  | mutation => "mutate"

def start : StatementKind → Bytes
  | query => "Query"
  | mutation => "Mutate"

def ending : StatementKind → Bytes
  | query => "query"
  | mutation => "mutation"

def functionOf (k : StatementKind) (name : Bytes) : Bytes := k.start ++ Naming.pascal name

end StatementKind

/-- A query or mutation file as its module sees it. -/
structure StatementUnit where
  kind : StatementKind
  typesImport : Bytes
  name : Bytes
  path : Bytes
  text : Bytes
  constant : Bytes
  parameters : List Query.Variable
  signature : Query.Signature
deriving DecidableEq, Repr

namespace StatementUnit

def nameOf (path : Bytes) : Bytes := Naming.snake (Bytes.trimEnd (Path.ext path) (Path.base path))

/-- The module of a file; `none` when a name gives no identifier. -/
def ofFile? (kind : StatementKind) (typesImport path shownPath text : Bytes)
    (signature : Query.Signature) : Option StatementUnit := do
  let name := nameOf path
  let constant ← Naming.camel? (name ++ "_" ++ kind.ending)
  return { kind, typesImport, name, path := shownPath, text, constant
           parameters := Query.annotations text, signature }

def response (u : StatementUnit) : Bytes := Naming.pascal (u.name ++ "_" ++ u.kind.ending)

def params (u : StatementUnit) : List FuncParam :=
  callParams ++ u.signature.params.map fun p => ⟨p.name, p.type⟩

def message (u : StatementUnit) : Bytes := u.kind.verb ++ " " ++ u.name

def function (u : StatementUnit) : Documented :=
  let name := u.kind.functionOf u.name
  let bound := (Query.Item.variables (u.parameters.map (·.name))).flatten
  { doc := [name ++ " runs " ++ u.path ++ " and returns the result of its first statement."] ++
      if bound.isEmpty then [] else ["It binds " ++ Bytes.join ", " bound ++ "."]
    decl := .func name u.params ("(*types." ++ u.response ++ ", error)")
      ([Bytes.ofString "vars := map[string]any\x7b"] ++
        (u.signature.bindings.map fun p => indent (Bytes.quote p.binds ++ ": " ++ p.name ++ ",")) ++
        [Bytes.ofString "\x7d", [],
         Bytes.ofString "res, err := surrealdb.Query[types." ++ u.response ++ "](ctx, db, " ++
          u.constant ++ ", vars)"] ++
        failWith "nil" u.message ++ [[]] ++
        block "if res == nil || len(*res) == 0"
          [Bytes.ofString "return nil, fmt.Errorf(\"" ++ u.message ++ ": %w\", ErrNoResult)"] ++
        [[], Bytes.ofString "first := (*res)[0]"] ++
        block "if first.Status != \"OK\""
          [Bytes.ofString "return nil, fmt.Errorf(\"" ++ u.message ++
            ": status %s\", first.Status)"] ++
        [[], Bytes.ofString "return &first.Result, nil"]) }

def source (u : StatementUnit) : Source :=
  { head := [generatedHeader, []]
    package := u.kind.category.name
    imports := .groups
      [[stdImport "context", stdImport "fmt", stdImport "time"],
       [clientImport, modelsImport,
        { name := "types", literal := "\"" ++ u.typesImport ++ "\"" }]]
    decls :=
      [{ doc := [u.constant ++ " is the text of " ++ u.path ++ "."]
         decl := .constant u.constant (Bytes.goString u.text) },
       u.function] }

def paramData (p : Query.Param) : List (String × Template.Datum) :=
  [("Name", .text p.name), ("Type", .text p.type), ("VarName", .text p.binds)]

def artifact (u : StatementUnit) : Artifact :=
  { template := .statement
    source := u.source
    data :=
      [("Header", .text generatedHeader), ("Package", .text u.kind.category.name),
        ("TypesImport", .text u.typesImport), ("Name", .text u.name), ("Source", .text u.path),
        ("Text", .text u.text), ("ConstName", .text u.constant),
        ("FuncName", .text (u.kind.functionOf u.name)), ("ResponseType", .text u.response),
        ("Verb", .text u.kind.verb),
        ("VarNames", .records .variable_
          (u.parameters.map fun v => [("Name", .text v.name), ("Type", .text v.type)])),
        ("Params", .records .parameter (u.signature.params.map paramData)),
        ("Bindings", .records .parameter (u.signature.bindings.map paramData))] }

end StatementUnit

end AccessLayer.Layer
