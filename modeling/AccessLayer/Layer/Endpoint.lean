import AccessLayer.Layer.Pass
import AccessLayer.Layer.Unit.Handler

/-!
# Making endpoints

An endpoint is asked for by name, with at most one definition to call.

* `EndpointRequest`: what is asked for.
* `makeEndpoint`: writes the handler.
-/

namespace AccessLayer.Layer

/-- A request for an endpoint. An empty text means that nothing is given. -/
structure EndpointRequest where
  name : Bytes
  fromQuery : Bytes := []
  fromMutation : Bytes := []
  fromEvent : Bytes := []
  fromSchema : Bytes := []
  method : Bytes := []
deriving DecidableEq, Repr

def EndpointRequest.sources (r : EndpointRequest) : List Bytes :=
  [r.fromQuery, r.fromMutation, r.fromEvent, r.fromSchema].filter (!·.isEmpty)

/-- The stem of a definition's name, which may carry the extension of definitions or of Go files. -/
def sourceStem (p : Project) (name : Bytes) : Bytes :=
  Bytes.trimEnd p.settings.extension (Bytes.trimEnd goExtension name)

def sourcePath (p : Project) (dir name : Bytes) : Bytes :=
  Path.join [p.place dir, sourceStem p name ++ p.settings.extension]

def hasSource (tree : Tree) (cwd : Place) (path : Bytes) : Bool :=
  match tree.stat cwd path with
  | .ok e => e.isFile
  | .error _ => false

def findSource (p : Project) (kind : SourceKind) (dir name : Bytes) : Task Bytes := do
  let path := sourcePath p dir name
  let s ← get
  if hasSource s.tree s.cwd path then return path
  else throw (.sourceMissing kind (sourceStem p name ++ p.settings.extension))

/-! ## Queries and mutations -/

/-- The fields of the request that a handler of a statement reads. -/
def requestFields (signature : Query.Signature) : List Record.GoField :=
  signature.bindings.map fun p => ⟨Naming.pascal p.binds, p.type, p.binds⟩

def requestArgs (signature : Query.Signature) : List Bytes :=
  signature.params.map fun p => "req." ++ Naming.pascal p.binds

def statementTarget (p : Project) (kind : StatementKind) (name : Bytes) : Task Target := do
  let path ← findSource p kind.sourceKind (kind.dir p.settings) name
  let text ← Task.readFile path
  let importPath ← p.categoryImport kind.category
  let signature ← signatureOf p path text
  let function := kind.functionOf (Naming.snake (sourceStem p name))
  return .statement ⟨kind.category, importPath, function⟩ (requestFields signature)
    (requestArgs signature)

/-! ## Events and tables -/

/-- The name that equals the file stem, or else the first one. -/
def chosen? (names : List Bytes) (stem : Bytes) : Option Bytes :=
  if names.contains stem then some stem else names.head?

def eventTarget (p : Project) (name : Bytes) : Task Target := do
  let path ← findSource p .event p.settings.paths.events name
  let statements ← p.statements .events path
  match chosen? ((Surql.events statements).map (·.name)) (sourceStem p name) with
  | none => throw (.endpoint (.noEvent (p.relative path)))
  | some event =>
    let importPath ← p.categoryImport .events
    return .event ⟨.events, importPath, EventUnit.functionOf event⟩ (EventUnit.structOf event)

/-- The function of a table's module that does what a method asks for. -/
def methodFunction (struct : Bytes) : Method → Bytes
  | .list => "GetAll" ++ plural struct
  | m => Naming.pascal m.name ++ struct

/-- What an endpoint for a table does; a read-only table cannot be changed. -/
def tableMethod (settings : Settings) (table method : Bytes) : Except EndpointFault Method :=
  match Method.ofName? method with
  | none => .error (.unknownMethod method (Method.all.map (·.name)))
  | some m =>
    if m.isWriting && settings.isReadOnly table then .error (.readOnly table) else .ok m

def tableTarget (p : Project) (name method : Bytes) : Task Target := do
  if method.isEmpty then
    throw (.endpoint (.schemaWithoutMethod (Method.all.map (·.name))))
  let path ← findSource p .schema p.settings.paths.schemas name
  let statements ← p.statements .crud path
  match chosen? ((Surql.tables statements).map (·.name)) (sourceStem p name) with
  | none => throw (.endpoint (.noTable (p.relative path)))
  | some table =>
    match tableMethod p.settings table method with
    | .error fault => throw (.endpoint fault)
    | .ok m =>
      let struct := Naming.pascal table
      let importPath ← p.categoryImport .crud
      return .table ⟨.crud, importPath, methodFunction struct m⟩ m struct

/-! ## Endpoints -/

def targetOf (p : Project) (r : EndpointRequest) : Task Target :=
  if r.sources.length > 1 then throw (.endpoint .manySources)
  else if !r.method.isEmpty && r.fromSchema.isEmpty then throw (.endpoint .methodWithoutSchema)
  else if !r.fromQuery.isEmpty then statementTarget p .query r.fromQuery
  else if !r.fromMutation.isEmpty then statementTarget p .mutation r.fromMutation
  else if !r.fromEvent.isEmpty then eventTarget p r.fromEvent
  else if !r.fromSchema.isEmpty then tableTarget p r.fromSchema r.method
  else return .stub

/-- Writes the handler of a request and gives its path from the project root. -/
def makeEndpoint (p : Project) (r : EndpointRequest) : Task Bytes := do
  if (Bytes.trim r.name).isEmpty then throw (.endpoint .nameMissing)
  let apiDir := p.place p.settings.paths.api
  let stem := Naming.snake r.name
  let s ← get
  let package := packageName s.tree s.cwd apiDir
  let target ← targetOf p r
  let handler : Handler := { package, name := r.name, function := Naming.pascal stem, target }
  let path := Path.join [apiDir, Naming.fileStem stem ++ goExtension]
  let content ← render p (.endpoint r.name) handler.artifact
  Task.writeFile path content
  return p.relative path

end AccessLayer.Layer
