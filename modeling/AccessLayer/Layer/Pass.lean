import AccessLayer.Layer.Render
import AccessLayer.Layer.Unit.Event
import AccessLayer.Layer.Unit.Index
import AccessLayer.Layer.Unit.Statement
import AccessLayer.Layer.Unit.Table
import AccessLayer.Naming.FileStem

/-!
# Generation passes

A pass reads all definition files and writes the access layer. Each package is written as soon as
its modules are made, files that the pass no longer makes are removed, and the first failure ends
it.

* `firstDuplicate?`: a name that two files of a package declare.
* `prune`: removes the files that are no longer made.
* `generate`: a pass.
-/

namespace AccessLayer.Layer

/-! ## Modules of a package -/

/-- Renders a module and adds it under its file stem. -/
def addModule (p : Project) (r : CategoryResult) (name : Bytes) (a : Artifact) :
    Task CategoryResult := do
  let stem := Naming.fileStem name
  let path := Path.join [p.categoryDir r.category, stem ++ goExtension]
  let content ← render p (.module r.category name) a
  if r.has stem then
    Task.log ("WARNING: " ++ r.category.name ++ " " ++ Bytes.quote stem ++
      " is defined more than once, the last definition wins")
  return r.put { name := stem, path, content }

/-- The signature of a file's annotations, with its warnings logged. -/
def signatureOf (p : Project) (path : Bytes) (text : Bytes) : Task Query.Signature := do
  match Query.Signature.ofVariables? (Query.annotations text) with
  | none => throw .unnamedParameter
  | some signature =>
    for line in signature.warnings (p.relative path) do
      Task.log line
    return signature

def addStatement (p : Project) (kind : StatementKind) (typesImport : Bytes) (r : CategoryResult)
    (path : Bytes) : Task CategoryResult := do
  let text ← Task.readFile path
  match Surql.parse text with
  | .error e => throw (.source kind.category (p.relative path) e)
  | .ok _ =>
    let signature ← signatureOf p path text
    match StatementUnit.ofFile? kind typesImport path (p.relative path) text signature with
    | none => throw .unnamedParameter
    | some u => addModule p r u.name u.artifact

def makeStatements (p : Project) (kind : StatementKind) : Task CategoryResult := do
  let files ← p.sources (kind.dir p.settings)
  let empty : CategoryResult := { category := kind.category }
  if files.isEmpty then return empty
  let typesImport ← p.typesImport
  files.foldlM (addStatement p kind typesImport) empty

def makeTables (p : Project) : Task CategoryResult := do
  let files ← p.sources p.settings.paths.schemas
  files.foldlM (fun r path => do
    let statements ← p.statements .crud path
    (TableUnit.ofStatements p.settings statements).foldlM
      (fun r u => addModule p r u.table u.artifact) r) { category := .crud }

def makeEvents (p : Project) : Task CategoryResult := do
  let files ← p.sources p.settings.paths.events
  files.foldlM (fun r path => do
    let statements ← p.statements .events path
    (EventUnit.ofStatements statements).foldlM
      (fun r u => addModule p r u.name u.artifact) r) { category := .events }

def makeCategory (p : Project) : Category → Task CategoryResult
  | .queries => makeStatements p .query
  | .mutations => makeStatements p .mutation
  | .crud => makeTables p
  | .events => makeEvents p

/-! ## Writing -/

def writeOutput (p : Project) (path content : Bytes) : Task Unit := do
  Task.writeFile path content
  if p.verbose then Task.print .progress ("Generated " ++ p.relative path ++ "\n")

/-- The names that a generated file declares, with the name of the file. -/
def declarations (m : Module) : List (Bytes × Bytes) :=
  match Go.File.parse m.content with
  | some f => f.declared.map fun name => (name, Path.base m.path)
  | none => []

/-- The first name that is declared a second time, with the files of the last declaration before and
of that one. -/
def firstRepeated? (seen : List (Bytes × Bytes)) :
    List (Bytes × Bytes) → Option (Bytes × Bytes × Bytes)
  | [] => none
  | (name, file) :: rest =>
    match seen.lookup name with
    | some first => some (name, first, file)
    | none => firstRepeated? ((name, file) :: seen) rest

def firstDuplicate? (files : List Module) : Option (Bytes × Bytes × Bytes) :=
  firstRepeated? [] (files.flatMap declarations)

def indexFile : Bytes := Naming.indexStem ++ goExtension

def keptFiles (r : CategoryResult) : List Bytes :=
  (if r.isEmpty then [] else [indexFile]) ++ r.modules.map fun m => Path.base m.path

/-- Whether a pass removes a file of a package: it is a generated one that is no longer made. -/
def isStale (kept : List Bytes) (entry : Bytes × Entry) : Bool :=
  match entry.2 with
  | .dir => false
  | .file content =>
    Path.ext entry.1 == goExtension && !kept.contains entry.1 &&
      generatedHeader.isPrefixOf content

/-- Removes the generated files that a package no longer consists of, and its directory when nothing
is left. Other files stay. -/
def prune (p : Project) (r : CategoryResult) : Task Unit := do
  let dir := p.categoryDir r.category
  match ← Task.listDir dir with
  | none => return
  | some entries =>
    for entry in entries.filter (isStale (keptFiles r)) do
      let path := Path.join [dir, entry.1]
      Task.removeFile path
      Task.report fun x => { x with removed := x.removed ++ [p.relative path] }
      if p.verbose then Task.print .progress ("Removed " ++ p.relative path ++ "\n")
    if r.isEmpty then Task.removeEmptyDir dir

def writeCategory (p : Project) (r : CategoryResult) : Task Unit := do
  let index : CategoryIndex :=
    { category := r.category, sourceDir := r.category.sourceDir p.settings, names := r.names }
  let content ← render p (.categoryIndex r.category) index.artifact
  let files := r.sorted ++
    [{ name := indexFile, path := Path.join [p.categoryDir r.category, indexFile], content }]
  match firstDuplicate? files with
  | some (name, first, second) => throw (.duplicate r.category name first second)
  | none =>
    prune p r
    for file in files do
      writeOutput p file.path file.content
      Task.report fun x => { x with written := x.written ++ [p.relative file.path] }

/-! ## Index of the layer -/

def layerIndexPath (p : Project) : Bytes :=
  Path.join [p.outputDir, Naming.flatName (Path.base p.outputDir) ++ goExtension]

def writeLayerIndex (p : Project) (categories : List Category) : Task Unit := do
  let s ← get
  let package := packageName s.tree s.cwd p.outputDir
  let parts ← categories.mapM fun c => do return (c, ← p.categoryImport c)
  let index : LayerIndex := { package, parts }
  let path := layerIndexPath p
  let content ← render p .layerIndex index.artifact
  writeOutput p path content
  Task.report fun x =>
    { x with written := x.written ++ [p.relative path], indexWritten := true }

/-! ## Pass -/

def generateCategory (p : Project) (c : Category) : Task Unit := do
  let r ← makeCategory p c
  Task.report fun x => { x with results := x.results ++ [r] }
  if r.isEmpty then prune p r else writeCategory p r

/-- A generation pass. Its report is in the session, also when it fails. -/
def generate (p : Project) : Task Unit := do
  modify fun s => { s with templates := [], report := {} }
  for c in Category.generationOrder do
    generateCategory p c
  match (← get).report.nonEmpty with
  | [] =>
    Task.log ("no definitions found, leaving " ++ p.relative (layerIndexPath p) ++ " as it is")
  | categories => writeLayerIndex p categories

end AccessLayer.Layer
