import AccessLayer.Files.Tree
import AccessLayer.Layer.Failure
import AccessLayer.Template.Syntax

/-!
# Sessions

A session is what a run of the program changes: the file tree, the log, what it prints, the
templates it has read and the report of the pass. A task may fail, and what it did before it failed
stays done.

* `Session`: the state.
* `Task`: something that is done in a session.
* `Task.readFile`, `Task.listDir`, `Task.writeFile`, `Task.log`, `Task.print`: the basic tasks.
-/

namespace AccessLayer.Layer

/-- The templates, by what they render. -/
inductive TemplateName where
  | statement
  | table
  | event
  | categoryIndex
  | layerIndex
  | endpoint
deriving DecidableEq, Repr

def TemplateName.file : TemplateName → Bytes
  | statement => "query.go.tmpl"
  | table => "crud.go.tmpl"
  | event => "event.go.tmpl"
  | categoryIndex => "category.go.tmpl"
  | layerIndex => "index.go.tmpl"
  | endpoint => "endpoint.go.tmpl"

/-- A template that was read. -/
inductive LoadedTemplate where
  /-- The project has none of its own. -/
  | builtIn
  /-- The project's own template, and the length of its text. -/
  | own (parts : List Template.Node) (size : Nat)

/-- A generated file. -/
structure Module where
  name : Bytes
  path : Bytes
  content : Bytes
deriving DecidableEq, Repr

/-- The modules that were made for a package, each name once. -/
structure CategoryResult where
  category : Category
  modules : List Module := []
deriving DecidableEq, Repr

namespace CategoryResult

def isEmpty (r : CategoryResult) : Bool := r.modules.isEmpty

def has (r : CategoryResult) (name : Bytes) : Bool := r.modules.any (·.name == name)

/-- Adds a module; it takes the place of one with its name. -/
def put (r : CategoryResult) (m : Module) : CategoryResult :=
  if r.has m.name then
    { r with modules := r.modules.map fun n => if n.name == m.name then m else n }
  else { r with modules := r.modules ++ [m] }

def sorted (r : CategoryResult) : List Module := Bytes.sortBy Module.name r.modules

def names (r : CategoryResult) : List Bytes := r.sorted.map (·.name)

end CategoryResult

/-- What a pass has done. Paths are relative to the project root. -/
structure Report where
  results : List CategoryResult := []
  written : List Bytes := []
  removed : List Bytes := []
  indexWritten : Bool := false
deriving DecidableEq, Repr, Inhabited

/-- The packages with modules, in the order in which they are listed. -/
def Report.nonEmpty (r : Report) : List Category :=
  Category.indexOrder.filter fun c => r.results.any fun x => x.category == c && !x.isEmpty

def Report.names (r : Report) (c : Category) : List Bytes :=
  ((r.results.find? (·.category == c)).map (·.names)).getD []

/-- What a printed text is for. -/
inductive Channel where
  | progress
  | outcome
deriving DecidableEq, Repr

/-- The state of a run. -/
structure Session where
  tree : Tree := {}
  cwd : Place := []
  log : List Bytes := []
  printed : List (Channel × Bytes) := []
  /-- The templates that were read since the last pass began. -/
  templates : List (TemplateName × LoadedTemplate) := []
  report : Report := {}

def Session.printedFor (s : Session) (c : Channel) : Bytes :=
  s.printed.flatMap fun p => if p.1 == c then p.2 else []

abbrev Task := ExceptT Failure (StateM Session)

namespace Task

def runIn {α : Type} (t : Task α) (s : Session) : Except Failure α × Session := t.run.run s

def log (line : Bytes) : Task Unit := modify fun s => { s with log := s.log ++ [line] }

def print (channel : Channel) (text : Bytes) : Task Unit :=
  modify fun s => { s with printed := s.printed ++ [(channel, text)] }

def report (f : Report → Report) : Task Unit := modify fun s => { s with report := f s.report }

def readFile (path : Bytes) : Task Bytes := do
  let s ← get
  match s.tree.readFile s.cwd path with
  | .ok content => return content
  | .error e => throw (.file (.reading path) e)

/-- The names in a directory with their entries; `none` when there is no directory. -/
def listDir (dir : Bytes) : Task (Option (List (Bytes × Entry))) := do
  let s ← get
  match s.tree.readDir s.cwd dir with
  | .ok entries => return some entries
  | .error e => if e.fault == .notFound then return none else throw (.file (.listing dir) e)

/-- Writes a file and creates the directories above it. Those created stay when it fails. -/
def writeFile (path content : Bytes) : Task Unit := do
  let s ← get
  let (tree, fault) := s.tree.makeDirsFrom [] (Path.names (Path.dir path))
  set { s with tree }
  match fault with
  | some e => throw (.file (.makingRoomFor path) e)
  | none =>
    match tree.writeFile s.cwd path content with
    | .error e => throw (.file (.writing path) e)
    | .ok tree => set { s with tree }

def removeFile (path : Bytes) : Task Unit := do
  let s ← get
  match s.tree.remove s.cwd path with
  | .error e => throw (.file (.removing path) e)
  | .ok tree => set { s with tree }

def removeEmptyDir (path : Bytes) : Task Unit := modify fun s =>
  match s.tree.remove s.cwd path with
  | .error _ => s
  | .ok tree => { s with tree }

end Task

end AccessLayer.Layer
