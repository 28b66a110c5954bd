import AccessLayer.Layer.GoModule
import AccessLayer.Naming.Case
import AccessLayer.Surql.Parse.Statement

/-!
# Projects

A project is a directory with settings that have no faults.

* `Project.ofSettings`: the project at a root.
* `Project.sources`: the definition files of a directory.
* `Project.importPath`: the import path of a directory.
-/

namespace AccessLayer.Layer

/-- The first line of every generated file. -/
def generatedHeader : Bytes := "// Code generated by surqlgen. DO NOT EDIT."

def goExtension : Bytes := ".go"

/-- A project with its settings. -/
structure Project where
  root : Bytes
  settings : Settings
  exclude : List Glob
  /-- Whether written and removed files are printed. -/
  verbose : Bool := false

namespace Project

def ofSettings (root : Bytes) (settings : Settings) (verbose : Bool) : Except Failure Project :=
  match settings.faults with
  | [] =>
    .ok { root := Path.clean root, settings, verbose
          exclude := settings.exclude.filterMap fun p => (Glob.parse p).toOption }
  | faults => .error (.settings faults false)

def place (p : Project) (path : Bytes) : Bytes := Path.resolve p.root path

def outputDir (p : Project) : Bytes := p.place p.settings.paths.output

def categoryDir (p : Project) (c : Category) : Bytes := Path.join [p.outputDir, c.name]

def templatesDir? (p : Project) : Option Bytes :=
  if p.settings.templatesDir.isEmpty then none else some (p.place p.settings.templatesDir)

/-- The directories that hold definitions, in the order in which they are watched. -/
def watchDirs (p : Project) : List Bytes := p.settings.watchDirs.map p.place

def relative (p : Project) (path : Bytes) : Bytes := (Path.relative? p.root path).getD path

/-! ## Definition files -/

/-- Whether the settings skip a file. A pattern is held against its way from the root and its name.
-/
def isExcluded (p : Project) (path : Bytes) : Bool :=
  p.exclude.any fun g => g.admits (p.relative path) || g.admits (Path.base path)

def isSource (p : Project) (dir : Bytes) (entry : Bytes × Entry) : Bool :=
  entry.2.isFile && Path.ext entry.1 == p.settings.extension &&
    !p.isExcluded (Path.join [dir, entry.1])

/-- The definition files among the names of a directory, in byte order. -/
def sourcesAmong (p : Project) (dir : Bytes) (entries : List (Bytes × Entry)) : List Bytes :=
  Bytes.sort ((entries.filter (p.isSource dir)).map fun e => Path.join [dir, e.1])

def sources (p : Project) (dir : Bytes) : Task (List Bytes) := do
  let dir := p.place dir
  return p.sourcesAmong dir ((← Task.listDir dir).getD [])

def statements (p : Project) (c : Category) (path : Bytes) : Task (List Surql.Statement) := do
  match Surql.parse (← Task.readFile path) with
  | .ok statements => return statements
  | .error e => throw (.source c (p.relative path) e)

/-! ## Go names -/

def importPath (p : Project) (dir : Bytes) : Task Bytes :=
  if p.settings.module.isEmpty then findImportPath dir
  else return importPathIn p.settings.module p.root dir

def categoryImport (p : Project) (c : Category) : Task Bytes := p.importPath (p.categoryDir c)

/-- Whether a path starts with the name of a host, as import paths of other modules do. -/
def namesHost (path : Bytes) : Bool :=
  (Bytes.cut Path.separator path).1.contains (Bytes.byte '.')

def typesImport (p : Project) : Task Bytes :=
  if namesHost p.settings.typesPackage then return p.settings.typesPackage
  else p.importPath (p.place p.settings.typesPackage)

end Project

/-- The package that a Go source names in its first package line. -/
def packageClause? (text : Bytes) : Option Bytes :=
  (Bytes.splitOn (Bytes.byte '\n') text).findSome? fun line =>
    (Bytes.dropFront? "package " (Bytes.trim line)).map fun rest =>
      (Bytes.cut (Bytes.byte ' ') (Bytes.trim rest)).1

/-- The package that a file of a directory names. Generated files and tests do not count. -/
def packageOfEntry? (entry : Bytes × Entry) : Option Bytes :=
  match entry.2 with
  | .dir => none
  | .file text =>
    if !goExtension.isSuffixOf entry.1 || (Bytes.ofString "_test.go").isSuffixOf entry.1 ||
        Bytes.hasPart generatedHeader text then none
    else packageClause? text

/-- The package that a directory holds: the one that its files name, or one named after it. -/
def packageName (tree : Tree) (cwd : Place) (dir : Bytes) : Bytes :=
  let named := match tree.readDir cwd dir with
    | .ok entries => entries.findSome? packageOfEntry?
    | .error _ => none
  named.getD (Naming.sanitize (Path.base dir))

end AccessLayer.Layer
