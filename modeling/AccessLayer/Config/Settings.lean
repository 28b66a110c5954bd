import AccessLayer.Text.Bytes

/-!
# Settings of a project

* `Settings`: where definitions are found, where output goes and how it is named.
* `Settings.default`: the conventional layout.
-/

namespace AccessLayer

/-- The directories of a project. Relative ones are taken from the project root. -/
structure Directories where
  schemas : Bytes := "schemas"
  queries : Bytes := "queries"
  mutations : Bytes := "mutations"
  events : Bytes := "events"
  output : Bytes := "db"
  api : Bytes := "api"
deriving DecidableEq, Repr

def Directories.keyed (d : Directories) : List (Bytes × Bytes) :=
  [("schemas", d.schemas), ("queries", d.queries), ("mutations", d.mutations),
    ("events", d.events), ("output", d.output), ("api", d.api)]

/-- The settings of a project. -/
structure Settings where
  paths : Directories := {}
  extension : Bytes := ".surql"
  exclude : List Bytes := []
  /-- The import path of the project root; read from the module file when empty. -/
  module : Bytes := []
  /-- The directory or the import path of the response types. -/
  typesPackage : Bytes := "types"
  readOnlyTables : List Bytes := [Bytes.ofString "script_migration"]
  /-- A directory with templates that replace built-in ones. -/
  templatesDir : Bytes := []
deriving DecidableEq, Repr

namespace Settings

def default : Settings := {}

def isReadOnly (s : Settings) (table : Bytes) : Bool := s.readOnlyTables.contains table

/-- The directories that hold definitions, in the order in which they are watched. -/
def watchDirs (s : Settings) : List Bytes :=
  [s.paths.schemas, s.paths.events, s.paths.queries, s.paths.mutations]

end Settings

end AccessLayer
