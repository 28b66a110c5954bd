import AccessLayer.Config.Settings
import AccessLayer.Yaml.Written

/-!
# Stored settings

Settings are stored as a mapping. Values of other kinds than asked for are taken where their meaning
is clear: a number or a truth value for a text, and a text with commas for a list.

* `Settings.fields`: settings as they are written.
* `Settings.ofLayers`: settings from a stored mapping and the environment.
-/

namespace AccessLayer

open Yaml

namespace Settings

def fields (s : Settings) : List (Bytes × Field) :=
  [("paths", .group s.paths.keyed), ("extension", .text s.extension),
    ("exclude", .texts s.exclude), ("module", .text s.module),
    ("types_package", .text s.typesPackage), ("read_only_tables", .texts s.readOnlyTables),
    ("templates_dir", .text s.templatesDir)]

end Settings

/-! ## Kinds of values -/

def Yaml.Scalar.asText? : Scalar → Option Bytes
  | .null => some []
  | .flag b => some (if b then "1" else "0")
  | .number t => some t
  | .text s => some s
  | .timestamp => none

namespace Yaml.Value

def asText? : Value → Option Bytes
  | scalar s => s.asText?
  | _ => none

/-- The list of texts that a value gives. A text is split at its commas. -/
def asTexts? : Value → Option (List Bytes)
  | list items => items.mapM asText?
  | map [] => some []
  | map _ => none
  | scalar (.text s) => some (if s.isEmpty then [] else Bytes.splitOn (Bytes.byte ',') s)
  | scalar s => s.asText?.map fun t => [t]

def isNull : Value → Bool
  | scalar .null => true
  | _ => false

def entryAt? (v : Value) (key : Bytes) : Option Value :=
  match v with
  | map entries => entries.lookup key
  | _ => none

end Yaml.Value

/-! ## Layers -/

/-- Where settings come from. -/
structure Layers where
  /-- The stored mapping, with keys in lower case. -/
  stored : List (Bytes × Value) := []
  env : List (Bytes × Bytes) := []

namespace Layers

def variableStart : Bytes := "SURQLGEN_"

/-- The variable for a key; an empty one does not count. -/
def lookup? (l : Layers) (key : Bytes) : Option Bytes :=
  match l.env.lookup (variableStart ++ Bytes.toUpper key) with
  | some v => if v.isEmpty then none else some v
  | none => none

/-- The stored value for a key; nothing does not count. -/
def stored? (l : Layers) (key : Bytes) : Option Value :=
  match l.stored.lookup key with
  | some v => if v.isNull then none else some v
  | none => none

/-- The value for a key: the variable wins over the stored value. -/
def value? (l : Layers) (key : Bytes) : Option Value :=
  ((l.lookup? key).map Value.text).or (l.stored? key)

def pathsKey : Bytes := "paths"

/-- The stored value for a directory, under a key with a point or in the mapping of directories. -/
def storedPath? (l : Layers) (key : Bytes) : Option Value :=
  (l.stored? (pathsKey ++ "." ++ key)).or
    (match (l.stored? pathsKey).bind (·.entryAt? key) with
      | some v => if v.isNull then none else some v
      | none => none)

/-- The value for a directory. A variable for all directories hides what is stored. -/
def pathValue? (l : Layers) (key : Bytes) : Option Value :=
  match l.lookup? (pathsKey ++ "_" ++ key) with
  | some v => some (.text v)
  | none => if (l.lookup? pathsKey).isSome then some .null else l.storedPath? key

def variableNames : List Bytes :=
  let dirs := (Directories.keyed {}).map fun d => pathsKey ++ "_" ++ d.1
  let keys : List Bytes := ["extension", "exclude", "module", "types_package", "read_only_tables",
    "templates_dir", pathsKey]
  (keys ++ dirs).map fun key => variableStart ++ Bytes.toUpper key

end Layers

def orDefault {α : Type} (decode : Value → Option α) (v : Option Value) (default : α) : Option α :=
  match v with
  | some v => decode v
  | none => some default

/-- The directories from their layers; `none` when a value has the wrong kind. Directories that are
stored as nothing are the conventional ones, whatever the variables say. -/
def Directories.ofLayers (l : Layers) : Option Directories :=
  let d : Directories := {}
  let get (key default : Bytes) : Option Bytes := orDefault Value.asText? (l.pathValue? key) default
  let each : Option Directories := do
    return { schemas := ← get "schemas" d.schemas
             queries := ← get "queries" d.queries
             mutations := ← get "mutations" d.mutations
             events := ← get "events" d.events
             output := ← get "output" d.output
             api := ← get "api" d.api }
  match l.stored.lookup Layers.pathsKey with
  | none | some (.map _) => each
  | some (.scalar .null) => if (l.lookup? Layers.pathsKey).isSome then none else some d
  | some _ => none

/-- Settings from their layers; `none` when a value has the wrong kind. -/
def Settings.ofLayers (l : Layers) : Option Settings := do
  let d : Settings := {}
  let text (key default : Bytes) : Option Bytes := orDefault Value.asText? (l.value? key) default
  let texts (key : Bytes) (default : List Bytes) : Option (List Bytes) :=
    orDefault Value.asTexts? (l.value? key) default
  return { paths := ← Directories.ofLayers l
           extension := ← text "extension" d.extension
           exclude := ← texts "exclude" d.exclude
           module := ← text "module" d.module
           typesPackage := ← text "types_package" d.typesPackage
           readOnlyTables := ← texts "read_only_tables" d.readOnlyTables
           templatesDir := ← text "templates_dir" d.templatesDir }

/-! ## Stored texts -/

mutual

def Yaml.Value.lowerKeys : Value → Value
  | .map entries => .map (lowerEntries entries)
  | v => v

def lowerEntries : List (Bytes × Value) → List (Bytes × Value)
  | [] => []
  | (k, v) :: rest => (Bytes.toLower k, v.lowerKeys) :: lowerEntries rest

end

/-- The mapping that a text stores; a text without content stores an empty one. -/
def storedMapping? (text : Bytes) : Option (List (Bytes × Value)) :=
  match Value.parse? text with
  | some (.map entries) => some (lowerEntries entries)
  | some (.scalar .null) => some []
  | _ => none

end AccessLayer
