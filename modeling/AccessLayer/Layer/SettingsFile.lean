import AccessLayer.Config.Stored
import AccessLayer.Files.Expand
import AccessLayer.Layer.Session

/-!
# The settings file

* `searchedDir`: the directory in which settings are looked for.
* `loadSettings`: reads the settings of a project.
* `writeSettings`: writes a settings file.
-/

namespace AccessLayer.Layer

def settingsStem : Bytes := "surqlgen"

def settingsFile : Bytes := settingsStem ++ ".yaml"

/-- The names under which settings are looked for, in order. -/
def settingsNames : List Bytes :=
  (["json", "toml", "yaml", "yml", "properties", "props", "prop", "hcl", "tfvars", "dotenv", "env",
    "ini"].map fun e => settingsStem ++ "." ++ Bytes.ofString e) ++ [settingsStem]

def readableExtensions : List Bytes := [".yaml", ".yml", ".json"]

def isFileAt (s : Session) (path : Bytes) : Bool :=
  match s.tree.stat s.cwd path with
  | .ok e => e.isFile
  | .error _ => false

def homeName : Bytes := "HOME"

/-- A path that starts with the variable of the user's directory, with its value. -/
def atHome (env : List (Bytes × Bytes)) (path : Bytes) : Bytes :=
  let home := Path.dollar :: homeName
  if path == home || (home ++ [Path.separator]).isPrefixOf path then
    (env.lookup homeName).getD [] ++ path.drop home.length
  else path

def searchedDir (env : List (Bytes × Bytes)) (root : Bytes) : Bytes :=
  Path.expand env (atHome env root)

/-- The path of the settings file of a root; without a root there is none. -/
def findSettings? (s : Session) (env : List (Bytes × Bytes)) (root : Bytes) : Option Bytes :=
  if root.isEmpty then none
  else (settingsNames.map fun name => Path.join [searchedDir env root, name]).find? (isFileAt s)

def storedSettings (path : Bytes) : Task (List (Bytes × Yaml.Value)) := do
  let s ← get
  match (s.tree.readFile s.cwd path).toOption.bind storedMapping? with
  | some entries => return entries
  | none => throw .settingsUnreadable

/-- The settings of the project at a root. The file is looked for unless one is named; a named one
has to be there. The root may name variables, as long as the file is looked for. -/
def loadSettings (root file : Bytes) (env : List (Bytes × Bytes)) : Task Settings := do
  let stored ←
    if file.isEmpty then
      match findSettings? (← get) env root with
      | some path => storedSettings path
      | none => pure []
    else if readableExtensions.contains (Path.ext file) then storedSettings file
    else throw .settingsUnreadable
  match Settings.ofLayers { stored, env } with
  | none => throw .settingsMistyped
  | some settings =>
    match settings.faults with
    | [] => return settings
    | faults => throw (.settings faults true)

/-- Writes settings to a root as it is spelled and gives the path. A file that is there is kept
unless `force` is set. -/
def writeSettings (root : Bytes) (settings : Settings) (force : Bool) : Task Bytes := do
  let path := Path.join [root, settingsFile]
  let s ← get
  if (s.tree.stat s.cwd path).toOption.isSome && !force then throw (.settingsExist path)
  match s.tree.writeFile s.cwd path (Yaml.write settings.fields) with
  | .error e => throw (.file .writingSettings e)
  | .ok tree =>
    set { s with tree }
    return path

end AccessLayer.Layer
