import AccessLayer.Config.Validate
import AccessLayer.Files.Fault
import AccessLayer.Layer.Category
import AccessLayer.Surql.ParseError

/-!
# What can go wrong

Everything that ends a generation pass, the making of an endpoint or the reading of settings, as a
cause. The wording of each cause is in its `message`.

* `Failure`: the causes.
* `Failure.message`: their wording.
-/

namespace AccessLayer.Layer

/-- What is done with a file when the file system refuses. -/
inductive FileTask where
  | listing (dir : Bytes)
  | reading (path : Bytes)
  | makingRoomFor (path : Bytes)
  | writing (path : Bytes)
  | removing (path : Bytes)
  | readingModuleFile (path : Bytes)
  | writingSettings
deriving DecidableEq, Repr

def FileTask.message : FileTask → Bytes
  | listing dir => "listing " ++ dir
  | reading path => "reading " ++ path
  | makingRoomFor path => "creating directory for " ++ path
  | writing path => "writing " ++ path
  | removing path => "removing " ++ path
  | readingModuleFile path => "reading go.mod at " ++ path
  | writingSettings => "failed to write config"

/-- What is rendered. -/
inductive RenderTask where
  | module (category : Category) (name : Bytes)
  | categoryIndex (category : Category)
  | layerIndex
  | endpoint (name : Bytes)
deriving DecidableEq, Repr

def RenderTask.message : RenderTask → Bytes
  | module category name => "rendering " ++ category.name ++ " " ++ name
  | categoryIndex category => "rendering " ++ category.name ++ " index"
  | layerIndex => "rendering top-level index"
  | endpoint name => "rendering endpoint " ++ name

/-- Why something cannot be rendered. -/
inductive RenderFault where
  | unreadable (path : Bytes) (error : FileError)
  | template
  | notGo
deriving DecidableEq, Repr

/-- The sort of definition that an endpoint is made from. -/
inductive SourceKind where
  | query
  | mutation
  | event
  | schema
deriving DecidableEq, Repr

def SourceKind.label : SourceKind → Bytes
  | query => "Query"
  | mutation => "Mutation"
  | event => "Event"
  | schema => "Schema"

/-- Why a request for an endpoint cannot be satisfied. -/
inductive EndpointFault where
  | nameMissing
  | manySources
  | methodWithoutSchema
  | schemaWithoutMethod (methods : List Bytes)
  | unknownMethod (method : Bytes) (methods : List Bytes)
  | readOnly (table : Bytes)
  | noEvent (path : Bytes)
  | noTable (path : Bytes)
deriving DecidableEq, Repr

def EndpointFault.message : EndpointFault → Bytes
  | nameMissing => "a name is required"
  | manySources =>
    "--from-query, --from-mutation, --from-event and --from-schema are mutually exclusive"
  | methodWithoutSchema => "--method requires --from-schema"
  | schemaWithoutMethod methods =>
    "--from-schema requires --method (one of " ++ Bytes.join ", " methods ++ ")"
  | unknownMethod method methods =>
    "unknown method " ++ Bytes.quote method ++ " (one of " ++ Bytes.join ", " methods ++ ")"
  | readOnly table => "table " ++ table ++ " is read-only"
  | noEvent path => path ++ " defines no event"
  | noTable path => path ++ " defines no table"

/-- Why no import path is known for a directory. -/
inductive ModuleFault where
  | noFile (dir : Bytes)
  /-- The nearest module file names no module. -/
  | noDirective (path : Bytes)
deriving DecidableEq, Repr

def ModuleFault.message : ModuleFault → Bytes
  | noFile dir => "no go.mod found walking up from " ++ dir ++ ": go module not found"
  | noDirective path => "no module directive in " ++ path ++ ": go module not found"

/-- Everything that can go wrong. -/
inductive Failure where
  /-- A definition file cannot be read as SurrealQL. -/
  | source (category : Category) (path : Bytes) (error : Surql.ParseError)
  | sourceMissing (kind : SourceKind) (file : Bytes)
  | module (fault : ModuleFault)
  | duplicate (category : Category) (name first second : Bytes)
  | endpoint (fault : EndpointFault)
  | render (task : RenderTask) (fault : RenderFault)
  | file (task : FileTask) (error : FileError)
  | settings (faults : List SettingsFault) (loaded : Bool)
  | settingsExist (path : Bytes)
  | settingsUnreadable
  | settingsMistyped
  /-- A parameter has a name without words, which gives no identifier. -/
  | unnamedParameter
deriving DecidableEq, Repr

namespace Failure

def message : Failure → Bytes
  | source category path error => category.name ++ ": " ++ path ++ ": " ++ error.message
  | sourceMissing kind name => kind.label ++ " '" ++ name ++ "' does not exist"
  | module fault => fault.message
  | duplicate category name first second =>
    "duplicate declaration: " ++ category.name ++ ": " ++ name ++ " is declared by both " ++
      first ++
      " and " ++ second
  | endpoint fault => "invalid endpoint: " ++ fault.message
  | render task (.unreadable path error) =>
    task.message ++ ": " ++ path ++ ": template not found: " ++ error.message
  | render task _ => task.message
  | file task error => task.message ++ ": " ++ error.message
  | settings faults loaded =>
    (if loaded then "invalid configuration: " else [] : Bytes) ++ Settings.faultText faults
  | settingsExist path => path ++ ": config file already exists"
  | settingsUnreadable => "failed to read config file"
  | settingsMistyped => "failed to unmarshal config"
  | unnamedParameter => "a parameter has no name"

end Failure

end AccessLayer.Layer
