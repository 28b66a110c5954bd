import AccessLayer.Layer.Artifact
import AccessLayer.Layer.Project
import AccessLayer.Record.ValueUse

/-!
# Event modules

An event that fires when a record of its table is created gets a payload struct and a function that
creates such a record.

* `EventUnit`: an event as its module sees it.
* `EventUnit.ofStatements`: the events of a definition file that get a module.
-/

namespace AccessLayer.Layer

open Record (GoField)

/-- An event as its module sees it. The event and its table have one name. -/
structure EventUnit where
  name : Bytes
  fields : List GoField
deriving DecidableEq, Repr

namespace EventUnit

def structOf (name : Bytes) : Bytes := Naming.pascal (name ++ "_data")

def functionOf (name : Bytes) : Bytes := Naming.pascal name

def function (u : EventUnit) : Documented :=
  let struct := structOf u.name
  { doc := [functionOf u.name ++ " creates a " ++ u.name ++ " record, which fires the " ++ u.name ++
      " event."]
    decl := .func (functionOf u.name) (callParams ++ [⟨"data", struct⟩]) ("(*" ++ struct ++
      ", error)")
      (["res, err := surrealdb.Create[" ++ struct ++ "](ctx, db, models.Table(" ++
          Bytes.quote u.name ++ "), data)"] ++
        failWith "nil" ("event " ++ u.name) ++ [[], Bytes.ofString "return res, nil"]) }

def source (u : EventUnit) : Source :=
  { head := [generatedHeader, []]
    package := Category.events.name
    imports := .groups
      [[stdImport "context", stdImport "fmt"], [clientImport, modelsImport]]
    decls :=
      [{ doc := [structOf u.name ++ " is the payload of the " ++ u.name ++ " event."]
         decl := .struct (structOf u.name) u.fields },
       u.function] }

def artifact (u : EventUnit) : Artifact :=
  { template := .event
    source := u.source
    data :=
      [("Header", .text generatedHeader), ("Package", .text Category.events.name),
        ("Name", .text u.name), ("Table", .text u.name), ("Struct", .text (structOf u.name)),
        ("FuncName", .text (functionOf u.name)), ("Fields", fieldsData u.fields)] }

def payloadDefs (statements : List Surql.Statement) (table : Bytes) : List Surql.FieldDef :=
  (Record.fieldsOf (Surql.fields statements) table).filter fun f =>
    f.name != Record.idName && Record.usesValue f.value

/-- The module of an event. It has one if its file defines a table of its name with a field that
takes a value from the caller. -/
def ofEvent? (statements : List Surql.Statement) (name : Bytes) : Option EventUnit :=
  if (Surql.tables statements).any (·.name == name) then
    match payloadDefs statements name with
    | [] => none
    | defs => some { name, fields := Record.goFields (Record.structFields defs false) }
  else none

def ofStatements (statements : List Surql.Statement) : List EventUnit :=
  (Surql.events statements).filterMap fun e => ofEvent? statements e.name

end EventUnit

end AccessLayer.Layer
