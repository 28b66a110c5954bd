import AccessLayer.Layer.Artifact
import AccessLayer.Layer.Project
import AccessLayer.Naming.Plural

/-!
# Table modules

A table gets a record struct and functions that read and, unless it is read-only, write its records.

* `TableUnit`: a table as its module sees it.
* `TableUnit.functions`: the functions of the module.
* `TableUnit.ofStatements`: the tables of a schema file.
-/

namespace AccessLayer.Layer

open Record (GoField)

/-- A table as its module sees it. -/
structure TableUnit where
  table : Bytes
  readOnly : Bool
  fields : List GoField
deriving DecidableEq, Repr

namespace TableUnit

def struct (u : TableUnit) : Bytes := Naming.pascal u.table

def constant (u : TableUnit) : Bytes := u.struct ++ "TableName"

def plural (u : TableUnit) : Bytes := AccessLayer.plural u.struct

/-! ## Functions -/

def idParam : FuncParam := ⟨"id", "any"⟩

def dataParam (u : TableUnit) : FuncParam := ⟨"data", u.struct⟩

def tableArg (u : TableUnit) : Bytes := "models.Table(" ++ u.constant ++ ")"

def recordArg (u : TableUnit) : Bytes := "models.NewRecordID(" ++ u.constant ++ ", id)"

def manyResult (u : TableUnit) : Bytes := "([]" ++ u.struct ++ ", error)"

def oneResult (u : TableUnit) : Bytes := "(*" ++ u.struct ++ ", error)"

/-- The call of a client function, up to the check of its error. -/
def call (u : TableUnit) (function type arg what : Bytes) : List Bytes :=
  (Bytes.ofString "res, err := surrealdb." ++ function ++ "[" ++ type ++ "](ctx, db, " ++ arg ++
    ")") ::
    failWith "nil" (what ++ " " ++ u.table)

def oneBody (u : TableUnit) (function arg what : Bytes) : List Bytes :=
  u.call function u.struct arg what ++ [[], Bytes.ofString "return res, nil"]

def manyBody (u : TableUnit) (function what : Bytes) : List Bytes :=
  u.call function ("[]" ++ u.struct) u.tableArg what ++ [[]] ++
    block "if res == nil" [Bytes.ofString "return nil, nil"] ++
    [[], Bytes.ofString "return *res, nil"]

def getAll (u : TableUnit) : Documented :=
  { doc := ["GetAll" ++ u.plural ++ " returns every " ++ u.table ++ " record."]
    decl := .func ("GetAll" ++ u.plural) callParams u.manyResult
      (u.manyBody "Select" "select all") }

def get (u : TableUnit) : Documented :=
  { doc := ["Get" ++ u.struct ++ " returns the " ++ u.table ++
      " record with the given id, or ErrNotFound."]
    decl := .func ("Get" ++ u.struct) (callParams ++ [idParam]) u.oneResult
      (["rec, err := Find" ++ u.struct ++ "(ctx, db, id)"] ++
        block "if err != nil" [Bytes.ofString "return nil, err"] ++ [[]] ++
        block "if rec == nil"
          [Bytes.ofString "return nil, fmt.Errorf(\"" ++ u.table ++
            ":%v: %w\", id, ErrNotFound)"] ++
        [[], Bytes.ofString "return rec, nil"]) }

def find (u : TableUnit) : Documented :=
  { doc := ["Find" ++ u.struct ++ " returns the " ++ u.table ++
      " record with the given id, or nil when there is none."]
    decl := .func ("Find" ++ u.struct) (callParams ++ [idParam]) u.oneResult
      (u.oneBody "Select" u.recordArg "select") }

def create (u : TableUnit) : Documented :=
  { doc := ["Create" ++ u.struct ++ " stores data as a new " ++ u.table ++ " record."]
    decl := .func ("Create" ++ u.struct) (callParams ++ [u.dataParam]) u.oneResult
      (u.oneBody "Create" (u.tableArg ++ ", data") "create") }

def update (u : TableUnit) : Documented :=
  { doc := ["Update" ++ u.struct ++ " replaces the content of the " ++ u.table ++
      " record with the given id."]
    decl := .func ("Update" ++ u.struct) (callParams ++ [idParam, u.dataParam]) u.oneResult
      (u.oneBody "Update" (u.recordArg ++ ", data") "update") }

def deleteAll (u : TableUnit) : Documented :=
  { doc := ["DeleteAll" ++ u.plural ++ " removes every " ++ u.table ++
      " record and returns them."]
    decl := .func ("DeleteAll" ++ u.plural) callParams u.manyResult
      (u.manyBody "Delete" "delete all") }

def delete (u : TableUnit) : Documented :=
  { doc := ["Delete" ++ u.struct ++ " removes the " ++ u.table ++
      " record with the given id and returns it."]
    decl := .func ("Delete" ++ u.struct) (callParams ++ [idParam]) u.oneResult
      (u.oneBody "Delete" u.recordArg "delete") }

def functions (u : TableUnit) : List Documented :=
  [u.getAll, u.get, u.find] ++
    if u.readOnly then [] else [u.create, u.update, u.deleteAll, u.delete]

/-! ## Module -/

def source (u : TableUnit) : Source :=
  { head := [generatedHeader, []]
    package := Category.crud.name
    imports := .groups
      [[stdImport "context", stdImport "fmt"], [clientImport, modelsImport]]
    decls :=
      [{ doc := [u.constant ++ " is the name of the " ++ u.table ++ " table."]
         decl := .constant u.constant (Bytes.quote u.table) },
       { doc := [u.struct ++ " is a record of the " ++ u.table ++ " table."]
         decl := .struct u.struct u.fields }] ++ u.functions }

def artifact (u : TableUnit) : Artifact :=
  { template := .table
    source := u.source
    data :=
      [("Header", .text generatedHeader), ("Package", .text Category.crud.name),
        ("Table", .text u.table), ("TableConst", .text u.constant), ("Struct", .text u.struct),
        ("Plural", .text u.plural), ("ReadOnly", .flag u.readOnly),
        ("Fields", fieldsData u.fields)] }

def ofTable (settings : Settings) (statements : List Surql.Statement) (table : Bytes) : TableUnit :=
  { table
    readOnly := settings.isReadOnly table
    fields := Record.goFields
      (Record.structFields (Record.fieldsOf (Surql.fields statements) table) true) }

def ofStatements (settings : Settings) (statements : List Surql.Statement) : List TableUnit :=
  (Surql.tables statements).map fun t => ofTable settings statements t.name

end TableUnit

end AccessLayer.Layer
