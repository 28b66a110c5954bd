import AccessLayer.Surql.Statement

/-!
# Fields of a record struct

The fields that a table defines become the fields of a Go struct. A field that is defined twice
keeps the place of its first definition and takes the type of its last.

* `structFields`: the fields of a struct.
-/

namespace AccessLayer.Record

open Surql

def recordIdType : Bytes := "models.RecordID"

/-- The Go type of a field: links are kept apart, everything else is text. -/
def goType (kind : Option Kind) : Bytes :=
  match kind with
  | some k => if k.name == Kind.recordName then recordIdType else "string"
  | none => "string"

def idName : Bytes := "id"

/-- A field of a struct, by its name in the database. -/
structure StructField where
  name : Bytes
  type : Bytes
deriving DecidableEq, Repr

/-- Sets the type of a field, at its place if it is there and at the end if it is not. -/
def put (fields : List StructField) (f : StructField) : List StructField :=
  if fields.any (·.name == f.name) then
    fields.map fun g => if g.name == f.name then f else g
  else fields ++ [f]

/-- The fields of a struct, in the order in which their names first appear. With `withId` the
record's own id comes first. -/
def structFields (defs : List FieldDef) (withId : Bool) : List StructField :=
  (defs.map fun d => ⟨d.name, goType d.kind⟩).foldl put
    (if withId then [⟨idName, recordIdType⟩] else [])

def fieldsOf (defs : List FieldDef) (table : Bytes) : List FieldDef :=
  defs.filter (·.table == table)

end AccessLayer.Record
