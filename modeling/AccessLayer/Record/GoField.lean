import AccessLayer.Naming.Case
import AccessLayer.Record.Field

/-!
# Fields as they are written in Go

* `GoField`: a field of a Go struct.
* `goFields`: the fields of a struct, without the nested ones.
-/

namespace AccessLayer.Record

/-- A field of a Go struct: its name, its type and its JSON key. -/
structure GoField where
  name : Bytes
  type : Bytes
  key : Bytes
deriving DecidableEq, Repr

/-- Whether a field lies inside of another one, as `address.city` and `tags[*]` do. -/
def isNested (name : Bytes) : Bool :=
  name.any fun b => b == Bytes.byte '.' || b == Bytes.byte '[' || b == Bytes.byte '*'

/-- The Go field of a field. The record's own id may be left out of JSON, and as a link it is a
pointer. -/
def goField (f : StructField) : GoField :=
  if f.name == idName then
    { name := "ID", type := if f.type == recordIdType then "*" ++ recordIdType else f.type
      key := "id,omitempty" }
  else { name := Naming.pascal f.name, type := f.type, key := f.name }

/-- The Go fields of a struct. A nested field belongs to the one that holds it and is left out. -/
def goFields (fields : List StructField) : List GoField :=
  (fields.filter fun f => !isNested f.name).map goField

end AccessLayer.Record
