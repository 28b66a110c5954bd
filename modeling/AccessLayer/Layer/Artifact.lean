import AccessLayer.Layer.GoText
import AccessLayer.Layer.Session
import AccessLayer.Template.Datum

/-!
# What is rendered

A generated file comes from a template. The built-in one is a source; a project may bring its own,
which is filled with the same data.

* `Artifact`: a source, and the data for a template that takes its place.
-/

namespace AccessLayer.Layer

open Record (GoField)
open Template (Datum)

/-- A generated file before it is formatted. -/
structure Artifact where
  template : TemplateName
  source : Source
  data : List (String × Datum)

def fieldData (f : GoField) : List (String × Datum) :=
  [("GoName", .text f.name), ("GoType", .text f.type), ("Tag", .text f.key)]

def fieldsData (fields : List GoField) : Datum := .records .field (fields.map fieldData)

/-- The lines of a function that return an error with a text around it. -/
def failWith (result message : Bytes) : List Bytes :=
  block "if err != nil"
    [Bytes.ofString "return " ++ result ++ ", fmt.Errorf(\"" ++ message ++ ": %w\", err)"]

def textList (texts : List Bytes) : List Bytes :=
  Bytes.ofString "[]string\x7b" :: texts.map (fun t => indent (Bytes.quote t ++ ",")) ++
    [Bytes.ofString "\x7d"]

end AccessLayer.Layer
