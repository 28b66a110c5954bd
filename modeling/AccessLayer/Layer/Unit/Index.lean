import AccessLayer.Layer.Artifact
import AccessLayer.Layer.Project

/-!
# Indexes

Each package of the access layer has a source that lists its modules and declares its errors, and
the layer itself has one that lists its packages.

* `CategoryIndex`: the index of a package.
* `LayerIndex`: the index of the layer.
-/

namespace AccessLayer.Layer

/-- An error that a package declares. -/
structure Sentinel where
  name : Bytes
  doc : Bytes
  message : Bytes
deriving DecidableEq, Repr

def noResult : Sentinel :=
  { name := "ErrNoResult"
    doc := "is returned when the database sends back no statement result."
    message := "no result" }

def notFound : Sentinel :=
  { name := "ErrNotFound"
    doc := "is returned by the Get functions when the record does not exist."
    message := "record not found" }

namespace Category

def sentinels : Category → List Sentinel
  | queries | mutations => [noResult]
  | crud => [notFound]
  | events => []

def sourceDir (c : Category) (s : Settings) : Bytes :=
  match c with
  | queries => s.paths.queries
  | mutations => s.paths.mutations
  | crud => s.paths.schemas
  | events => s.paths.events

end Category

/-- The index of a package. -/
structure CategoryIndex where
  category : Category
  sourceDir : Bytes
  names : List Bytes
deriving DecidableEq, Repr

namespace CategoryIndex

def modulesName : Bytes := "Generated_Modules"

def sentinelDecl (s : Sentinel) : Documented :=
  { doc := [s.name ++ " " ++ s.doc]
    decl := .variable_ s.name ["errors.New(" ++ Bytes.quote s.message ++ ")"] }

def source (x : CategoryIndex) : Source :=
  { head := [generatedHeader, [], commentLine ("Package " ++ x.category.name ++
      " holds the access functions generated from the " ++ x.sourceDir ++ " definitions.")]
    package := x.category.name
    imports := .single (stdImport "errors")
    decls :=
      { doc :=
          [modulesName ++ " lists the generated modules of this package. The",
           Bytes.ofString "underscore keeps it apart from the names generated from definitions."]
        decl := .variable_ modulesName (textList x.names) } ::
      x.category.sentinels.map sentinelDecl }

def artifact (x : CategoryIndex) : Artifact :=
  { template := .categoryIndex
    source := x.source
    data :=
      [("Header", .text generatedHeader), ("Package", .text x.category.name),
        ("Source", .text x.sourceDir), ("Names", .texts x.names),
        ("Sentinels", .records .sentinel (x.category.sentinels.map fun s =>
          [("Name", .text s.name), ("Doc", .text s.doc), ("Message", .text s.message)]))] }

end CategoryIndex

structure LayerIndex where
  package : Bytes
  parts : List (Category × Bytes)
deriving DecidableEq, Repr

namespace LayerIndex

def categoriesName : Bytes := "Generated_Categories"

def categoryNames (x : LayerIndex) : List Bytes := x.parts.map (·.1.name)

def source (x : LayerIndex) : Source :=
  { head := [generatedHeader, [],
      commentLine ("Package " ++ x.package ++ " is the generated SurrealDB access layer.")]
    package := x.package
    imports := .groups [x.parts.map fun p => { name := "_", literal := Bytes.quote p.2 }]
    decls :=
      [{ doc := [categoriesName ++ " lists the generated packages below this directory."]
         decl := .variable_ categoriesName (textList x.categoryNames) }] }

def artifact (x : LayerIndex) : Artifact :=
  { template := .layerIndex
    source := x.source
    data :=
      [("Header", .text generatedHeader), ("Package", .text x.package),
        ("Imports", .texts (x.parts.map (·.2))), ("Categories", .texts x.categoryNames)] }

end LayerIndex

end AccessLayer.Layer
