import AccessLayer.Layer.Unit.Index

/-!
# Endpoint sources

An endpoint is an HTTP handler that calls one function of the access layer. It is made once, for a
developer to change, and so it carries no mark of a generated file.

* `Method`: what an endpoint of a table does.
* `Target`: what an endpoint calls.
* `Handler`: an endpoint.
-/

namespace AccessLayer.Layer

open Bytes
open Record (GoField)

/-- What an endpoint of a table does. -/
inductive Method where
  | list
  | get
  | find
  | create
  | update
  | delete
deriving DecidableEq, Repr

namespace Method

def all : List Method := [list, get, find, create, update, delete]

def name : Method → Bytes
  | list => "list"
  | get => "get"
  | find => "find"
  | create => "create"
  | update => "update"
  | delete => "delete"

def ofName? (name : Bytes) : Option Method := all.find? (·.name == name)

def isWriting : Method → Bool
  | list | get | find => false
  | create | update | delete => true

/-- Whether the method works on a record that the request names. -/
def needsId : Method → Bool
  | list | create => false
  | get | find | update | delete => true

def needsBody : Method → Bool
  | list | get | find | delete => false
  | create | update => true

/-- The arguments that a handler passes after the context and the database. -/
def args (m : Method) : List Bytes :=
  (if m.needsId then [ofString "id"] else []) ++
    if m.needsBody then [ofString "data"] else []

end Method

/-- A function of the access layer. -/
structure Callee where
  category : Category
  importPath : Bytes
  function : Bytes
deriving DecidableEq, Repr

/-- What an endpoint calls. -/
inductive Target where
  | stub
  /-- The function of a query or mutation, with the fields of the request and the arguments. -/
  | statement (callee : Callee) (fields : List GoField) (args : List Bytes)
  | event (callee : Callee) (payload : Bytes)
  | table (callee : Callee) (method : Method) (record : Bytes)
deriving DecidableEq, Repr

namespace Target

def callee? : Target → Option Callee
  | stub => none
  | statement c _ _ | event c _ | table c _ _ => some c

def kind : Target → Bytes
  | stub => "stub"
  | statement .. => "statement"
  | event .. => "event"
  | table .. => "schema"

def method? : Target → Option Method
  | table _ m _ => some m
  | _ => none

def struct : Target → Bytes
  | event _ s | table _ _ s => s
  | _ => []

def args : Target → List Bytes
  | statement _ _ args => args
  | table _ m _ => m.args
  | _ => []

def fields : Target → List GoField
  | statement _ fields _ => fields
  | _ => []

end Target

/-- An endpoint. -/
structure Handler where
  package : Bytes
  name : Bytes
  function : Bytes
  target : Target
deriving DecidableEq, Repr

namespace Handler

/-! ## Lines of a handler -/

def refuse (condition message status : Bytes) : List Bytes :=
  block ("if " ++ condition)
    [ofString "http.Error(w, " ++ message ++ ", http." ++ status ++ ")", [],
     ofString "return"]

def decodeBody (target : Bytes) (emptyIsFine : Bool) : List Bytes :=
  refuse ("err := json.NewDecoder(r.Body).Decode(&" ++ target ++ "); err != nil" ++
      if emptyIsFine then ofString " && !errors.Is(err, io.EOF)" else [])
    "err.Error()" "StatusBadRequest"

def encodeResult : List Bytes :=
  block "if err := json.NewEncoder(w).Encode(res); err != nil"
    [ofString "http.Error(w, err.Error(), http.StatusInternalServerError)"]

def jsonHeader : Bytes := "w.Header().Set(\"Content-Type\", \"application/json\")"

def callText (c : Callee) (args : List Bytes) : Bytes :=
  c.category.name ++ "." ++ c.function ++ "(" ++
    join ", " ([ofString "r.Context()", ofString "db"] ++ args) ++ ")"

def callLine (c : Callee) (args : List Bytes) : List Bytes :=
  [ofString "res, err := " ++ callText c args]

def stubBody : List Bytes :=
  ["_ = db", [],
   "http.Error(w, http.StatusText(http.StatusNotImplemented), http.StatusNotImplemented)"]

def statementBody (c : Callee) (fields : List GoField) (args : List Bytes) : List Bytes :=
  (if fields.isEmpty then []
    else block "var req struct" (fields.map fieldLine) ++ [[]] ++ decodeBody "req" true) ++ [[]] ++
    callLine c args ++ refuse "err != nil" "err.Error()" "StatusInternalServerError" ++ [[]] ++
    [jsonHeader, []] ++ encodeResult

def structBody (c : Callee) (struct : Bytes) : List Bytes :=
  [ofString "var data " ++ c.category.name ++ "." ++ struct, []] ++ decodeBody "data" false

def eventBody (c : Callee) (payload : Bytes) : List Bytes :=
  structBody c payload ++ [[]] ++
    refuse ("_, err := " ++ callText c [ofString "data"] ++ "; err != nil")
      "err.Error()" "StatusInternalServerError" ++
    [[], ofString "w.WriteHeader(http.StatusNoContent)"]

def tableBody (c : Callee) (m : Method) (record : Bytes) : List Bytes :=
  (if m.needsId then
    [ofString "id := r.PathValue(\"id\")"] ++
      refuse "id == \"\"" "\"missing id\"" "StatusBadRequest"
  else []) ++
  (if m.needsBody then [] :: structBody c record else []) ++ [[]] ++
  callLine c m.args ++
  block "if err != nil"
    ((if m = .get then
        refuse ("errors.Is(err, " ++ c.category.name ++ "." ++ notFound.name ++ ")") "err.Error()"
          "StatusNotFound"
      else []) ++
      [ofString "http.Error(w, err.Error(), http.StatusInternalServerError)", [],
       ofString "return"]) ++
  if m = .delete then
    [[], ofString "_ = res", [], ofString "w.WriteHeader(http.StatusNoContent)"]
  else
    [[], jsonHeader] ++
      (if m = .create then [ofString "w.WriteHeader(http.StatusCreated)"] else []) ++
      [[]] ++ encodeResult

def body : Target → List Bytes
  | .stub => stubBody
  | .statement c fields args => statementBody c fields args
  | .event c payload => eventBody c payload
  | .table c m record => tableBody c m record

/-! ## Source -/

def source (h : Handler) : Source :=
  { package := h.package
    imports := .groups
      [[stdImport "encoding/json", stdImport "errors", stdImport "io", stdImport "net/http"],
       [clientImport, modelsImport] ++
         (h.target.callee?.map fun c =>
            ({ name := c.category.name, literal := quote c.importPath } : Import)).toList]
    decls :=
      [{ doc := [h.function ++ " serves the " ++ h.name ++ " endpoint."]
         decl := .func h.function [⟨"db", "*surrealdb.DB"⟩] "http.HandlerFunc"
          (block "return func(w http.ResponseWriter, r *http.Request)" (body h.target)) }] }

def artifact (h : Handler) : Artifact :=
  let callee := h.target.callee?
  let method := h.target.method?
  { template := .endpoint
    source := h.source
    data :=
      [("Package", .text h.package), ("Name", .text h.name), ("FuncName", .text h.function),
        ("Kind", .text h.target.kind), ("Method", .text ((method.map (·.name)).getD [])),
        ("Import", .text ((callee.map (·.importPath)).getD [])),
        ("PkgName", .text ((callee.map (·.category.name)).getD [])),
        ("Call", .text ((callee.map (·.function)).getD [])),
        ("Struct", .text h.target.struct), ("Args", .texts h.target.args),
        ("Fields", fieldsData h.target.fields), ("NeedsID", .flag (method.any (·.needsId))),
        ("NeedsBody", .flag (method.any (·.needsBody)))] }

end Handler

end AccessLayer.Layer
