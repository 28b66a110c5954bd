import AccessLayer.Go.Keyword
import AccessLayer.Naming.Case
import AccessLayer.Query.Annotation
import AccessLayer.Query.ParamType

/-!
# Parameters of a generated function

Every annotation of a query becomes a parameter of its function. The names are made distinct by
numbers, and a variable that is declared more than once is bound to its last parameter.

* `paramName?`: the Go name of a variable.
* `Signature`: the parameters, the bindings and the warnings of a query.
* `Signature.ofVariables?`: the signature of a list of annotations.
-/

namespace AccessLayer.Query

/-- The identifiers that generated functions use themselves. -/
def reservedNames : List Bytes := ["ctx", "db", "vars", "res", "err", "data", "id"]

def startsWithDigit (name : Bytes) : Bool := (Bytes.chars name).head?.any isDigit

/-- The Go parameter name of a variable. A name without words has none. -/
def paramName? (name : Bytes) : Option Bytes :=
  (Naming.camel? name).map fun ident =>
    let ident := if startsWithDigit ident then "p" ++ ident else ident
    if Go.isKeyword ident || reservedNames.contains ident then ident ++ "Param" else ident

/-- A parameter of a generated function: its Go name, its Go type and the variable it binds. -/
structure Param where
  name : Bytes
  type : Bytes
  binds : Bytes
deriving DecidableEq, Repr

/-- The parameters of a query. -/
structure Signature where
  params : List Param := []
  /-- One parameter for each variable, in the order of first declarations. -/
  bindings : List Param := []
  /-- The variables that are declared again, once for each time. -/
  repeated : List Bytes := []
deriving DecidableEq, Repr

namespace Signature

/-- The name with a number when it was taken `earlier` times before. -/
def numbered (ident : Bytes) (earlier : Nat) : Bytes :=
  if earlier == 0 then ident else ident ++ Bytes.ofNat (earlier + 1)

/-- Adds the parameter of one more variable; `idents` are the plain names of those before. -/
def push (s : Signature) (idents : List Bytes) (ident : Bytes) (v : Variable) : Signature :=
  let p : Param := ⟨numbered ident (idents.count ident), paramType v.type, v.name⟩
  if s.bindings.any (·.binds == v.name) then
    { params := s.params ++ [p]
      bindings := s.bindings.map fun b => if b.binds == v.name then p else b
      repeated := s.repeated ++ [v.name] }
  else { s with params := s.params ++ [p], bindings := s.bindings ++ [p] }

def extend? (s : Signature) (idents : List Bytes) : List Variable → Option Signature
  | [] => some s
  | v :: vs => do
    let ident ← paramName? v.name
    extend? (s.push idents ident v) (idents ++ [ident]) vs

def ofVariables? (vars : List Variable) : Option Signature := extend? {} [] vars

/-- What is logged about the repeated variables of a file. -/
def warnings (s : Signature) (source : Bytes) : List Bytes :=
  s.repeated.map fun v => "WARNING: " ++ source ++ " declares $" ++ v ++ " more than once"

end Signature

def paramList (params : List Param) : Bytes :=
  Bytes.join ", " (params.map fun p => p.name ++ " " ++ p.type)

end AccessLayer.Query
