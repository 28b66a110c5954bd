import AccessLayer.Text.Bytes

/-!
# Categories of the access layer

An access layer has four packages, one for each sort of definition.

* `Category`: the four packages.
* `Category.generationOrder`, `Category.indexOrder`: the order in which they are made and listed.
-/

namespace AccessLayer.Layer

/-- A package of the access layer. -/
inductive Category where
  | crud
  | events
  | mutations
  | queries
deriving DecidableEq, Repr, Inhabited

namespace Category

def name : Category → Bytes
  | crud => "crud"
  | events => "events"
  | mutations => "mutations"
  | queries => "queries"

def generationOrder : List Category := [queries, mutations, crud, events]

def indexOrder : List Category := [crud, events, mutations, queries]

end Category

end AccessLayer.Layer
