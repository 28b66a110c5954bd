import AccessLayer.Surql.Kind
import AccessLayer.Surql.Value

/-!
# Statements

The statements of a definition file. Tables, fields and events are kept in detail; every other
statement is kept as its source text.

* `Statement`: one statement.
* `tables`, `fields`, `events`: the definitions of one sort, in file order.
-/

namespace AccessLayer.Surql

/-- `DEFINE TABLE name …`. -/
structure TableDef where
  pos : Nat
  name : Bytes
  schemafull : Bool
  drop : Bool
deriving Repr

/-- `DEFINE FIELD name ON table …`. -/
structure FieldDef where
  pos : Nat
  name : Bytes
  table : Bytes
  kind : Option Kind := none
  value : Option Value := none
  default : Option Value := none
  assert : Option Value := none
  flexible : Bool := false
  readonly : Bool := false
deriving Repr

/-- `DEFINE EVENT name ON table WHEN … THEN …`. -/
structure EventDef where
  pos : Nat
  name : Bytes
  table : Bytes
  when? : Option Value := none
  actions : List Value := []
deriving Repr

/-- One statement of a definition file. -/
inductive Statement where
  | table (d : TableDef)
  | field (d : FieldDef)
  | event (d : EventDef)
  /-- Any other definition, as its source text. -/
  | define (pos : Nat) (kind raw : Bytes)
  /-- Any statement that is no definition, as its source text. -/
  | raw (pos : Nat) (keyword raw : Bytes)
deriving Repr

def tables (statements : List Statement) : List TableDef :=
  statements.filterMap fun
    | .table d => some d
    | _ => none

def fields (statements : List Statement) : List FieldDef :=
  statements.filterMap fun
    | .field d => some d
    | _ => none

def events (statements : List Statement) : List EventDef :=
  statements.filterMap fun
    | .event d => some d
    | _ => none

end AccessLayer.Surql
