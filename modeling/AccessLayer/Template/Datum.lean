import AccessLayer.Query.Flatten

/-!
# Template data

What a template is filled with: texts, switches, lists and records with named fields.

* `Datum`: a value of a template.
* `Datum.isTrue`: whether a condition on the value holds.
* `Datum.display`: the value as it is printed.
-/

namespace AccessLayer.Template

/-- What kind of thing a record describes. -/
inductive RecordKind where
  | context
  | variable_
  | parameter
  | field
  | sentinel
deriving DecidableEq, Repr, Inhabited

/-- A value of a template. -/
inductive Datum where
  | text (s : Bytes)
  | flag (b : Bool)
  | number (n : Int)
  | texts (ss : List Bytes)
  | record (kind : RecordKind) (fields : List (String × Datum))
  | records (kind : RecordKind) (items : List (List (String × Datum)))
deriving Repr, Inhabited

namespace Datum

/-- Whether a condition on the value holds: it is neither empty, zero nor false. -/
def isTrue : Datum → Bool
  | text s => !s.isEmpty
  | flag b => b
  | number n => n != 0
  | texts ss => !ss.isEmpty
  | record _ _ => true
  | records _ items => !items.isEmpty

def field? (d : Datum) (name : Bytes) : Option Datum :=
  match d with
  | record _ fields => (fields.find? fun f => name == Bytes.ofString f.1).map (·.2)
  | _ => none

/-- The values that a loop over the value goes through; `none` when it cannot be looped over. -/
def elements? : Datum → Option (List Datum)
  | texts ss => some (ss.map text)
  | records kind items => some (items.map (record kind))
  | _ => none

/-- How many elements a value has, bytes for a text. -/
def length? : Datum → Option Nat
  | text s => some s.length
  | texts ss => some ss.length
  | records _ items => some items.length
  | _ => none

/-- The value as it is printed inside of another one. A record's fields are printed in order; a list
in a record of a list is not reached by the data of this program. -/
def displayFlat : Datum → Bytes
  | text s => s
  | flag b => if b then "true" else "false"
  | number n => Bytes.ofString (toString n)
  | texts ss => "[" ++ Bytes.join " " ss ++ "]"
  | record _ _ | records _ _ => []

def displayRecord (fields : List (String × Datum)) : Bytes :=
  "\x7b" ++ Bytes.join " " (fields.map fun f => displayFlat f.2) ++ "\x7d"

def displayRecords (items : List (List (String × Datum))) : Bytes :=
  "[" ++ Bytes.join " " (items.map displayRecord) ++ "]"

def display : Datum → Bytes
  | record _ fields =>
    let show_ (d : Datum) : Bytes := match d with
      | records _ items => displayRecords items
      | e => displayFlat e
    "\x7b" ++ Bytes.join " " (fields.map fun f => show_ f.2) ++ "\x7d"
  | records _ items => displayRecords items
  | d => displayFlat d

def toItem : Datum → Query.Item
  | text s => .text s
  | texts ss => .texts ss
  | records .variable_ items =>
    .variables (items.map fun fields =>
      match (record .variable_ fields).field? "Name" with
      | some (text s) => s
      | _ => [])
  | _ => .unknown

end Datum

end AccessLayer.Template
