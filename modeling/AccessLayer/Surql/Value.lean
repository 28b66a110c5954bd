import AccessLayer.Text.Rune

/-!
# Expressions

The value expressions of definitions, in as much detail as the generator looks at. Shapes it does
not look into are kept as their source text.

* `Value`: literals, parameters, calls, binary operations and the rest.
* `Value.pos`: the byte offset at which an expression starts.
-/

namespace AccessLayer.Surql

/-- The kinds of literal values. -/
inductive LiteralKind where
  | none
  | null
  | bool
  | number
  | string
  | duration
  | datetime
  | uuid
  | array
  | object
  | record
  | constant
deriving DecidableEq, Repr

/-- The forms of a call. -/
inductive CallKind where
  | normal
  /-- A function of the user, `fn::name(…)`. -/
  | custom
  /-- A cast `<kind> operand`. -/
  | cast
  /-- An embedded script `function(…) …`. -/
  | script
deriving DecidableEq, Repr

/-- The shapes that are kept as source text. -/
inductive OpaqueKind where
  | unary
  | idiom
  | block
  | subquery
  | statement
  | conditional
deriving DecidableEq, Repr

/-- An expression; `pos` is the byte offset of its first token. -/
inductive Value where
  /-- A literal; arrays and objects keep their elements. -/
  | literal (pos : Nat) (kind : LiteralKind) (raw : Bytes) (elems : List Value)
  /-- A parameter, without its dollar sign. -/
  | param (pos : Nat) (name : Bytes)
  | call (pos : Nat) (kind : CallKind) (name : Bytes) (args : List Value)
  | binary (pos : Nat) (left : Value) (op : Bytes) (right : Value)
  /-- Anything else, as its source text. -/
  | other (pos : Nat) (kind : OpaqueKind) (raw : Bytes)
deriving Repr, Inhabited

/-- The byte offset of the first token of an expression. -/
def Value.pos : Value → Nat
  | literal p _ _ _ | param p _ | call p _ _ _ | binary p _ _ _ | other p _ _ => p

end AccessLayer.Surql
