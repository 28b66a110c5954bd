import AccessLayer.Surql.Statement

/-!
# Which fields take a value from the caller

A field whose `VALUE` clause does not look at `$value` ignores what a caller passes for it. The
check is conservative: an expression that is kept as source text counts as one that looks.

* `usesValue`: whether a clause may depend on `$value`.
-/

namespace AccessLayer.Record

open Surql

mutual

/-- Whether an expression may depend on `$value`. -/
def exprUsesValue : Value → Bool
  | .literal .. => false
  | .param _ name => name == "value"
  | .call _ _ _ args => anyUsesValue args
  | .binary _ left _ right => exprUsesValue left || exprUsesValue right
  | .other .. => true

def anyUsesValue : List Value → Bool
  | [] => false
  | v :: vs => exprUsesValue v || anyUsesValue vs

end

/-- Whether a field with this clause may depend on `$value`; without a clause it does. -/
def usesValue (clause : Option Value) : Bool := clause.all exprUsesValue

end AccessLayer.Record
