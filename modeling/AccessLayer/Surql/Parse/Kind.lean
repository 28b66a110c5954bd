import AccessLayer.Surql.Cursor
import AccessLayer.Surql.Kind

/-!
# Reading type expressions

A type is a name with arguments between angle brackets, or a literal; several types divided by bars
are an alternation. The readers take the reader of the nested types as an argument, and `kindFuel`
ties the knot with one unit of fuel for each token.

* `kind`: reads one type expression.
-/

namespace AccessLayer.Surql

open Reader

namespace Kind

/-- The types between angle brackets: at least one, divided by commas. -/
def arguments (nested : Reader Kind) : (fuel : Nat) → Reader (List Kind)
  | 0 => exhausted
  | fuel + 1 => do
    let k ← nested
    if ← check .comma then
      discard advance
      return k :: (← arguments nested fuel)
    else return [k]

/-- The arguments a name takes: an alternation as the argument of a record stands for its
members. -/
def spread (name : Bytes) (args : List Kind) : List Kind :=
  args.flatMap fun k =>
    if name == recordName && k.name == eitherName then k.args else [k]

/-- A named type with its arguments or a literal type. -/
def single (nested : Reader Kind) (fuel : Nat) : Reader Kind := do
  let t ← advance
  match t.kind with
  | .ident =>
    let name := Bytes.toLower t.literal
    if ← check .lt then
      discard advance
      let args ← arguments nested fuel
      expect .gt
      return mk name (spread name args) []
    else return mk name [] []
  | .string => return ofLiteral (Bytes.quote t.literal)
  | .number | .duration => return ofLiteral t.literal
  | .lbrace | .lbracket =>
    skipBalanced
    return ofLiteral (← raw t.start.offset)
  | _ => failAt t (.expectedType t)

def alternatives (one : Reader Kind) : (fuel : Nat) → Reader (List Kind)
  | 0 => exhausted
  | fuel + 1 => do
    if (← peek).isOperator "|" then
      discard advance
      let k ← one
      return k :: (← alternatives one fuel)
    else return []

def alternation (one : Reader Kind) (fuel : Nat) : Reader Kind := do
  let first ← one
  match ← alternatives one fuel with
  | [] => return first
  | others => return mk eitherName (first :: others) []

end Kind

def kindFuel : Nat → Reader Kind
  | 0 => exhausted
  | fuel + 1 => Kind.alternation (Kind.single (kindFuel fuel) fuel) fuel

def kind : Reader Kind := do kindFuel ((← get).rest.length + 1)

end AccessLayer.Surql
