import AccessLayer.Text.Bytes

/-!
# Decimal fractions in double precision

A decimal fraction that is read into a double is shown by the fewest digits that read back as the
same double. All arithmetic is exact, on natural numbers.

* `Decimal`: a decimal fraction.
* `Double.shortest`: the fewest digits that read back.
* `Decimal.text`: a decimal fraction in positional form.
-/

namespace AccessLayer

/-- The number `digits · 10 ^ exponent`. -/
structure Decimal where
  digits : Nat
  exponent : Int
deriving DecidableEq, Repr

/-- The number `mantissa · 2 ^ exponent`, with a mantissa below `2 ^ 53`. -/
structure Double where
  mantissa : Nat
  exponent : Int
deriving DecidableEq, Repr

/-- A positive fraction. -/
structure Ratio where
  num : Nat
  den : Nat

namespace Ratio

/-- The number `n · base ^ e`. -/
def scaled (n base : Nat) (e : Int) : Ratio :=
  if 0 ≤ e then ⟨n * base.pow e.toNat, 1⟩ else ⟨n, base.pow (-e).toNat⟩

def le (a b : Ratio) : Bool := a.num * b.den ≤ b.num * a.den

def lt (a b : Ratio) : Bool := !b.le a

def distance (a b : Ratio) : Ratio :=
  let x := a.num * b.den
  let y := b.num * a.den
  ⟨if x ≤ y then y - x else x - y, a.den * b.den⟩

/-- The quotient of two numbers, rounded down. -/
def floorDiv (a b : Ratio) : Nat := (a.num * b.den) / (a.den * b.num)

/-- The number rounded to an integer, a half to the even neighbour. -/
def round (a : Ratio) : Nat :=
  let q := a.num / a.den
  let r := a.num % a.den
  if 2 * r < a.den then q else if a.den < 2 * r then q + 1 else q + q % 2

end Ratio

namespace Double

def minExponent : Int := -1074

def maxExponent : Int := 971

def value (d : Double) : Ratio := .scaled d.mantissa 2 d.exponent

/-- The double next to a positive decimal fraction; `none` when it is too large. -/
def nearest? (d : Decimal) : Option Double :=
  let size : Int := (toString d.digits).length + d.exponent
  if d.digits == 0 || size < -400 then some ⟨0, minExponent⟩
  else if 400 < size then none
  else
    let v := Ratio.scaled d.digits 10 d.exponent
    let bits : Int := (Nat.log2 v.num : Int) - Nat.log2 v.den
    let low := if v.lt (.scaled 1 2 bits) then bits - 1 else bits
    let e := max (low - 52) minExponent
    let m := Ratio.round ⟨v.num * (Ratio.scaled 1 2 (-e)).num, v.den * (Ratio.scaled 1 2 (-e)).den⟩
    let (m, e) := if m == Nat.pow 2 53 then (Nat.pow 2 52, e + 1) else (m, e)
    if maxExponent < e then none else some ⟨m, e⟩

def lowerEnd (d : Double) : Ratio :=
  if d.mantissa == Nat.pow 2 52 && minExponent < d.exponent then
    .scaled (4 * d.mantissa - 1) 2 (d.exponent - 2)
  else .scaled (2 * d.mantissa - 1) 2 (d.exponent - 1)

def upperEnd (d : Double) : Ratio := .scaled (2 * d.mantissa + 1) 2 (d.exponent - 1)

/-- Whether a number rounds to the double. The ends do if the mantissa is even. -/
def covers (d : Double) (v : Ratio) : Bool :=
  if d.mantissa % 2 == 0 then d.lowerEnd.le v && v.le d.upperEnd
  else d.lowerEnd.lt v && v.lt d.upperEnd

/-- The exponent of the first decimal digit of a number, up to one. -/
def magnitude (v : Ratio) : Int :=
  (toString v.num).length - (toString v.den).length

/-- The decimal fraction with the last digit at an exponent that is next to the double, if it reads
back. -/
def atExponent? (d : Double) (e : Int) : Option Decimal :=
  let unit := Ratio.scaled 1 10 e
  let low := d.value.floorDiv unit
  let at_ (n : Nat) : Ratio := .scaled n 10 e
  match d.covers (at_ low), d.covers (at_ (low + 1)) with
  | true, true =>
    if (d.value.distance (at_ low)).le (d.value.distance (at_ (low + 1))) then some ⟨low, e⟩
    else some ⟨low + 1, e⟩
  | true, false => some ⟨low, e⟩
  | false, true => some ⟨low + 1, e⟩
  | false, false => none

/-- The decimal fraction with the fewest digits that reads back as the double. -/
def shortest (d : Double) : Decimal :=
  if d.mantissa == 0 then ⟨0, 0⟩
  else
    let top := magnitude d.value + 1
    ((List.range 20).findSome? fun (n : Nat) => d.atExponent? (top - n)).getD ⟨0, 0⟩

end Double

namespace Decimal

/-- The decimal fraction in positional form, without zeros at the end of its fractional part. -/
def text (d : Decimal) : Bytes :=
  let ds := (toString d.digits).toList
  if 0 ≤ d.exponent then
    if d.digits == 0 then "0"
    else Bytes.ofString (String.ofList (ds ++ List.replicate d.exponent.toNat '0'))
  else
    let places := (-d.exponent).toNat
    let padded := List.replicate (places + 1 - ds.length) '0' ++ ds
    let whole := padded.take (padded.length - places)
    let part := ((padded.drop (padded.length - places)).reverse.dropWhile (· == '0')).reverse
    Bytes.ofString (String.ofList (if part.isEmpty then whole else whole ++ ['.'] ++ part))

end Decimal

end AccessLayer
