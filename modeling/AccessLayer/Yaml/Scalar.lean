import AccessLayer.Text.Decimal
import AccessLayer.Text.Rune

/-!
# What plain YAML scalars mean

A scalar without quotes may stand for nothing, a truth value, a number or a point in time; every
other one is a text.

* `Scalar`: the meaning of a scalar.
* `Scalar.ofPlain`: the meaning of a scalar without quotes.
-/

namespace AccessLayer.Yaml

/-- The meaning of a scalar. -/
inductive Scalar where
  | null
  | flag (b : Bool)
  /-- A number, by its shortest decimal text. -/
  | number (text : Bytes)
  | timestamp
  | text (s : Bytes)
deriving DecidableEq, Repr

namespace Scalar

/-! ## Numbers -/

def digitValue (c : Char) : Nat :=
  if c.isDigit then c.toNat - '0'.toNat else c.toLower.toNat - 'a'.toNat + 10

def digits? (base : Nat) (cs : List Char) : Option Nat :=
  if !cs.isEmpty && cs.all fun c => c.isAlphanum && digitValue c < base then
    some (cs.foldl (fun n c => n * base + digitValue c) 0)
  else none

/-- A number without a sign, in a base that its start names. -/
def natural? (cs : List Char) : Option Nat :=
  match cs with
  | '0' :: 'x' :: rest | '0' :: 'X' :: rest => digits? 16 rest
  | '0' :: 'b' :: rest | '0' :: 'B' :: rest => digits? 2 rest
  | '0' :: 'o' :: rest | '0' :: 'O' :: rest => digits? 8 rest
  | '0' :: d :: rest => digits? 8 (d :: rest)
  | _ => digits? 10 cs

def splitSign : List Char → Bool × List Char
  | '-' :: cs => (true, cs)
  | '+' :: cs => (false, cs)
  | cs => (false, cs)

def signed (negative : Bool) (text : Bytes) : Bytes := if negative then "-" ++ text else text

/-- The decimal text of an integer that fits into 64 bits. -/
def integer? (cs : List Char) : Option Bytes := do
  let (negative, rest) := splitSign cs
  let n ← natural? rest
  if negative then
    if n ≤ Nat.pow 2 63 then return signed (n != 0) (Bytes.ofNat n) else none
  else if n < Nat.pow 2 63 ||
    (rest.length == cs.length && n < Nat.pow 2 64) then return Bytes.ofNat n
  else none

def exponent? (cs : List Char) : Option Int :=
  match cs with
  | [] => some 0
  | e :: rest =>
    if e == 'e' || e == 'E' then
      let (negative, ds) := splitSign rest
      (digits? 10 ds).map fun n => if negative then -(n : Int) else n
    else none

/-- A decimal fraction with an exponent. A digit has to stand before or after the point. -/
def fraction? (cs : List Char) : Option Decimal := do
  let whole := cs.takeWhile Char.isDigit
  let rest := cs.dropWhile Char.isDigit
  let (part, rest) ← match rest with
    | '.' :: rest =>
      let part := rest.takeWhile Char.isDigit
      if whole.isEmpty && part.isEmpty then none else some (part, rest.dropWhile Char.isDigit)
    | _ => if whole.isEmpty then none else some ([], rest)
  let e ← exponent? rest
  return ⟨(digits? 10 (whole ++ part)).getD 0, e - part.length⟩

/-- The decimal text of a fraction in double precision. -/
def float? (cs : List Char) : Option Bytes := do
  let (negative, rest) := splitSign cs
  let d ← fraction? rest
  let x ← Double.nearest? d
  return signed negative x.shortest.text

/-! ## Points in time -/

/-- A number of one digit up to the given number of digits, and the rest. -/
def shortNumber? (most : Nat) (cs : List Char) : Option (Nat × List Char) :=
  let ds := (cs.take most).takeWhile Char.isDigit
  (digits? 10 ds).map fun n => (n, cs.drop ds.length)

def after? (c : Char) : List Char → Option (List Char)
  | d :: cs => if d == c then some cs else none
  | [] => none

def isLeap (year : Nat) : Bool := year % 4 == 0 && (year % 100 != 0 || year % 400 == 0)

def daysIn (year month : Nat) : Nat :=
  if month == 2 then if isLeap year then 29 else 28
  else if month == 4 || month == 6 || month == 9 || month == 11 then 30 else 31

def date? (cs : List Char) : Option (List Char) := do
  let year := cs.takeWhile Char.isDigit
  if year.length != 4 then none
  else
    let y ← digits? 10 year
    let cs ← after? '-' (cs.drop 4)
    let (m, cs) ← shortNumber? 2 cs
    let cs ← after? '-' cs
    let (d, cs) ← shortNumber? 2 cs
    if 1 ≤ m && m ≤ 12 && 1 ≤ d && d ≤ daysIn y m then some cs else none

/-- The rest after a time of day; fractions of a second may follow a point or a comma. -/
def time? (cs : List Char) : Option (List Char) := do
  let (h, cs) ← shortNumber? 2 cs
  let cs ← after? ':' cs
  let (m, cs) ← shortNumber? 2 cs
  let cs ← after? ':' cs
  let (s, cs) ← shortNumber? 2 cs
  if 24 ≤ h || 60 ≤ m || 60 ≤ s then none
  else
    match cs with
    | c :: rest =>
      if (c == '.' || c == ',') && rest.head?.any Char.isDigit then
        some (rest.dropWhile Char.isDigit)
      else some cs
    | [] => some []

def isZone (cs : List Char) : Bool :=
  match cs with
  | ['Z'] => true
  | [s, h, k, c, m, n] =>
    (s == '+' || s == '-') && c == ':' && [h, k, m, n].all Char.isDigit &&
      (digits? 10 [h, k]).any (· ≤ 24) && (digits? 10 [m, n]).any (· < 60)
  | _ => false

/-- Whether the text is a date, with a time of day or without. -/
def isTimestamp (cs : List Char) : Bool :=
  match date? cs with
  | none => false
  | some [] => true
  | some (c :: rest) =>
    if c == 'T' || c == 't' then (time? rest).any isZone
    else if c == ' ' then (time? rest).any List.isEmpty
    else false

/-! ## Meaning -/

def nullWords : List String := ["", "~", "null", "Null", "NULL"]

def trueWords : List String := ["true", "True", "TRUE"]

def falseWords : List String := ["false", "False", "FALSE"]

def specialNumbers : List (String × String) :=
  [".nan", ".NaN", ".NAN"].map (·, "NaN") ++ [".inf", ".Inf", ".INF", "+.inf", "+.Inf",
    "+.INF"].map (·, "+Inf") ++
    ["-.inf", "-.Inf", "-.INF"].map (·, "-Inf")

def number? (cs : List Char) : Option Scalar :=
  match cs with
  | [] => none
  | '.' :: _ => (float? cs).map .number
  | c :: _ =>
    if c.isDigit || c == '+' || c == '-' then
      if isTimestamp cs then some .timestamp
      else
        let plain := cs.filter (· != '_')
        ((integer? plain).or (float? plain)).map .number
    else none

def ofPlain (s : Bytes) : Scalar :=
  let is (words : List String) : Bool := words.any fun w => s == Bytes.ofString w
  if is nullWords then .null
  else if is trueWords then .flag true
  else if is falseWords then .flag false
  else
    match specialNumbers.find? fun w => s == Bytes.ofString w.1 with
    | some (_, shown) => .number (Bytes.ofString shown)
    | none => (number? (Bytes.chars s)).getD (.text s)

end Scalar

end AccessLayer.Yaml
