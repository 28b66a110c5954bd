import AccessLayer.Text.Rune

/-!
# Reading quoted text

The text that a string literal denotes. Between double quotes a backslash starts an escape; between
back quotes everything stands for itself, only carriage returns do not count.

* `Bytes.unquote?`: the text of a literal, `none` when it is malformed.
-/

namespace AccessLayer

namespace Unquoted

def digit? (c : Char) : Option Nat :=
  if '0' ≤ c && c ≤ '9' then some (c.toNat - '0'.toNat)
  else if 'a' ≤ c && c ≤ 'f' then some (c.toNat - 'a'.toNat + 10)
  else if 'A' ≤ c && c ≤ 'F' then some (c.toNat - 'A'.toNat + 10)
  else none

/-- The number that exactly `count` digits write in a base, and what follows them. -/
def number? (base : Nat) : (count : Nat) → (value : Nat) → List Rune → Option (Nat × List Rune)
  | 0, value, rs => some (value, rs)
  | _ + 1, _, [] => none
  | count + 1, value, r :: rs => do
    let d ← digit? r.char
    if d < base then number? base count (value * base + d) rs else none

def shortEscape? (c : Char) : Option UInt8 :=
  match c with
  | 'a' => some 7
  | 'b' => some 8
  | 'f' => some 12
  | 'n' => some 10
  | 'r' => some 13
  | 't' => some 9
  | 'v' => some 11
  | '\\' => some 92
  | '"' => some 34
  | _ => none

/-- The encoding of a code point that an escape names; surrogates and numbers out of range name
none. -/
def codePoint? (n : Nat) : Option Bytes :=
  if n < 0xD800 || (0xDFFF < n && n ≤ 0x10FFFF) then some (Bytes.ofChars [Char.ofNat n]) else none

/-- The text of the escape after a backslash, and what follows it. -/
def escape? : List Rune → Option (Bytes × List Rune)
  | [] => none
  | r :: rs =>
    let byte? (p : Nat × List Rune) : Option (Bytes × List Rune) :=
      if p.1 < 256 then some ([p.1.toUInt8], p.2) else none
    let point? (p : Nat × List Rune) : Option (Bytes × List Rune) :=
      (codePoint? p.1).map fun b => (b, p.2)
    match shortEscape? r.char with
    | some b => some ([b], rs)
    | none =>
      match r.char with
      | 'x' => (number? 16 2 0 rs).bind byte?
      | 'u' => (number? 16 4 0 rs).bind point?
      | 'U' => (number? 16 8 0 rs).bind point?
      | _ => (number? 8 3 0 (r :: rs)).bind byte?

/-- The text up to the closing double quote, which has to be the last character. The fuel bounds the
characters. -/
def interpreted? : (fuel : Nat) → List Rune → Option Bytes
  | 0, _ | _, [] => none
  | fuel + 1, r :: rs =>
    if r.char == '"' then (if rs.isEmpty then some [] else none)
    else if r.char == '\n' then none
    else if r.char == '\\' then do
      let (b, rest) ← escape? rs
      return b ++ (← interpreted? fuel rest)
    else (interpreted? fuel rs).map (Bytes.ofChars [r.char] ++ ·)

end Unquoted

def Bytes.unquote? (s : Bytes) : Option Bytes :=
  match s with
  | [] => none
  | q :: rest =>
    if q == Bytes.byte '"' then Unquoted.interpreted? (rest.length + 1) (Bytes.runes rest)
    else if q == Bytes.byte '`' && rest.getLast? == some q && !(rest.dropLast.contains q) then
      some (rest.dropLast.filter (· != Bytes.byte '\r'))
    else none

end AccessLayer
