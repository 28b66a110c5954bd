import AccessLayer.Text.Printable
import AccessLayer.Text.Rune

/-!
# Quoted text

A text between quotes on one line: printable characters stand for themselves, the quote and the
backslash take a backslash, and everything else is an escape. A byte outside of any valid sequence
is written as a two-digit escape, so every byte string has a quoted form.

* `Bytes.quote`: the form between double quotes.
* `quoteChar`: the form of one character between single quotes.
* `Bytes.goString`: a string literal of Go, raw where a raw literal can hold the text.
-/

namespace AccessLayer

namespace Quoted

/-- The hexadecimal digits of `n`, `width` of them. -/
def hex : (width : Nat) → (n : Nat) → Bytes
  | 0, _ => []
  | width + 1, n => hex width (n / 16) ++ Bytes.ofChars [Nat.digitChar (n % 16)]

def shortEscape? (c : Char) : Option Char :=
  match c.toNat with
  | 0x07 => some 'a'
  | 0x08 => some 'b'
  | 0x0c => some 'f'
  | 0x0a => some 'n'
  | 0x0d => some 'r'
  | 0x09 => some 't'
  | 0x0b => some 'v'
  | _ => none

/-- The written form of one character between two characters `mark`. -/
def escapeChar (mark c : Char) : Bytes :=
  if c == mark || c == '\\' then Bytes.ofChars ['\\', c]
  else if isPrintable c then Bytes.ofChars [c]
  else match shortEscape? c with
    | some e => Bytes.ofChars ['\\', e]
    | none =>
      if c.toNat < 0x20 || c.toNat == 0x7f then "\\x" ++ hex 2 c.toNat
      else if c.toNat < 0x10000 then "\\u" ++ hex 4 c.toNat
      else "\\U" ++ hex 8 c.toNat

def escapeRune (mark : Char) (r : Rune) : Bytes :=
  if r.isBroken then "\\x" ++ hex 2 (r.bytes.headD 0).toNat
  else escapeChar mark r.char

end Quoted

def Bytes.quote (s : Bytes) : Bytes :=
  "\"" ++ (Bytes.runes s).flatMap (Quoted.escapeRune '"') ++ "\""

def quoteChar (c : Char) : Bytes := "'" ++ Quoted.escapeChar '\'' c ++ "'"

/-- A string literal of Go for the text: between back quotes when the text holds neither a back
quote nor a carriage return, quoted otherwise. -/
def Bytes.goString (s : Bytes) : Bytes :=
  if s.contains (Bytes.byte '`') || s.contains (Bytes.byte '\r') then Bytes.quote s
  else "`" ++ s ++ "`"

end AccessLayer
