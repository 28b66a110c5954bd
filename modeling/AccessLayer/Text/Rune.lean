import AccessLayer.Text.Bytes
import AccessLayer.Text.LetterCase
import AccessLayer.Text.Space

/-!
# Code points of a byte string

A byte string reads as a sequence of code points. A byte that starts no valid UTF-8 sequence reads
as one code point, the replacement character, and keeps its byte, so nothing is lost.

* `Bytes.runes`: the code points of a text, each with its bytes.
* `Bytes.ofRunes_runes`: the bytes of the code points, in order, are the text.
* `Bytes.trim`, `Bytes.toUpper`, `Bytes.toLower`: operations that go by code point.
-/

namespace AccessLayer

/-- The character that stands for a byte outside of any valid sequence. -/
def replacementChar : Char := '�'

/-- One code point of a text with the bytes it was read from. -/
structure Rune where
  char : Char
  bytes : Bytes
deriving DecidableEq, Repr, Inhabited

namespace Rune

def ofChar (c : Char) : Rune := ⟨c, String.utf8EncodeChar c⟩

/-- Whether the code point stands for a byte outside of any valid sequence. -/
def isBroken (r : Rune) : Bool :=
  r.char == replacementChar && r.bytes.length == 1

end Rune

namespace Utf8

def isTail (b : UInt8) : Bool := b &&& 0xC0 == 0x80

/-- The six bits that a continuing byte adds. -/
def tailBits (b : UInt8) : Nat := (b &&& 0x3F).toNat

/-- Whether two bytes are one valid sequence: no overlong form. -/
def isPair (a b : UInt8) : Bool := 0xC2 ≤ a && a ≤ 0xDF && isTail b

/-- Whether three bytes are one valid sequence: no overlong form, no surrogate. -/
def isTriple (a b c : UInt8) : Bool :=
  0xE0 ≤ a && a ≤ 0xEF && isTail b && isTail c &&
    (a != 0xE0 || 0xA0 ≤ b) && (a != 0xED || b ≤ 0x9F)

/-- Whether four bytes are one valid sequence: no overlong form, nothing above `U+10FFFF`. -/
def isQuad (a b c d : UInt8) : Bool :=
  0xF0 ≤ a && a ≤ 0xF4 && isTail b && isTail c && isTail d &&
    (a != 0xF0 || 0x90 ≤ b) && (a != 0xF4 || b ≤ 0x8F)

def single (a : UInt8) : Rune :=
  ⟨if a < 0x80 then Char.ofNat a.toNat else replacementChar, [a]⟩

/-- The code point of a two-byte sequence. -/
def pair (a b : UInt8) : Rune :=
  ⟨Char.ofNat ((a &&& 0x1F).toNat * 64 + tailBits b), [a, b]⟩

/-- The code point of a three-byte sequence. -/
def triple (a b c : UInt8) : Rune :=
  ⟨Char.ofNat (((a &&& 0x0F).toNat * 64 + tailBits b) * 64 + tailBits c), [a, b, c]⟩

/-- The code point of a four-byte sequence. -/
def quad (a b c d : UInt8) : Rune :=
  ⟨Char.ofNat ((((a &&& 0x07).toNat * 64 + tailBits b) * 64 + tailBits c) * 64 + tailBits d),
    [a, b, c, d]⟩

end Utf8

namespace Bytes

def runes : Bytes → List Rune
  | [] => []
  | [a] => [Utf8.single a]
  | [a, b] =>
    if Utf8.isPair a b then [Utf8.pair a b] else Utf8.single a :: runes [b]
  | [a, b, c] =>
    if Utf8.isPair a b then Utf8.pair a b :: runes [c]
    else if Utf8.isTriple a b c then [Utf8.triple a b c]
    else Utf8.single a :: runes [b, c]
  | a :: b :: c :: d :: s =>
    if Utf8.isPair a b then Utf8.pair a b :: runes (c :: d :: s)
    else if Utf8.isTriple a b c then Utf8.triple a b c :: runes (d :: s)
    else if Utf8.isQuad a b c d then Utf8.quad a b c d :: runes s
    else Utf8.single a :: runes (b :: c :: d :: s)

/-- The characters of a text, with the replacement character for every broken byte. -/
def chars (s : Bytes) : List Char := (runes s).map (·.char)

def ofChars (cs : List Char) : Bytes := cs.flatMap String.utf8EncodeChar

def ofRunes (rs : List Rune) : Bytes := rs.flatMap (·.bytes)

def isValid (s : Bytes) : Bool := (runes s).all fun r => !r.isBroken

/-- The text without the white space at its two ends. -/
def trim (s : Bytes) : Bytes :=
  let blank (r : Rune) : Bool := isSpace r.char
  ofRunes (((runes s).dropWhile blank).reverse.dropWhile blank).reverse

/-- Every character in its upper-case form; broken bytes become replacement characters. -/
def toUpper (s : Bytes) : Bytes := ofChars ((chars s).map AccessLayer.toUpper)

/-- Every character in its lower-case form; broken bytes become replacement characters. -/
def toLower (s : Bytes) : Bytes := ofChars ((chars s).map AccessLayer.toLower)

/-- Reading code points loses no byte. -/
theorem ofRunes_runes (s : Bytes) : ofRunes (runes s) = s := by
  fun_induction runes s <;>
    simp_all [ofRunes, Utf8.single, Utf8.pair, Utf8.triple, Utf8.quad]

end Bytes

end AccessLayer
