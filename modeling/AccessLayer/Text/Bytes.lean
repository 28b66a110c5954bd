/-!
# Byte strings

Definition files, names and generated sources are byte strings: nothing promises that a file holds
valid UTF-8. This module holds the type and the operations that look at single bytes.

* `Bytes.slice`: the part between two offsets.
* `Bytes.splitOn`: the parts between the occurrences of one byte.
* `Bytes.join`: the inverse, with any separator.
-/

namespace AccessLayer

/-- A text as the file system holds it: any sequence of bytes. -/
abbrev Bytes := List UInt8

namespace Bytes

def ofString (s : String) : Bytes := s.toUTF8.data.toList

instance : Coe String Bytes := ⟨ofString⟩

def byte (c : Char) : UInt8 := c.toNat.toUInt8

/-- The bytes from offset `start` up to, not including, offset `stop`. -/
def slice (s : Bytes) (start stop : Nat) : Bytes := (s.drop start).take (stop - start)

def hasPart (part : Bytes) : Bytes → Bool
  | [] => part.isEmpty
  | b :: s => part.isPrefixOf (b :: s) || hasPart part s

/-- The text with `part` taken off its front, if it starts with it. -/
def dropFront? (part s : Bytes) : Option Bytes :=
  if part.isPrefixOf s then some (s.drop part.length) else none

/-- The text with `part` taken off its end, if it ends with it. -/
def dropEnd? (part s : Bytes) : Option Bytes :=
  if part.isSuffixOf s then some (s.take (s.length - part.length)) else none

/-- The text with `part` taken off its end once, unchanged when it does not end with it. -/
def trimEnd (part s : Bytes) : Bytes := (dropEnd? part s).getD s

/-- The parts between the occurrences of the byte `sep`. There is always at least one part. -/
def splitOn (sep : UInt8) : Bytes → List Bytes
  | [] => [[]]
  | b :: s =>
    match splitOn sep s with
    | [] => [[b]]
    | part :: parts => if b == sep then [] :: part :: parts else (b :: part) :: parts

/-- The text before the first byte `sep`, and the text after it if there is one. -/
def cut (sep : UInt8) (s : Bytes) : Bytes × Option Bytes :=
  (s.takeWhile (· != sep),
    match s.dropWhile (· != sep) with
    | [] => none
    | _ :: rest => some rest)

/-- The parts in order with `sep` between them. -/
def join (sep : Bytes) : List Bytes → Bytes
  | [] => []
  | [part] => part
  | part :: parts => part ++ sep ++ join sep parts

def le : Bytes → Bytes → Bool
  | [], _ => true
  | _ :: _, [] => false
  | a :: s, b :: t => a < b || (a == b && le s t)

/-- Puts a thing before the first one that does not come before it by its text. -/
def insertBy {α : Type} (key : α → Bytes) (x : α) : List α → List α
  | [] => [x]
  | y :: rest => if le (key x) (key y) then x :: y :: rest else y :: insertBy key x rest

/-- Sorts things by a text in byte order. Those with the same text keep their order. -/
def sortBy {α : Type} (key : α → Bytes) (xs : List α) : List α := xs.foldr (insertBy key) []

/-- The texts in byte order. Equal texts keep their places. -/
def sort (texts : List Bytes) : List Bytes := sortBy id texts

def total (lengths : List Nat) : Nat := lengths.foldr Nat.add 0

def ofNat (n : Nat) : Bytes := ofString (toString n)

theorem splitOn_ne_nil (sep : UInt8) (s : Bytes) : splitOn sep s ≠ [] := by
  cases s with
  | nil => simp [splitOn]
  | cons b s => simp only [splitOn]; split <;> (try split) <;> simp

theorem join_splitOn (sep : UInt8) (s : Bytes) : join [sep] (splitOn sep s) = s := by
  induction s with
  | nil => rfl
  | cons b s ih =>
    simp only [splitOn]
    split
    · next h => exact absurd h (splitOn_ne_nil sep s)
    · next part parts h =>
      rw [h] at ih
      split
      · next hb => simp_all [join]
      · cases parts with
        | nil => simpa [join] using ih
        | cons p ps => simpa [join] using ih

end Bytes

end AccessLayer
