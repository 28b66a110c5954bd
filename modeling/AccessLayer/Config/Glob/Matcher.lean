import AccessLayer.Text.Rune

/-!
# Matchers

A matcher decides whether a text fits, and finds where in a text a fit begins. Sizes are counted in
characters and offsets in bytes; a text of fixed size is cut so that its last character counts as
one byte, and so a longer character fits only where the whole rest of a text is taken.

* `Matcher`: the matchers.
* `Behaviour`: what a matcher does.
* `Matcher.behaviour`: what each matcher does.
-/

namespace AccessLayer.Glob

/-- A matcher. -/
inductive Matcher where
  | text (s : Bytes)
  | one (excluded : List Char)
  | among (chars : List Char) (negated : Bool)
  | range (lo hi : Char) (negated : Bool)
  | run (excluded : List Char)
  | all
  | nothing
  | atLeast (n : Nat)
  | atMost (n : Nat)
  | holding (part : Bytes) (negated : Bool)
  | starting (front : Bytes)
  | ending (back : Bytes)
  | startingAndEnding (front back : Bytes)
  | startingRun (front : Bytes) (excluded : List Char)
  | endingRun (back : Bytes) (excluded : List Char)
  /-- All of several matchers; each of them starts at the front. -/
  | every (ms : List Matcher)
  | some_ (ms : List Matcher)
  /-- Matchers of fixed size one after the other. -/
  | row (ms : List Matcher)
  /-- A matcher with others before and after it. -/
  | around (value : Matcher) (left right : Option Matcher)

/-- What a matcher does. -/
structure Behaviour where
  /-- The number of characters of every text that fits, when it is fixed. -/
  size : Option Nat
  /-- Whether the whole text fits. -/
  admits : Bytes → Bool
  /-- The first offset where a part of the text fits, and the lengths of the parts there. -/
  find : Bytes → Option (Nat × List Nat)

/-! ## Searching -/

/-- The offset of the first occurrence of a part. -/
def indexOf? (part : Bytes) : Bytes → Option Nat
  | [] => if part.isEmpty then some 0 else none
  | b :: s => if part.isPrefixOf (b :: s) then some 0 else (indexOf? part s).map (· + 1)

def lastIndexOf? (part : Bytes) : Bytes → Option Nat
  | [] => if part.isEmpty then some 0 else none
  | b :: s =>
    match lastIndexOf? part s with
    | some i => some (i + 1)
    | none => if part.isPrefixOf (b :: s) then some 0 else none

def runesFrom (offset : Nat) : List Rune → List (Nat × Rune)
  | [] => []
  | r :: rs => (offset, r) :: runesFrom (offset + r.bytes.length) rs

def offsets (s : Bytes) : List (Nat × Rune) := runesFrom 0 (Bytes.runes s)

/-- The number of bytes that a character takes when it is written. -/
def charSize (c : Char) : Nat := (String.utf8EncodeChar c).length

/-- The offsets where the runes of a text end, as far as they are written whole. -/
def ends (s : Bytes) : List Nat := (offsets s).map fun (i, r) => i + charSize r.char

/-- The offsets where the runes of a text begin, and its length. -/
def cuts (s : Bytes) : List Nat := (offsets s).map (·.1) ++ [s.length]

/-- The offset of the first character of a list. -/
def indexOfAny? (cs : List Char) (s : Bytes) : Option Nat :=
  cs.findSome? fun c => indexOf? (String.utf8EncodeChar c) s

def lastIndexOfAny? (cs : List Char) (s : Bytes) : Option Nat :=
  cs.findSome? fun c => lastIndexOf? (String.utf8EncodeChar c) s

/-! ## Behaviours -/

namespace Behaviour

/-- One character of a class. The empty text counts as a broken character. -/
def ofClass (p : Char → Bool) : Behaviour :=
  { size := some 1
    admits := fun s => match Bytes.runes s with
      | [] => p replacementChar
      | [r] => p r.char
      | _ => false
    find := fun s => ((offsets s).find? fun (_, r) => p r.char).map fun (i, r) =>
      (i, [charSize r.char]) }

def ofText (t : Bytes) : Behaviour :=
  { size := some (Bytes.runes t).length
    admits := fun s => s == t
    find := fun s => (indexOf? t s).map fun i => (i, [t.length]) }

def ofRun (excluded : List Char) : Behaviour :=
  { size := none
    admits := fun s => (indexOfAny? excluded s).isNone
    find := fun s => match indexOfAny? excluded s with
      | some 0 => some (0, [0])
      | some i => some (0, cuts (s.take i))
      | none => some (0, cuts s) }

def ofAll : Behaviour :=
  { size := none, admits := fun _ => true, find := fun s => some (0, cuts s) }

def ofNothing : Behaviour :=
  { size := some 0, admits := List.isEmpty, find := fun _ => some (0, [0]) }

def ofAtLeast (n : Nat) : Behaviour :=
  { size := none
    admits := fun s => n ≤ (Bytes.runes s).length
    find := fun s =>
      if s.length < n then none
      else match (ends s).drop (n - 1) with
        | [] => none
        | lengths => some (0, lengths) }

def ofAtMost (n : Nat) : Behaviour :=
  { size := none
    admits := fun s => (Bytes.runes s).length ≤ n
    find := fun s => some (0, 0 :: (ends s).take n) }

def ofHolding (part : Bytes) (negated : Bool) : Behaviour :=
  { size := none
    admits := fun s => Bytes.hasPart part s != negated
    find := fun s => match indexOf? part s with
      | none => if negated then some (0, cuts s) else none
      | some i =>
        if negated then some (0, cuts (s.take i))
        else
          let after := i + part.length
          some (0, (cuts (s.drop after)).map (after + ·)) }

def ofStarting (front : Bytes) : Behaviour :=
  { size := none
    admits := fun s => front.isPrefixOf s
    find := fun s => (indexOf? front s).map fun i =>
      (i, front.length :: (ends (s.drop (i + front.length))).map (front.length + ·)) }

def ofEnding (back : Bytes) : Behaviour :=
  { size := none
    admits := fun s => back.isSuffixOf s
    find := fun s => (indexOf? back s).map fun i => (0, [i + back.length]) }

/-- The offsets after each occurrence of a part, without overlaps, the last one first. -/
def occurrenceEnds (part : Bytes) (fuel : Nat) (s : Bytes) : List Nat :=
  match fuel with
  | 0 => []
  | fuel + 1 =>
    match lastIndexOf? part s with
    | none => []
    | some i => (i + part.length) :: occurrenceEnds part fuel (s.take i)

/-- A text that starts and ends in given ways, which may overlap. -/
def ofStartingAndEnding (front back : Bytes) : Behaviour :=
  { size := none
    admits := fun s => front.isPrefixOf s && back.isSuffixOf s
    find := fun s =>
      match indexOf? front s with
      | none => none
      | some i =>
        if back.isEmpty then some (i, [s.length - i])
        else match occurrenceEnds back s.length (s.drop i) with
          | [] => none
          | lengths => some (i, lengths) }

def ofStartingRun (front : Bytes) (excluded : List Char) : Behaviour :=
  { size := none
    admits := fun s => front.isPrefixOf s && (indexOfAny? excluded (s.drop front.length)).isNone
    find := fun s => (indexOf? front s).map fun i =>
      let rest := s.drop (i + front.length)
      let rest := match indexOfAny? excluded rest with
        | some j => rest.take j
        | none => rest
      (i, front.length :: (ends rest).map (front.length + ·)) }

def ofEndingRun (back : Bytes) (excluded : List Char) : Behaviour :=
  { size := none
    admits := fun s =>
      back.isSuffixOf s && (indexOfAny? excluded (s.take (s.length - back.length))).isNone
    find := fun s => (indexOf? back s).map fun i =>
      let start := match lastIndexOfAny? excluded (s.take i) with
        | some j => j + 1
        | none => 0
      (start, [i + back.length - start]) }

def ofEvery (bs : List Behaviour) : Behaviour :=
  { size := if bs.isEmpty then some 0 else none
    admits := fun s => bs.all (·.admits s)
    find := fun s =>
      match bs.mapM (·.find s) with
      | none => none
      | some [] => some (0, [])
      | some ((i, lengths) :: rest) =>
        match lengths.filter fun n => rest.all fun x => x.2.contains n with
        | [] => if rest.isEmpty then some (i, []) else none
        | common => some (i, common) }

/-- The size that several behaviours share; those without one do not count before the first that has
one. -/
def commonSize (bs : List Behaviour) : Option Nat :=
  match bs.dropWhile (·.size.isNone) with
  | [] => none
  | b :: rest => if rest.all (·.size == b.size) then b.size else none

/-- One of several behaviours. The earliest find counts. -/
def ofSome (bs : List Behaviour) : Behaviour :=
  { size := commonSize bs
    admits := fun s => bs.any (·.admits s)
    find := fun s => (bs.filterMap (·.find s)).foldl (fun best x =>
      match best with
      | none => some x
      | some (i, lengths) =>
        if x.1 < i then some x else if x.1 == i then some (i, lengths ++ x.2)
        else some (i, lengths))
      none }

/-- The bytes of a text that its first `n` characters take, the last of them counted as one byte. -/
def frontLength (n : Nat) (s : Bytes) : Nat :=
  let rs := Bytes.runes s
  Bytes.total ((if n == 0 then rs else rs.take n).dropLast.map (·.bytes.length)) + 1

/-- Whether a text starts with fits for behaviours of fixed size. -/
def startsWithRow : List Behaviour → Bytes → Bool
  | [], _ => true
  | b :: bs, s =>
    let n := b.size.getD 0
    n ≤ (Bytes.runes s).length &&
      b.admits (s.take (frontLength n s)) && startsWithRow bs (s.drop (frontLength n s))

def ofRow (bs : List Behaviour) : Behaviour :=
  let total := Bytes.total (bs.map fun b => b.size.getD 0)
  { size := some total
    admits := fun s => (Bytes.runes s).length == total && startsWithRow bs s
    find := fun s => (((offsets s).map (·.1)).find? fun i =>
      total ≤ s.length - i && startsWithRow bs (s.drop i)).map fun i => (i, [total]) }

/-- Whether a side fits; a side that is not there fits the empty text. -/
def sideAdmits (side : Option Behaviour) (s : Bytes) : Bool :=
  match side with
  | some b => b.admits s
  | none => s.isEmpty

def sideSize (side : Option Behaviour) : Option Nat :=
  match side with
  | some b => b.size
  | none => some 0

/-- Whether some find of a value between two offsets has fitting sides. -/
def aroundFrom (value : Behaviour) (left right : Option Behaviour) (s : Bytes) (limit : Nat)
    (fuel offset : Nat) : Bool :=
  match fuel with
  | 0 => false
  | fuel + 1 =>
    if offset < limit then
      match value.find ((s.take limit).drop offset) with
      | none => false
      | some (i, lengths) =>
        let at_ := offset + i
        if sideAdmits left (s.take at_) && lengths.any fun n => sideAdmits right (s.drop (at_ + n))
        then true
        else
          let step := ((Bytes.runes (s.drop at_)).head?.map (·.bytes.length)).getD 0
          aroundFrom value left right s limit fuel (at_ + step)
    else false

/-- A value with other behaviours before and after it. It cannot be searched for. -/
def ofAround (value : Behaviour) (left right : Option Behaviour) : Behaviour :=
  let size : Option Nat := do return (← sideSize left) + (← value.size) + (← sideSize right)
  { size
    admits := fun s =>
      if size.any (s.length < ·) then false
      else aroundFrom value left right s (s.length - (sideSize right).getD 0) (s.length + 1)
        ((sideSize left).getD 0)
    find := fun _ => none }

end Behaviour

namespace Matcher

mutual

def behaviour : Matcher → Behaviour
  | text s => .ofText s
  | one excluded => .ofClass fun c => !excluded.contains c
  | among chars negated => .ofClass fun c => chars.contains c != negated
  | range lo hi negated => .ofClass fun c => (lo ≤ c && c ≤ hi) != negated
  | run excluded => .ofRun excluded
  | all => .ofAll
  | nothing => .ofNothing
  | atLeast n => .ofAtLeast n
  | atMost n => .ofAtMost n
  | holding part negated => .ofHolding part negated
  | starting front => .ofStarting front
  | ending back => .ofEnding back
  | startingAndEnding front back => .ofStartingAndEnding front back
  | startingRun front excluded => .ofStartingRun front excluded
  | endingRun back excluded => .ofEndingRun back excluded
  | every ms => .ofEvery (behaviours ms)
  | some_ ms => .ofSome (behaviours ms)
  | row ms => .ofRow (behaviours ms)
  | around value left right => .ofAround (behaviour value) (side left) (side right)

def behaviours : List Matcher → List Behaviour
  | [] => []
  | m :: ms => behaviour m :: behaviours ms

def side : Option Matcher → Option Behaviour
  | none => none
  | some m => some (behaviour m)

end

/-- The number of characters of every text that fits, when it is fixed. -/
def size (m : Matcher) : Option Nat := m.behaviour.size

end Matcher

end AccessLayer.Glob
