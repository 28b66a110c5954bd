import AccessLayer.Text.Rune

/-!
# Patterns of file names

A star stands for a run of characters within one name, two stars for any run, a question mark for
one character of a name, brackets for one character of a list or a range, and braces for one of
several patterns. A backslash takes away the meaning of the character after it.

* `Glob.Piece`: a piece of a pattern.
* `Glob.pieces`: the pieces of a text.
-/

namespace AccessLayer.Glob

/-- A part of a pattern without alternatives. -/
inductive Part where
  | text (cs : List Char)
  | one
  | run
  | all
  | among (chars : List Char) (negated : Bool)
  | range (lo hi : Char) (negated : Bool)
deriving DecidableEq, Repr

/-- A piece of a pattern: a part or a choice between patterns. -/
inductive Piece where
  | part (p : Part)
  | anyOf (options : List (List Piece))

mutual

def Piece.same : Piece → Piece → Bool
  | .part p, .part q => p == q
  | .anyOf os, .anyOf qs => sameOptions os qs
  | _, _ => false

def sameOptions : List (List Piece) → List (List Piece) → Bool
  | [], [] => true
  | o :: os, q :: qs => samePieces o q && sameOptions os qs
  | _, _ => false

def samePieces : List Piece → List Piece → Bool
  | [], [] => true
  | p :: ps, q :: qs => p.same q && samePieces ps qs
  | _, _ => false

end

/-- Why a text is no pattern. -/
inductive Fault where
  | unexpectedEnd
  | expectedClose
  | emptyRange
  | badRange (lo hi : Char)
  | unreadable
deriving DecidableEq, Repr

def Fault.message : Fault → Bytes
  | unexpectedEnd => "unexpected end of input"
  | expectedClose => "expected close range character"
  | emptyRange => "could not parse range"
  | badRange lo hi =>
    "hi character '" ++ Bytes.ofChars [hi] ++ "' should be greater than lo '" ++
      Bytes.ofChars [lo] ++ "'"
  | unreadable => "could not read rune"

/-! ## Reading -/

/-- Whether a character cannot be read: it stands for a broken byte. -/
def isUnreadable (c : Char) : Bool := c == replacementChar

def closeRange (lo hi : Char) (negated : Bool) :
    List Char → Except Fault (Part × List Char)
  | [] => .error .unexpectedEnd
  | c :: rest =>
    if isUnreadable c then .error .unexpectedEnd
    else if c != ']' then .error .expectedClose
    else if hi < lo then .error (.badRange lo hi)
    else if lo.toNat == 0 || hi.toNat == 0 then .error .emptyRange
    else .ok (.range lo hi negated, rest)

def charList (negated : Bool) (chars : List Char) : List Char → Except Fault (Part × List Char)
  | [] => .error .unexpectedEnd
  | c :: rest =>
    if isUnreadable c then .error .unexpectedEnd
    else if c == ']' then
      if chars.isEmpty then
        if rest.head?.any isUnreadable then .error .unreadable else .error .emptyRange
      else .ok (.among chars.reverse negated, rest)
    else if c == '\\' then
      match rest with
      | [] => .error .unexpectedEnd
      | d :: rest =>
        if isUnreadable d then .error .unexpectedEnd else charList negated (d :: chars) rest
    else charList negated (c :: chars) rest

/-- What stands between brackets, after the sign of negation. -/
def bracketBody (negated : Bool) (cs : List Char) : Except Fault (Part × List Char) :=
  match cs with
  | lo :: '-' :: rest =>
    if isUnreadable lo then .error .unexpectedEnd
    else
      match rest with
      | [] => .error .unexpectedEnd
      | hi :: rest =>
        if isUnreadable hi then .error .unexpectedEnd else closeRange lo hi negated rest
  | _ => charList negated [] cs

/-- What stands between brackets: one range, or a list of characters. -/
def bracket (cs : List Char) : Except Fault (Part × List Char) :=
  match cs with
  | '!' :: rest => bracketBody true rest
  | _ => bracketBody false cs

variable {n : Bool} {cs rest : List Char} {p : Part}

theorem closeRange_length {lo hi : Char} (h : closeRange lo hi n cs = .ok (p, rest)) :
    rest.length < cs.length := by
  unfold closeRange at h
  split at h
  · cases h
  · repeat' split at h
    all_goals first | cases h; simp | cases h

theorem charList_length {chars : List Char} (h : charList n chars cs = .ok (p, rest)) :
    rest.length < cs.length := by
  fun_induction charList n chars cs <;> simp_all <;> omega

theorem bracketBody_length (h : bracketBody n cs = .ok (p, rest)) : rest.length < cs.length := by
  unfold bracketBody at h
  split at h
  · repeat' split at h
    all_goals first | cases h | (have k := closeRange_length h; simp; omega)
  · exact charList_length h

theorem bracket_length (h : bracket cs = .ok (p, rest)) : rest.length < cs.length := by
  unfold bracket at h
  split at h
  · have := bracketBody_length h; simp; omega
  · exact bracketBody_length h

/-- An open choice: the pieces before it, the finished options and the pieces of the last option,
all in reverse. -/
structure Frame where
  before : List Piece
  options : List (List Piece)

/-- Closes the innermost open choice after the pieces of its last option. -/
def Frame.close (f : Frame) (current : List Piece) : List Piece :=
  .anyOf (current.reverse :: f.options).reverse :: f.before

/-- Closes all open choices at the end of the text. -/
def closeAll : List Frame → List Piece → List Piece
  | [], current => current.reverse
  | f :: fs, current => closeAll fs (f.close current)

/-- Adds a plain character to the pieces before it, which are in reverse. -/
def addChar (c : Char) : List Piece → List Piece
  | .part (.text cs) :: before => .part (.text (cs ++ [c])) :: before
  | before => .part (.text [c]) :: before

/-- Reads the pieces of a pattern. `open_` holds the choices that are open, innermost first. -/
def pieces (open_ : List Frame) (current : List Piece) (cs : List Char) :
    Except Fault (List Piece) :=
  match cs with
  | [] => .ok (closeAll open_ current)
  | c :: rest =>
    if isUnreadable c then .error .unreadable
    else if c == '\x7b' then pieces (⟨current, []⟩ :: open_) [] rest
    else if c == '[' then
      match h : bracket rest with
      | .error f => .error f
      | .ok (p, rest') =>
        have : rest'.length < rest.length := bracket_length h
        pieces open_ (.part p :: current) rest'
    else if c == '?' then pieces open_ (.part .one :: current) rest
    else if c == '*' then
      if rest.head? == some '*' then pieces open_ (.part .all :: current) rest.tail
      else pieces open_ (.part .run :: current) rest
    else if c == '\\' then
      match rest with
      | [] => pieces open_ current []
      | d :: rest =>
        if isUnreadable d then .error .unreadable
        else pieces open_ (addChar d current) rest
    else
      match open_ with
      | f :: fs =>
        if c == ',' then pieces (⟨f.before, current.reverse :: f.options⟩ :: fs) [] rest
        else if c == '\x7d' then pieces fs (f.close current) rest
        else pieces open_ (addChar c current) rest
      | [] => pieces open_ (addChar c current) rest
termination_by cs.length
decreasing_by all_goals simp_all <;> omega

end AccessLayer.Glob
