import AccessLayer.Proofs.Surql.Spelling

/-!
# How tokens are spelled

The characters of names, parameters, numbers and strings, with the proof that they are read as one
token each. Other tokens are spelled in one way only, and reading them is a computation.

* `Word`, `Path`: identifiers and identifiers with `::` in them.
* `ParamName`: the name of a parameter.
* `Spelling.lparen`, …, `Spelling.keyword`: tokens that are spelled in one way.
-/

namespace AccessLayer.Surql

open Bytes Rune

variable {cs : List Char}

def codePoints (cs : List Char) : List Rune := cs.map ofChar

@[simp] theorem codePoints_nil : codePoints [] = [] := rfl

@[simp] theorem codePoints_cons (c : Char) (cs : List Char) :
    codePoints (c :: cs) = ofChar c :: codePoints cs := rfl

@[simp] theorem codePoints_append (cs ds : List Char) :
    codePoints (cs ++ ds) = codePoints cs ++ codePoints ds := List.map_append

theorem length_codePoints (cs : List Char) : (codePoints cs).length = cs.length := List.length_map _

@[simp] theorem chars_codePoints (cs : List Char) : (codePoints cs).map (·.char) = cs := by
  rw [codePoints, List.map_map]
  exact List.map_id cs

theorem ofRunes_codePoints (cs : List Char) : ofRunes (codePoints cs) = ofChars cs := by
  rw [ofRunes, codePoints, List.flatMap_map]
  rfl

namespace Spelling

/-- Whether characters are read as one token with the class and the literal. -/
def check (cs : List Char) (kind : TokenKind) (literal : Bytes) : Bool :=
  match Lexeme.gap (codePoints cs), lexeme (codePoints cs) with
  | .ok none, .ok l =>
    l.kind == kind && l.literal == literal && l.taken == codePoints cs && l.rest == []
  | _, _ => false

theorem eq_of_check {kind : TokenKind} {literal : Bytes} (h : check cs kind literal) :
    Lexeme.gap (codePoints cs) = .ok none ∧
      lexeme (codePoints cs) = .ok ⟨kind, literal, codePoints cs, []⟩ := by
  unfold check at h
  split at h
  · next l hg hl =>
    simp only [Bool.and_eq_true, beq_iff_eq] at h
    obtain ⟨⟨⟨hk, hlit⟩, ht⟩, hr⟩ := h
    refine ⟨hg, ?_⟩
    rw [hl, ← hk, ← hlit, ← ht, ← hr]
  · cases h

def of (cs : List Char) (kind : TokenKind) (literal : Bytes) (h : check cs kind literal = true) :
    Spelling :=
  ⟨cs, kind, literal, (eq_of_check h).1, (eq_of_check h).2⟩

end Spelling

namespace Lexeme

variable {c : Char}

theorem spanChars_front {p : Char → Bool} {xs : List Rune} (h : ∀ x ∈ xs, p x.char)
    (ys : List Rune) : spanChars p (xs ++ ys) = (xs ++ (spanChars p ys).1, (spanChars p ys).2) := by
  rw [spanChars, List.takeWhile_append_of_pos h, List.dropWhile_append_of_pos h]
  rfl

/-- A run of characters of a class that nothing continues is taken whole. -/
theorem spanChars_codePoints {p : Char → Bool} (hcs : ∀ c ∈ cs, p c) {t : List Rune}
    (ht : ∀ r ∈ t.head?, p r.char = false) :
    spanChars p (codePoints cs ++ t) = (codePoints cs, t) := by
  have hend : spanChars p t = ([], t) := @spanChars_before p [] t ht
  rw [codePoints, spanChars_front (List.forall_mem_map.2 hcs), hend, List.append_nil]

/-! ## Names -/

theorem digit_cases (h : isAsciiDigit c) :
    c ∈ ['0', '1', '2', '3', '4', '5', '6', '7', '8', '9'] := by
  have hc : c = Char.ofNat c.toNat := (Char.ofNat_toNat c).symm
  have hn : 48 ≤ c.toNat ∧ c.toNat ≤ 57 := by
    simpa [isAsciiDigit, Char.isDigit, UInt32.le_iff_toNat_le] using h
  have hall : ∀ n : Fin 10,
      Char.ofNat (48 + n) ∈ ['0', '1', '2', '3', '4', '5', '6', '7', '8', '9'] := by
    decide
  have := hall ⟨c.toNat - 48, by omega⟩
  rw [hc]
  rwa [show 48 + (c.toNat - 48) = c.toNat by omega] at this

/-- What holds of the ten digits holds of every one. -/
theorem forall_digit {P : Char → Prop} [DecidablePred P]
    (hall : (['0', '1', '2', '3', '4', '5', '6', '7', '8', '9'].all fun c => decide (P c)))
    {c : Char} (h : isAsciiDigit c) : P c := forall_mem_of_all hall c (digit_cases h)

theorem isIdentStart_of_isAsciiDigit {c : Char} (h : isAsciiDigit c) : isIdentStart c = false :=
  forall_digit (P := (isIdentStart · = false)) (by decide) h

/-- No gap starts with a character that starts no comment and is no white space. -/
theorem gap_ofChar (hs : isSpace c = false) (hc : c ∉ ['-', '/', '#']) (rs : List Rune) :
    gap (ofChar c :: rs) = .ok none := by
  simp only [List.mem_cons, List.not_mem_nil, or_false, not_or] at hc
  simp [gap, startsWith, ofChar, hs, hc]

/-- A token that starts with a letter or an underscore is a word. -/
theorem lexeme_of_isIdentStart (h : isIdentStart c) (rs : List Rune) :
    gap (ofChar c :: rs) = .ok none ∧ lexeme (ofChar c :: rs) = word (ofChar c :: rs) := by
  have hne : ∀ d, isIdentStart d = false → c ≠ d := by
    rintro d hd rfl
    rw [h] at hd
    cases hd
  have hspace : isSpace c = false := by
    by_contra hs
    rw [isIdentStart_of_isSpace (by simpa using hs)] at h
    cases h
  have hdigit : isAsciiDigit c = false := by
    by_contra hd
    rw [isIdentStart_of_isAsciiDigit (by simpa using hd)] at h
    cases h
  refine ⟨gap_ofChar hspace ?_ rs, ?_⟩
  · simp [hne '-' (by decide), hne '/' (by decide), hne '#' (by decide)]
  · simp [lexeme, peek, ofChar, hne '$' (by decide), hne '"' (by decide), hne '\'' (by decide),
      hne '`' (by decide), hne '⟨' (by decide +kernel), hdigit, h]

end Lexeme

/-- An identifier: a letter or an underscore, then letters, digits and underscores. -/
structure Word where
  first : Char
  others : List Char
  isStart : Lexeme.isIdentStart first = true
  isPart : ∀ c ∈ others, Lexeme.isIdentPart c = true

/-- An identifier of one or several words, with `::` between them. -/
structure Path where
  first : Word
  others : List Word

namespace Word

/-- The characters of an identifier. -/
def chars (w : Word) : List Char := w.first :: w.others

/-- An identifier that is checked by computation. -/
def of (first : Char) (others : List Char)
    (h : Lexeme.isIdentStart first = true ∧ others.all Lexeme.isIdentPart = true) : Word :=
  ⟨first, others, h.1, List.all_eq_true.1 h.2⟩

theorem isPart_chars (w : Word) : ∀ c ∈ w.chars, Lexeme.isIdentPart c := by
  intro c hc
  obtain rfl | hc := List.mem_cons.1 hc
  · rw [Lexeme.isIdentPart, w.isStart, Bool.true_or]
  · exact w.isPart c hc

end Word

namespace Path

/-- The characters of further words, with `::` before each of them. -/
def moreChars (ws : List Word) : List Char := ws.flatMap fun w => ':' :: ':' :: w.chars

/-- The characters of an identifier of several words. -/
def chars (w : Path) : List Char := w.first.chars ++ moreChars w.others

/-- A path is read up to its end. -/
theorem path_chars (w : Path) (fuel : Nat) (hf : w.chars.length ≤ fuel) :
    Lexeme.path fuel (codePoints w.chars) = (codePoints w.chars, []) := by
  obtain ⟨first, others⟩ := w
  induction others generalizing first fuel with
  | nil =>
    cases fuel with
    | zero => simp [chars, Word.chars] at hf
    | succ fuel =>
      have hspan := Lexeme.spanChars_codePoints first.isPart_chars (t := []) (by simp)
      rw [List.append_nil] at hspan
      simp [chars, moreChars, Lexeme.path, hspan, Lexeme.startsWith]
  | cons w ws ih =>
    cases fuel with
    | zero => simp [chars, Word.chars] at hf
    | succ fuel =>
      have hchars : chars ⟨first, w :: ws⟩ = first.chars ++ ':' :: ':' :: chars ⟨w, ws⟩ := by
        simp [chars, moreChars]
      have hcolon : Lexeme.isIdentPart ':' = false := by decide
      have hspan := Lexeme.spanChars_codePoints first.isPart_chars
        (t := ofChar ':' :: ofChar ':' :: codePoints (chars ⟨w, ws⟩))
        (by simp [ofChar, hcolon])
      rw [hchars, List.length_append, List.length_cons, List.length_cons] at hf
      have hrest := ih fuel w (by omega)
      have hstart : Lexeme.isIdentStart (Lexeme.peek (codePoints (chars ⟨w, ws⟩))) = true :=
        w.isStart
      rw [hchars, codePoints_append, codePoints_cons, codePoints_cons, Lexeme.path, hspan]
      simp only [Lexeme.startsWith, ofChar, beq_self_eq_true, Bool.and_self, List.drop_succ_cons,
        List.drop_zero, hstart, if_true, hrest, List.take_succ_cons, List.take_zero]
      rw [List.append_assoc]
      rfl

def spelling (w : Path) : Spelling where
  chars := w.chars
  kind := .ident
  literal := ofChars w.chars
  gap_eq := (Lexeme.lexeme_of_isIdentStart w.first.isStart _).1
  lexeme_eq := by
    refine (Lexeme.lexeme_of_isIdentStart w.first.isStart _).2.trans ?_
    have hpath := w.path_chars (codePoints w.chars).length (by rw [length_codePoints])
    change Lexeme.word (codePoints w.chars) = _
    rw [Lexeme.word, hpath]
    simp only [Lexeme.peek, ofRunes_codePoints]
    rfl

end Path

/-- An identifier of one word is a path. -/
def Word.spelling (w : Word) : Spelling := Path.spelling ⟨w, []⟩

theorem Word.literal_spelling (w : Word) : w.spelling.literal = ofChars w.chars := by
  show ofChars (w.chars ++ []) = _
  rw [List.append_nil]

/-- The name of a parameter: letters, digits and underscores, at least one. -/
structure ParamName where
  first : Char
  others : List Char
  isPart : ∀ c ∈ first :: others, Lexeme.isIdentPart c = true

namespace ParamName

def chars (w : ParamName) : List Char := w.first :: w.others

/-- A dollar sign and a name are the spelling of a parameter. -/
def spelling (w : ParamName) : Spelling where
  chars := '$' :: w.chars
  kind := .param
  literal := ofChars w.chars
  gap_eq := Lexeme.gap_ofChar (by decide) (by decide) _
  lexeme_eq := by
    have hspan := Lexeme.spanChars_codePoints w.isPart (t := []) (by simp)
    rw [List.append_nil] at hspan
    change Lexeme.param (codePoints ('$' :: w.chars)) = .ok ⟨_, _, codePoints ('$' :: w.chars), []⟩
    rw [codePoints_cons, Lexeme.param, List.drop_succ_cons, List.drop_zero, chars, hspan]
    simp only [codePoints_cons, List.isEmpty_cons, Bool.false_eq_true, if_false,
      ← ofRunes_codePoints]
    rfl

end ParamName

/-! ## Numbers -/

def digitRun : List Char → Bool
  | [] => true
  | c :: cs => (isAsciiDigit c || (c == '_' && isAsciiDigit (cs.headD '\x00'))) && digitRun cs

/-- A digit and further digits, before each of which an underscore may stand. -/
structure Digits where
  first : Char
  others : List Char
  isDigit : isAsciiDigit first = true
  run : digitRun others = true

def Digits.chars (d : Digits) : List Char := d.first :: d.others

/-- The characters of an exponent before its digits: a letter and a sign that may be missing. -/
def exponentFronts : List (List Char) :=
  [['e'], ['E'], ['e', '-'], ['E', '-'], ['e', '+'], ['E', '+']]

/-- The units of durations, as characters. -/
def unitChars : List (List Char) := Lexeme.durationUnits.map Bytes.chars

abbrev DurationUnit := { cs : List Char // cs ∈ unitChars }

/-- What may stand after a number: nothing, a mark of its type, or units that make it a duration. -/
inductive Suffix where
  | none
  | float
  | decimal
  | units (first : DurationUnit) (others : List (Digits × DurationUnit))

namespace Suffix

/-- The characters of further counts with their units. -/
def moreChars (us : List (Digits × DurationUnit)) : List Char := us.flatMap fun u =>
    u.1.chars ++ u.2.1

def chars : Suffix → List Char
  | none => []
  | float => ['f']
  | decimal => ['d', 'e', 'c']
  | units u us => u.1 ++ moreChars us

def kind : Suffix → TokenKind
  | units _ _ => .duration
  | _ => .number

end Suffix

/-- An unsigned number or a duration. -/
structure Number where
  whole : Digits
  fraction : Option Digits
  exponent : Option ({ cs : List Char // cs ∈ exponentFronts } × Digits)
  suffix : Suffix

namespace Number

def fractionChars : Option Digits → List Char
  | none => []
  | some d => '.' :: d.chars

def exponentChars : Option ({ cs : List Char // cs ∈ exponentFronts } × Digits) → List Char
  | none => []
  | some (front, d) => front.1 ++ d.chars

def chars (n : Number) : List Char :=
  n.whole.chars ++ (fractionChars n.fraction ++ (exponentChars n.exponent ++ n.suffix.chars))

end Number

namespace Lexeme

variable {rs xs : List Rune} {d : Digits}

theorem peek_chars {c : Char} (h : xs.map (·.char) = c :: cs) : peek (xs ++ rs) = c := by
  obtain ⟨x, xs, rfl, hx, -⟩ := List.map_eq_cons_iff.1 h
  exact hx

theorem headD_chars (rs : List Rune) : (rs.map (·.char)).headD '\x00' = peek rs := by
  cases rs <;> rfl

theorem peek_codePoints (cs : List Char) : peek (codePoints cs) = cs.headD '\x00' := by
  rw [← headD_chars, chars_codePoints]

/-- Digits are taken with the digits after them. -/
theorem digits_front (h : digitRun (xs.map (·.char))) (rs : List Rune) :
    digits (xs ++ rs) = (xs ++ (digits rs).1, (digits rs).2) := by
  induction xs with
  | nil => rfl
  | cons x xs ih =>
    rw [List.map_cons, digitRun, headD_chars, Bool.and_eq_true, Bool.or_eq_true,
      Bool.and_eq_true] at h
    have hpeek : isAsciiDigit (peek xs) = true → isAsciiDigit (peek (xs ++ rs)) = true := by
      cases xs with
      | nil => exact fun hend => absurd hend (by decide)
      | cons y xs => exact id
    have hnext : (isAsciiDigit x.char || x.char == '_' && isAsciiDigit (peek (xs ++ rs))) =
        true := by
      rw [Bool.or_eq_true, Bool.and_eq_true]
      exact h.1.imp_right (And.imp_right hpeek)
    rw [List.cons_append, digits, if_pos hnext, ih h.2]
    rfl

theorem digits_chars_front (h : xs.map (·.char) = d.chars) (rs : List Rune) :
    digits (xs ++ rs) = (xs ++ (digits rs).1, (digits rs).2) := by
  refine digits_front ?_ rs
  rw [h, Digits.chars, digitRun, d.isDigit, d.run]
  rfl

theorem fraction_front (h : xs.map (·.char) = '.' :: d.chars) (rs : List Rune) :
    fraction (xs ++ rs) = (xs ++ (digits rs).1, (digits rs).2) := by
  obtain ⟨x, xs, rfl, hx, hmore⟩ := List.map_eq_cons_iff.1 h
  have hpeek : isAsciiDigit (peek (xs ++ rs)) = true := by
    rw [peek_chars hmore]
    exact d.isDigit
  rw [List.cons_append, fraction, hx, hpeek, digits_chars_front hmore]
  rfl

theorem exponentFronts_cases {front : List Char} (h : front ∈ exponentFronts) :
    ∃ e ∈ ['e', 'E'], front = [e] ∨ ∃ s ∈ ['-', '+'], front = [e, s] := by
  simp only [exponentFronts, List.mem_cons, List.not_mem_nil, or_false] at h
  rcases h with rfl | rfl | rfl | rfl | rfl | rfl <;> simp

theorem exponent_front {front : List Char} (hfront : front ∈ exponentFronts)
    (h : xs.map (·.char) = front ++ d.chars)
    (rs : List Rune) : exponent (xs ++ rs) = (xs ++ (digits rs).1, (digits rs).2) := by
  obtain ⟨e, he, rfl | ⟨s, hs, rfl⟩⟩ := exponentFronts_cases hfront
  · -- the first digit comes right after the letter
    obtain ⟨x, xs, rfl, rfl, hmore⟩ := List.map_eq_cons_iff.1 h
    obtain ⟨y, ys, rfl, hy, hys⟩ := List.map_eq_cons_iff.1 hmore
    have hletter : (x.char == 'e' || x.char == 'E') = true := by simpa using he
    have hstart : startsExponent x y (ys ++ rs) = true := by
      rw [startsExponent, hletter, hy, d.isDigit]
      rfl
    have hrun : digitRun (ys.map (·.char)) = true := hys ▸ d.run
    rw [List.cons_append, List.cons_append, exponent_eq, if_pos hstart, digits_front hrun]
    rfl
  · obtain ⟨x, xs, rfl, rfl, hmore⟩ := List.map_eq_cons_iff.1 h
    obtain ⟨y, ys, rfl, rfl, hys⟩ := List.map_eq_cons_iff.1 hmore
    have hletter : (x.char == 'e' || x.char == 'E') = true := by simpa using he
    have hsign : (y.char == '-' || y.char == '+') = true := by simpa using hs
    have hpeek : isAsciiDigit (peek (ys ++ rs)) = true := by
      rw [peek_chars hys]
      exact d.isDigit
    have hstart : startsExponent x y (ys ++ rs) = true := by
      rw [startsExponent, hletter, hsign, hpeek, Bool.and_self, Bool.or_true, Bool.and_self]
    rw [List.cons_append, List.cons_append, exponent_eq, if_pos hstart, digits_chars_front hys]
    rfl

theorem exponent_stop (h : peek rs ∉ ['e', 'E']) : exponent rs = ([], rs) := by
  rcases rs with _ | ⟨e, _ | ⟨s, rs⟩⟩
  · rfl
  · rfl
  · have he : e.char ∉ ['e', 'E'] := h
    simp only [List.mem_cons, List.not_mem_nil, or_false, not_or] at he
    simp [exponent, he]

/-- Digits are read up to a character that does not continue them. -/
theorem digits_chars (d : Digits) (h : isAsciiDigit (peek rs) = false ∧ peek rs ≠ '_') :
    digits (codePoints d.chars ++ rs) = (codePoints d.chars, rs) := by
  rw [digits_chars_front (chars_codePoints _), digits_stop h, List.append_nil]

theorem fraction_chars (d : Option Digits) (h : isAsciiDigit (peek rs) = false ∧ peek rs ≠ '_')
    (hpoint : peek rs ≠ '.') :
    fraction (codePoints (Number.fractionChars d) ++ rs) =
      (codePoints (Number.fractionChars d), rs) := by
  cases d with
  | none => exact fraction_stop hpoint
  | some d =>
    rw [Number.fractionChars, fraction_front (chars_codePoints _), digits_stop h, List.append_nil]

theorem exponent_chars (e : Option ({ cs : List Char // cs ∈ exponentFronts } × Digits))
    (h : isAsciiDigit (peek rs) = false ∧ peek rs ≠ '_') (hletter : peek rs ∉ ['e', 'E']) :
    exponent (codePoints (Number.exponentChars e) ++ rs) =
      (codePoints (Number.exponentChars e), rs) := by
  obtain _ | ⟨⟨front, hfront⟩, d⟩ := e
  · exact exponent_stop hletter
  · rw [Number.exponentChars, exponent_front hfront (chars_codePoints _), digits_stop h,
      List.append_nil]

theorem unitChars_letters (cs : List Char) (h : cs ∈ unitChars) :
    durationUnits.contains (ofChars cs) ∧ (∀ c ∈ cs, isLetter c) ∧
      ∃ c cs', cs = c :: cs' ∧ isIdentStart c ∧ isAsciiDigit c = false ∧
        c ∉ ['_', '.', 'e', 'E'] := by
  have hall : ∀ cs ∈ unitChars, cs ≠ [] ∧ durationUnits.contains (ofChars cs) = true ∧
      (cs.all fun c => decide (isLetter c = true ∧ isAsciiDigit c = false ∧
        c ∉ ['_', '.', 'e', 'E'])) =
        true := by
    decide
  obtain ⟨hne, hmem, hletters⟩ := hall cs h
  have hletters := forall_mem_of_all hletters
  obtain ⟨c, cs, rfl⟩ := List.exists_cons_of_ne_nil hne
  obtain ⟨hc, hmore⟩ := hletters c List.mem_cons_self
  exact ⟨hmem, fun c hc => (hletters c hc).1, c, cs,
    rfl, by rw [isIdentStart, hc, Bool.or_true], hmore⟩

/-- A unit is taken whole, and what follows it is a count or nothing. -/
theorem spanChars_unit (unit : DurationUnit) (us : List (Digits × DurationUnit)) :
    spanChars isLetter (codePoints unit.1 ++ codePoints (Suffix.moreChars us)) =
      (codePoints unit.1, codePoints (Suffix.moreChars us)) := by
  refine spanChars_codePoints (unitChars_letters unit.1 unit.2).2.1 fun r hr => ?_
  cases us with
  | nil => cases hr
  | cons u us =>
    obtain rfl : ofChar u.1.first = r := by simpa [Suffix.moreChars, Digits.chars] using hr
    have h := isIdentStart_of_isAsciiDigit u.1.isDigit
    rw [isIdentStart, Bool.or_eq_false_iff] at h
    exact h.2

/-- Counts with units are read up to the end. -/
theorem moreUnits_chars (us : List (Digits × DurationUnit)) (fuel : Nat)
    (hf : (Suffix.moreChars us).length ≤ fuel) :
    moreUnits fuel (codePoints (Suffix.moreChars us)) =
      (true, codePoints (Suffix.moreChars us), []) := by
  induction us generalizing fuel with
  | nil =>
    cases fuel with
    | zero => rfl
    | succ fuel => rfl
  | cons u us ih =>
    obtain ⟨d, unit⟩ := u
    obtain ⟨hmem, -, c, cs, hcs, -, hdigit, hc⟩ := unitChars_letters unit.1 unit.2
    have hchars : Suffix.moreChars ((d, unit) :: us) = d.chars ++
        (unit.1 ++ Suffix.moreChars us) := by
      simp [Suffix.moreChars]
    cases fuel with
    | zero => simp [hchars, Digits.chars] at hf
    | succ fuel =>
      have hpeek : peek (codePoints (unit.1 ++ Suffix.moreChars us)) = c := by
        rw [hcs]
        rfl
      have hstop : isAsciiDigit (peek (codePoints (unit.1 ++ Suffix.moreChars us))) = false ∧
          peek (codePoints (unit.1 ++ Suffix.moreChars us)) ≠ '_' := by
        rw [hpeek]
        exact ⟨hdigit, List.ne_of_not_mem_cons hc⟩
      have hstart : isAsciiDigit (peek (codePoints (d.chars ++ (unit.1 ++ Suffix.moreChars us)))) =
          true :=
        d.isDigit
      rw [hchars, Digits.chars, List.cons_append, List.length_cons, List.length_append,
        List.length_append] at hf
      have hrest := ih fuel (by omega)
      rw [hchars, moreUnits, if_pos hstart, codePoints_append, digits_chars d hstop]
      simp only [codePoints_append, spanChars_unit, ofRunes_codePoints, hmem, if_true, hrest]
      rw [List.append_assoc]

/-- What stands after the digits of a number is read to its end and gives the class. -/
theorem numberSuffix_chars (s : Suffix) :
    numberSuffix (codePoints s.chars) = (s.kind, codePoints s.chars, []) := by
  cases s with
  | none => rfl
  | float => decide
  | decimal => decide
  | units unit us =>
    obtain ⟨hmem, -, c, cs, hcs, hstart, -⟩ := unitChars_letters unit.1 unit.2
    have hmore := moreUnits_chars us (codePoints (Suffix.moreChars us)).length
      (by rw [length_codePoints])
    have hpeek : isIdentStart (peek (codePoints (unit.1 ++ Suffix.moreChars us))) = true := by
      rw [hcs]
      exact hstart
    rw [Suffix.chars, numberSuffix, if_pos hpeek, codePoints_append, spanChars_unit]
    have hend : spanChars isIdentPart [] = ([], []) := rfl
    simp only [ofRunes_codePoints, hmem, if_true, hmore, hend, List.append_nil]
    rfl

/-- No suffix starts like a fraction or an exponent, or continues digits. -/
theorem head_suffix (s : Suffix) :
    isAsciiDigit (s.chars.headD '\x00') = false ∧ s.chars.headD '\x00' ∉ ['_', '.', 'e', 'E'] := by
  cases s with
  | none => decide
  | float => decide
  | decimal => decide
  | units unit us =>
    obtain ⟨-, -, c, cs, hcs, -, hc⟩ := unitChars_letters unit.1 unit.2
    rw [Suffix.chars, hcs]
    exact hc

/-- An exponent starts with its letter. -/
theorem head_exponent (e : Option ({ cs : List Char // cs ∈ exponentFronts } × Digits))
    (s : Suffix) : isAsciiDigit ((Number.exponentChars e ++ s.chars).headD '\x00') = false ∧
      (Number.exponentChars e ++ s.chars).headD '\x00' ∉ ['_', '.'] := by
  obtain _ | ⟨⟨front, hfront⟩, d⟩ := e
  · exact (head_suffix s).imp_right fun h h' => h (List.mem_append_left ['e', 'E'] h')
  · have hall : ∀ c ∈ ['e', 'E'], isAsciiDigit c = false ∧ c ∉ ['_', '.'] :=
      forall_mem_of_all (by decide)
    obtain ⟨c, hc, rfl | ⟨_, -, rfl⟩⟩ := exponentFronts_cases hfront
    · exact hall c hc
    · exact hall c hc

/-- A fraction starts with a point. -/
theorem head_fraction (n : Number) :
    let cs := Number.fractionChars n.fraction ++ (Number.exponentChars n.exponent ++ n.suffix.chars)
    isAsciiDigit (cs.headD '\x00') = false ∧ cs.headD '\x00' ≠ '_' := by
  obtain ⟨whole, frac, exponent, suffix⟩ := n
  cases frac with
  | none => exact (head_exponent exponent suffix).imp_right List.ne_of_not_mem_cons
  | some d => exact ⟨rfl, by simp [Number.fractionChars]⟩

theorem number_chars (n : Number) : number (codePoints n.chars) =
    ⟨n.suffix.kind, ofChars n.chars, codePoints n.chars, []⟩ := by
  have hfirst := head_fraction n
  have hsecond := head_exponent n.exponent n.suffix
  have hthird := head_suffix n.suffix
  simp only [← peek_codePoints, List.mem_cons, List.not_mem_nil, or_false, not_or]
    at hfirst hsecond hthird
  have hwhole := digits_chars n.whole hfirst
  have hfraction := fraction_chars n.fraction ⟨hsecond.1, hsecond.2.1⟩ hsecond.2.2
  have hexponent := exponent_chars n.exponent ⟨hthird.1, hthird.2.1⟩ (by simp [hthird])
  rw [← codePoints_append] at hwhole hfraction hexponent
  have htaken : codePoints n.whole.chars ++ codePoints (Number.fractionChars n.fraction) ++
      codePoints (Number.exponentChars n.exponent) ++ codePoints n.suffix.chars =
        codePoints n.chars := by
    simp [Number.chars]
  rw [number, Number.chars, hwhole]
  simp only [hfraction, hexponent, numberSuffix_chars]
  rw [htaken, ofRunes_codePoints]
  rfl

theorem lexeme_eq_number (h : isAsciiDigit (peek rs)) : lexeme rs = .ok (number rs) := by
  have hne : peek rs ∉ ['$', '"', '\'', '`', '⟨'] :=
    forall_digit (P := (· ∉ ['$', '"', '\'', '`', '⟨'])) (by decide) h
  simp only [List.mem_cons, List.not_mem_nil, or_false, not_or] at hne
  simp [lexeme, hne, h]

end Lexeme

def Number.spelling (n : Number) : Spelling where
  chars := n.chars
  kind := n.suffix.kind
  literal := ofChars n.chars
  gap_eq := by
    have hfirst : isSpace n.whole.first = false ∧ n.whole.first ∉ ['-', '/', '#'] :=
      Lexeme.forall_digit (P := fun c => isSpace c = false ∧
        c ∉ ['-', '/', '#']) (by decide) n.whole.isDigit
    exact Lexeme.gap_ofChar hfirst.1 hfirst.2 _
  lexeme_eq := by
    have hpeek : isAsciiDigit (Lexeme.peek (codePoints n.chars)) = true := n.whole.isDigit
    exact (Lexeme.lexeme_eq_number hpeek).trans (congrArg Except.ok (Lexeme.number_chars n))

/-! ## Strings -/

/-- A string between quotes. -/
structure Quoted where
  quote : Char
  content : List Char
  isQuote : quote ∈ ['"', '\'']

namespace Quoted

/-- A character as it is written between quotes. -/
def escape (quote c : Char) : List Char := if c = quote ∨ c = '\\' then ['\\', c] else [c]

/-- The characters after the opening quote. -/
def bodyChars (quote : Char) (content : List Char) : List Char :=
  content.flatMap (escape quote) ++ [quote]

/-- The characters of a string with its quotes. -/
def chars (q : Quoted) : List Char := q.quote :: bodyChars q.quote q.content

theorem stringBody_bodyChars {quote : Char} (hq : quote ∈ ['"', '\'']) (content : List Char) :
    Lexeme.stringBody quote (codePoints (bodyChars quote content)) =
      some (content, codePoints (bodyChars quote content), []) := by
  have hslash : '\\' ≠ quote ∧ Lexeme.unescape quote = [quote] := by
    have hall : ∀ q ∈ ['"', '\''], '\\' ≠ q ∧ Lexeme.unescape q = [q] :=
      forall_mem_of_all (by decide)
    exact hall quote hq
  induction content with
  | nil => simp [bodyChars, Lexeme.stringBody, ofChar]
  | cons c content ih =>
    have hchars : bodyChars quote (c :: content) = escape quote c ++ bodyChars quote content := by
      simp [bodyChars]
    obtain ⟨e, es, hes⟩ := List.exists_cons_of_ne_nil (l := bodyChars quote content)
      (by simp [bodyChars])
    rw [hchars, escape]
    split
    · next h =>
      have hc : Lexeme.unescape c = [c] := by
        obtain rfl | rfl := h
        · exact hslash.2
        · rfl
      simp only [codePoints_cons, List.cons_append, List.nil_append]
      rw [Lexeme.stringBody, ih]
      simp [ofChar, hslash.1, hc]
    · next h =>
      rw [not_or] at h
      rw [hes] at ih
      simp only [hes, codePoints_cons, List.cons_append, List.nil_append] at ih ⊢
      rw [Lexeme.stringBody, ih]
      simp [ofChar, h.1, h.2]

/-- A string is the spelling of what stands between its quotes. -/
def spelling (q : Quoted) : Spelling where
  chars := q.chars
  kind := .string
  literal := ofChars q.content
  gap_eq := by
    have hall : ∀ c ∈ ['"', '\''], isSpace c = false ∧ c ∉ ['-', '/', '#'] :=
      forall_mem_of_all (by decide)
    exact Lexeme.gap_ofChar (hall _ q.isQuote).1 (hall _ q.isQuote).2 _
  lexeme_eq := by
    have hall : ∀ c ∈ ['"', '\''], (c == '$') = false ∧ (c == '"' || c == '\'') = true :=
      forall_mem_of_all (by decide)
    obtain ⟨h1, h2⟩ := hall _ q.isQuote
    have hpeek : Lexeme.peek (codePoints q.chars) = q.quote := rfl
    have hbody := stringBody_bodyChars q.isQuote q.content
    change lexeme (codePoints q.chars) = _
    simp only [lexeme, hpeek, h1, h2, Bool.false_eq_true, if_false, if_true]
    rw [chars, codePoints_cons, Lexeme.stringFrom]
    simp only [show (ofChar q.quote).char = q.quote from rfl, hbody]
    rfl

end Quoted

/-! ## Punctuation -/

namespace Spelling

def lparen : Spelling := of ['('] .lparen "(" (by decide +kernel)

def rparen : Spelling := of [')'] .rparen ")" (by decide +kernel)

def lbracket : Spelling := of ['['] .lbracket "[" (by decide +kernel)

def rbracket : Spelling := of [']'] .rbracket "]" (by decide +kernel)

def lbrace : Spelling := of ['\x7b'] .lbrace "\x7b" (by decide +kernel)

def rbrace : Spelling := of ['\x7d'] .rbrace "\x7d" (by decide +kernel)

def comma : Spelling := of [','] .comma "," (by decide +kernel)

def colon : Spelling := of [':'] .colon ":" (by decide +kernel)

def lt : Spelling := of ['<'] .lt "<" (by decide +kernel)

def gt : Spelling := of ['>'] .gt ">" (by decide +kernel)

def bar : Spelling := of ['|'] .operator "|" (by decide +kernel)

/-- A word that is an identifier by computation. -/
def keyword (w : Bytes) (h : check (Bytes.chars w) .ident w = true) : Spelling :=
  of (Bytes.chars w) .ident w h

end Spelling

end AccessLayer.Surql
