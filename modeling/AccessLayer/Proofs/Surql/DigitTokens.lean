import AccessLayer.Proofs.Surql.LexemeText
import AccessLayer.Proofs.Surql.NumberForms

/-!
# Tokens that start with a digit

A digit starts a number, and identifier characters may follow the number without a gap. The reader
decides from one character to the next, with a few characters of look-ahead. Measured by the regular
expressions of numbers and units, it takes the longest number there is and all identifier characters
after it, and their form gives the class.

* `Lexeme.takeNumeral_mem`, `Lexeme.length_le_takeNumeral`: a number is taken, and none is longer.
* `Lexeme.numberSuffix_identRun`: all identifier characters are taken.
* `lexeme_of_digit`: what is read where a digit comes next.
-/

namespace AccessLayer.Surql

open Bytes
open NumberForm

namespace Lexeme

variable {rs xs ys : List Rune}

/-! ## The number -/

/-- The number at the front of a text, and what follows it. -/
def takeNumeral (rs : List Rune) : List Rune × List Rune :=
  let (whole, rs₁) := digits rs
  let (frac, rs₂) := fraction rs₁
  let (exp, rs₃) := exponent rs₂
  (whole ++ frac ++ exp, rs₃)

theorem number_eq (rs : List Rune) :
    number rs =
      let (front, rs₁) := takeNumeral rs
      let (kind, suffix, rest) := numberSuffix rs₁
      ⟨kind, ofRunes (front ++ suffix), front ++ suffix, rest⟩ := rfl

theorem takeNumeral_split (rs : List Rune) : (takeNumeral rs).1 ++ (takeNumeral rs).2 = rs := by
  simp only [takeNumeral, List.append_assoc]
  rw [exponent_split, fraction_split, digits_split]

theorem digitRun_digits (rs : List Rune) : digitRun ((digits rs).1.map (·.char)) := by
  induction rs with
  | nil => rfl
  | cons r rs ih =>
    rw [digits]
    split_ifs with h
    · have hnext : isAsciiDigit (peek rs) = true → peek (digits rs).1 = peek rs := fun hpeek => by
        simpa using peek_digits (u := []) hpeek
      rw [List.map_cons, digitRun, ih, Bool.and_true, headD_chars]
      rw [Bool.or_eq_true, Bool.and_eq_true] at h ⊢
      rcases h with hdigit | ⟨hline, hpeek⟩
      · exact .inl hdigit
      · exact .inr ⟨hline, by rwa [hnext hpeek]⟩
    · rfl

theorem exists_digits (h : isAsciiDigit (peek rs)) :
    ∃ d : Digits, d.chars = (digits rs).1.map (·.char) := by
  have hrun := digitRun_digits rs
  cases rs with
  | nil => exact absurd h (by decide)
  | cons r rs =>
    have hr : isAsciiDigit r.char = true := h
    rw [digits, hr, Bool.true_or, if_pos rfl, List.map_cons, digitRun, hr, Bool.true_or,
      Bool.true_and] at hrun
    refine ⟨⟨r.char, _, hr, hrun⟩, ?_⟩
    rw [digits, hr, Bool.true_or, if_pos rfl]
    rfl

theorem exists_fraction (rs : List Rune) :
    ∃ frac, Number.fractionChars frac = (fraction rs).1.map (·.char) := by
  cases rs with
  | nil => exact ⟨none, rfl⟩
  | cons p rs =>
    rw [fraction]
    split_ifs with h
    · rw [Bool.and_eq_true, beq_iff_eq] at h
      obtain ⟨d, hd⟩ := exists_digits h.2
      exact ⟨some d, by rw [Number.fractionChars, hd, List.map_cons, h.1]⟩
    · exact ⟨none, rfl⟩

theorem exists_exponent (rs : List Rune) :
    ∃ exp, Number.exponentChars exp = (exponent rs).1.map (·.char) := by
  rcases rs with _ | ⟨e, _ | ⟨s, rs⟩⟩
  · exact ⟨none, rfl⟩
  · exact ⟨none, rfl⟩
  · rw [exponent_eq]
    split_ifs with h
    · simp only [startsExponent, Bool.and_eq_true, Bool.or_eq_true, beq_iff_eq] at h
      obtain ⟨he, hs | ⟨hs, hpeek⟩⟩ := h
      · -- without a sign the first digit comes right after the letter
        have hfront : [e.char] ∈ exponentFronts := by
          rcases he with he | he <;> simp [he, exponentFronts]
        exact ⟨some (⟨_, hfront⟩, ⟨s.char, _, hs, digitRun_digits rs⟩), rfl⟩
      · have hfront : [e.char, s.char] ∈ exponentFronts := by
          rcases he with he | he <;> rcases hs with hs | hs <;> simp [he, hs, exponentFronts]
        obtain ⟨d, hd⟩ := exists_digits hpeek
        exact ⟨some (⟨_, hfront⟩, d), by simp [Number.exponentChars, hd]⟩
    · exact ⟨none, rfl⟩

theorem takeNumeral_mem (h : isAsciiDigit (peek rs)) :
    (takeNumeral rs).1.map (·.char) ∈ numeral.matches' := by
  obtain ⟨whole, hwhole⟩ := exists_digits h
  obtain ⟨frac, hfrac⟩ := exists_fraction (digits rs).2
  obtain ⟨exp, hexp⟩ := exists_exponent (fraction (digits rs).2).2
  refine mem_numeral_iff.2 ⟨whole, frac, exp, ?_⟩
  simp [takeNumeral, hwhole, hfrac, hexp]

section Longest

variable {fs es : List Rune} {frac : Option Digits}
  {exp : Option ({ cs : List Char // cs ∈ exponentFronts } × Digits)}

/-- An exponent starts with its letter. -/
theorem peek_exponentChars (hes : es.map (·.char) = Number.exponentChars exp) (rest : List Rune) :
    es = [] ∨ peek (es ++ rest) ∈ ['e', 'E'] := by
  obtain _ | ⟨⟨front, hfront⟩, d⟩ := exp
  · exact .inl (List.map_eq_nil_iff.1 hes)
  · obtain ⟨e, he, rfl | ⟨_, -, rfl⟩⟩ := exponentFronts_cases hfront
    · exact .inr ((peek_chars hes).symm ▸ he)
    · exact .inr ((peek_chars hes).symm ▸ he)

/-- A fraction starts with its point. -/
theorem peek_fractionChars (hfs : fs.map (·.char) = Number.fractionChars frac)
    (hes : es.map (·.char) = Number.exponentChars exp) (rest : List Rune) :
    fs ++ es = [] ∨ peek (fs ++ (es ++ rest)) ∈ ['.', 'e', 'E'] := by
  cases frac with
  | none =>
    obtain rfl := List.map_eq_nil_iff.1 hfs
    exact (peek_exponentChars hes rest).imp_right (List.mem_cons_of_mem '.')
  | some d => exact .inr (by simp [peek_chars hfs])

theorem length_le_exponent (hes : es.map (·.char) = Number.exponentChars exp) (rest : List Rune) :
    es.length ≤ (exponent (es ++ rest)).1.length := by
  obtain _ | ⟨⟨front, hfront⟩, d⟩ := exp
  · simp [List.map_eq_nil_iff.1 hes]
  · simp [exponent_front hfront hes]

theorem digits_stop_of_mem (h : peek rs ∈ ['.', 'e', 'E']) : digits rs = ([], rs) := by
  have hall : ∀ c ∈ ['.', 'e', 'E'], isAsciiDigit c = false ∧ c ≠ '_' :=
    forall_mem_of_all (by decide)
  exact digits_stop (hall _ h)

theorem length_le_fraction (hfs : fs.map (·.char) = Number.fractionChars frac)
    (hes : es.map (·.char) = Number.exponentChars exp) (rest : List Rune) :
    fs.length + es.length ≤ (fraction (fs ++ (es ++ rest))).1.length +
      (exponent (fraction (fs ++ (es ++ rest))).2).1.length := by
  cases frac with
  | none =>
    obtain rfl := List.map_eq_nil_iff.1 hfs
    rcases peek_exponentChars hes rest with rfl | hpeek
    · simp
    · have hall : ∀ c ∈ ['e', 'E'], c ≠ '.' := forall_mem_of_all (by decide)
      rw [List.nil_append, fraction_stop (hall _ hpeek)]
      simpa using length_le_exponent hes rest
  | some d =>
    rw [fraction_front hfs, List.length_append]
    rcases peek_exponentChars hes rest with rfl | hpeek
    · rw [List.length_nil]
      omega
    · rw [digits_stop_of_mem (List.mem_cons_of_mem '.' hpeek)]
      simpa using length_le_exponent hes rest

/-- No number at the front of the text is longer than the one that is taken. -/
theorem length_le_takeNumeral {front : List Rune} (hfront : front.map (·.char) ∈ numeral.matches')
    (rest : List Rune) : front.length ≤ (takeNumeral (front ++ rest)).1.length := by
  obtain ⟨whole, frac, exp, hchars⟩ := mem_numeral_iff.1 hfront
  obtain ⟨xs, es, rfl, hxs, hes⟩ := List.map_eq_append_iff.1 hchars.symm
  obtain ⟨ws, fs, rfl, hws, hfs⟩ := List.map_eq_append_iff.1 hxs
  have hdigits := digits_chars_front hws (fs ++ (es ++ rest))
  have hmore := length_le_fraction hfs hes rest
  simp only [takeNumeral, List.append_assoc, hdigits, List.length_append]
  rcases peek_fractionChars hfs hes rest with hnil | hpeek
  · obtain ⟨rfl, rfl⟩ := List.append_eq_nil_iff.1 hnil
    simp
  · rw [digits_stop_of_mem hpeek]
    simpa using hmore

end Longest

/-! ## What follows the number -/

theorem isIdentPart_suffixUnits {suffix : List Rune} {r : Rune}
    (h : r ∈ (suffixUnits suffix rs).2.1) : isIdentPart r.char := by
  unfold suffixUnits at h
  split_ifs at h
  · exact isIdentPart_moreUnits h
  · cases h
  · cases h

/-- All identifier characters are taken. -/
theorem numberSuffix_span (h : isIdentStart (peek rs)) :
    (numberSuffix rs).2 = spanChars isIdentPart rs := by
  have hletters := spanChars_split isLetter rs
  have hunits : (suffixUnits (spanChars isLetter rs).1 (spanChars isLetter rs).2).2.1 ++ _ = _ :=
    suffixUnits_split (spanChars isLetter rs).1
  have hspan : spanChars isIdentPart rs = spanChars isIdentPart ((spanChars isLetter rs).1 ++
      ((suffixUnits (spanChars isLetter rs).1 (spanChars isLetter rs).2).2.1 ++
        (suffixUnits (spanChars isLetter rs).1 (spanChars isLetter rs).2).2.2)) := by
    rw [hunits, hletters]
  rw [hspan, spanChars_front fun x hx => isIdentPart_spanLetters hx,
    spanChars_front fun x hx => isIdentPart_suffixUnits hx, numberSuffix_eq h, ← List.append_assoc]

/-- The identifier characters that follow a number without a gap. -/
def identRun (rs : List Rune) : List Rune :=
  if isIdentStart (peek rs) then rs.takeWhile (isIdentPart ·.char) else []

theorem numberSuffix_identRun (rs : List Rune) :
    (numberSuffix rs).2 = (identRun rs, rs.drop (identRun rs).length) := by
  have hsplit := numberSuffix_split rs
  have hrun : (numberSuffix rs).2.1 = identRun rs := by
    by_cases h : isIdentStart (peek rs) = true
    · rw [numberSuffix_span h, identRun, if_pos h]
      rfl
    · rw [numberSuffix, if_neg h, identRun, if_neg h]
  rw [hrun] at hsplit
  have hrest := congrArg (List.drop (identRun rs).length) hsplit
  rw [List.drop_left] at hrest
  exact Prod.ext hrun hrest

/-! ## The class of the token -/

theorem unitChars_of_contains {unit : List Rune} (hread : Readable unit)
    (h : durationUnits.contains (ofRunes unit)) : unit.map (·.char) ∈ unitChars := by
  rw [← hread.chars_ofRunes]
  exact List.mem_map_of_mem (List.contains_iff_mem.1 h)

/-- Counts that all have units are counts with units. -/
theorem exists_moreUnits {fuel : Nat} (hread : Readable rs) (h : (moreUnits fuel rs).1) :
    ∃ us, Suffix.moreChars us = (moreUnits fuel rs).2.1.map (·.char) := by
  induction fuel generalizing rs with
  | zero => exact ⟨[], rfl⟩
  | succ fuel ih =>
    have hdigits := digits_split rs
    have hletters := spanChars_split isLetter (digits rs).2
    rw [← hdigits, ← hletters] at hread
    rw [moreUnits] at h ⊢
    by_cases hpeek : isAsciiDigit (peek rs) = true
    · simp only [if_pos hpeek] at h ⊢
      split_ifs at h ⊢ with hunit
      · obtain ⟨d, hd⟩ := exists_digits hpeek
        obtain ⟨us, hus⟩ := ih hread.right.right h
        refine ⟨(d, ⟨_, unitChars_of_contains hread.right.left hunit⟩) :: us, ?_⟩
        simp [Suffix.moreChars, hd, ← hus]
    · simp only [if_neg hpeek]
      exact ⟨[], rfl⟩

theorem chars_of_ofRunes_eq {word : List Rune} (hread : Readable word) {text : Bytes}
    (h : (ofRunes word == text)) : word.map (·.char) = chars text := by
  rw [← beq_iff_eq.1 h, hread.chars_ofRunes]

/-- Letters after a number are a mark of its type or a unit before further counts, or they make it
an identifier. -/
theorem exists_suffixUnits {letters : List Rune} (hread : Readable (letters ++ rs)) :
    (suffixUnits letters rs).1 = .ident ∨
      ∃ suffix : Suffix, suffix.chars = (letters ++ (suffixUnits letters rs).2.1).map (·.char) ∧
        suffix.kind = (suffixUnits letters rs).1 := by
  unfold suffixUnits
  split_ifs with hunit hmark
  · by_cases hok : (moreUnits rs.length rs).1 = true
    · obtain ⟨us, hus⟩ := exists_moreUnits hread.right hok
      refine .inr ⟨.units ⟨_, unitChars_of_contains hread.left hunit⟩ us, ?_, ?_⟩
      · rw [Suffix.chars, hus, List.map_append]
      · simp [Suffix.kind, hok]
    · exact .inl (if_neg hok)
  · rw [List.append_nil]
    rcases Bool.or_eq_true_iff.1 hmark with hmark | hmark
    · exact .inr ⟨.float, (chars_of_ofRunes_eq hread.left hmark).symm, rfl⟩
    · exact .inr ⟨.decimal, (chars_of_ofRunes_eq hread.left hmark).symm, rfl⟩
  · exact .inl rfl

/-- A token that is no identifier has a mark or units after its number, or nothing. -/
theorem exists_suffix (hread : Readable rs) :
    (numberSuffix rs).1 = .ident ∨
      ∃ suffix : Suffix, suffix.chars = (identRun rs).map (·.char) ∧
        suffix.kind = (numberSuffix rs).1 := by
  have hrun : (numberSuffix rs).2.1 = identRun rs := congrArg Prod.fst (numberSuffix_identRun rs)
  rw [← hrun]
  by_cases hstart : isIdentStart (peek rs) = true
  · rw [← spanChars_split isLetter rs] at hread
    rw [numberSuffix_eq hstart]
    by_cases htail : (spanChars isIdentPart
        (suffixUnits (spanChars isLetter rs).1 (spanChars isLetter rs).2).2.2).1 = []
    · simpa [htail] using exists_suffixUnits hread
    · exact .inl (by simp [htail])
  · rw [numberSuffix, if_neg hstart]
    exact .inr ⟨.none, rfl, rfl⟩

theorem kind_numberSuffix (rs : List Rune) :
    (numberSuffix rs).1 = .duration ∨ (numberSuffix rs).1 = .number ∨
      (numberSuffix rs).1 = .ident := by
  simp only [numberSuffix]
  split_ifs <;> simp

/-- Identifier characters are read from nothing but their own encoding. -/
theorem codePoints_identRun (hread : Readable rs) :
    codePoints ((identRun rs).map (·.char)) = identRun rs := by
  have hreplace : isIdentPart replacementChar = false := by decide +kernel
  have hsplit := numberSuffix_split rs
  rw [numberSuffix_identRun] at hsplit
  rw [codePoints, List.map_map]
  refine (List.map_congr_left fun r hr => ?_).trans (List.map_id _)
  have hpart : isIdentPart r.char = true := by
    rw [identRun] at hr
    split_ifs at hr
    · exact forall_spanChars hr
    · cases hr
  refine ((hread.of_append_eq hsplit).eq_ofChar hr fun hchar => ?_).symm
  rw [hchar, hreplace] at hpart
  cases hpart

/-- The class is that of the mark or of the units. -/
theorem kind_of_suffix (hread : Readable rs) (suffix : Suffix)
    (h : (identRun rs).map (·.char) = suffix.chars) : (numberSuffix rs).1 = suffix.kind := by
  have hpoints : identRun rs = codePoints suffix.chars := by
    rw [← h, codePoints_identRun hread]
  -- the class does not depend on what follows the identifier characters
  have hcut : numberSuffix ((numberSuffix rs).2.1 ++ []) =
      ((numberSuffix rs).1, (numberSuffix rs).2.1, []) :=
    numberSuffix_fades .stop
  rw [numberSuffix_identRun, List.append_nil, hpoints, numberSuffix_chars] at hcut
  exact (congrArg Prod.fst hcut).symm

theorem kind_eq_duration_iff (hread : Readable rs) : (numberSuffix rs).1 = .duration ↔
    identRun rs ≠ [] ∧ (identRun rs).map (·.char) ∈ unitRun.matches' := by
  constructor
  · intro h
    rcases exists_suffix hread with hident | ⟨suffix, hchars, hkind⟩
    · rw [hident] at h
      cases h
    · rw [h] at hkind
      cases suffix with
      | units u us =>
        obtain ⟨-, -, c, cs, hcs, -⟩ := unitChars_letters u.1 u.2
        refine ⟨fun hnil => ?_, mem_unitRun_iff.2 ⟨u, us, hchars⟩⟩
        rw [hnil, Suffix.chars, hcs] at hchars
        cases hchars
      | none => cases hkind
      | float => cases hkind
      | decimal => cases hkind
  · rintro ⟨-, hmem⟩
    obtain ⟨u, us, hchars⟩ := mem_unitRun_iff.1 hmem
    exact kind_of_suffix hread (.units u us) hchars.symm

theorem kind_eq_number_iff (hread : Readable rs) : (numberSuffix rs).1 = .number ↔
    identRun rs = [] ∨ (identRun rs).map (·.char) = "f".toList ∨
      (identRun rs).map (·.char) = "dec".toList := by
  constructor
  · intro h
    rcases exists_suffix hread with hident | ⟨suffix, hchars, hkind⟩
    · rw [hident] at h
      cases h
    · rw [h] at hkind
      cases suffix with
      | none => exact .inl (List.map_eq_nil_iff.1 hchars.symm)
      | float => exact .inr (.inl hchars.symm)
      | decimal => exact .inr (.inr hchars.symm)
      | units u us => cases hkind
  · rintro (hnil | hf | hdec)
    · exact kind_of_suffix hread .none (List.map_eq_nil_iff.2 hnil)
    · exact kind_of_suffix hread .float hf
    · exact kind_of_suffix hread .decimal hdec

end Lexeme

open Lexeme

/-- Where a digit comes next, the longest number there is read and all identifier characters after
it, if a letter or an underscore follows. Units make the token a duration, nothing or a mark of its
type a number, and anything else an identifier. -/
theorem lexeme_of_digit (input : Bytes) {before rs : List Rune}
    (hinput : runes input = before ++ rs) (hdigit : isAsciiDigit (peek rs) = true) :
    ∃ front rest kind,
      rs = front ++ rest ∧ front.map (·.char) ∈ numeral.matches' ∧
      (∀ other, other <+: rs → other.map (·.char) ∈ numeral.matches' →
        other.length ≤ front.length) ∧
      lexeme rs = .ok ⟨kind, ofRunes front ++ ofRunes (identRun rest), front ++ identRun rest,
        rest.drop (identRun rest).length⟩ ∧
      (kind = .duration ↔ identRun rest ≠ [] ∧ (identRun rest).map (·.char) ∈ unitRun.matches') ∧
      (kind = .number ↔ identRun rest = [] ∨ (identRun rest).map (·.char) = "f".toList ∨
        (identRun rest).map (·.char) = "dec".toList) ∧
      (kind = .ident ↔ ¬ (identRun rest ≠ [] ∧ (identRun rest).map (·.char) ∈ unitRun.matches') ∧
        ¬ (identRun rest = [] ∨ (identRun rest).map (·.char) = "f".toList ∨
          (identRun rest).map (·.char) = "dec".toList)) := by
  have hsplit := takeNumeral_split rs
  have hrest : Readable (takeNumeral rs).2 := by
    have hread := readable_runes input
    rw [hinput, ← hsplit] at hread
    exact hread.right.right
  refine ⟨(takeNumeral rs).1, (takeNumeral rs).2, (numberSuffix (takeNumeral rs).2).1, hsplit.symm,
    takeNumeral_mem hdigit, ?_, ?_, kind_eq_duration_iff hrest, kind_eq_number_iff hrest, ?_⟩
  · rintro other ⟨after, rfl⟩ hother
    exact length_le_takeNumeral hother after
  · rw [lexeme_eq_number hdigit, number_eq, ← ofRunes_append]
    simp only [numberSuffix_identRun]
  · rw [← kind_eq_duration_iff hrest, ← kind_eq_number_iff hrest]
    rcases kind_numberSuffix (takeNumeral rs).2 with hkind | hkind | hkind <;> simp [hkind]

theorem lexeme_of_digit_wait :
    ∃ front rest,
      (runes "-1_000.5e-3h30m").drop 1 = front ++ rest ∧ front.map (·.char) ∈ numeral.matches' ∧
      lexeme ((runes "-1_000.5e-3h30m").drop 1) = .ok ⟨.duration,
        ofRunes front ++ ofRunes (identRun rest), front ++ identRun rest,
        rest.drop (identRun rest).length⟩ ∧
      (identRun rest).map (·.char) ∈ unitRun.matches' := by
  have hread : isAsciiDigit (peek ((runes "-1_000.5e-3h30m").drop 1)) = true ∧
      (lexeme ((runes "-1_000.5e-3h30m").drop 1)).toOption.map (·.kind) = some .duration := by
    decide +kernel
  obtain ⟨front, rest, kind, hsplit, hfront, -, hlexeme, hduration, -⟩ :=
    lexeme_of_digit "-1_000.5e-3h30m" (List.take_append_drop 1 _).symm hread.1
  have hkind : kind = .duration := by
    have hread := hread.2
    rw [hlexeme] at hread
    exact Option.some.inj hread
  subst hkind
  exact ⟨front, rest, hsplit, hfront, hlexeme, (hduration.1 rfl).2⟩

end AccessLayer.Surql
