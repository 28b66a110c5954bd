import AccessLayer.Proofs.Surql.LexicalForms
import Mathlib.Computability.RegularExpressions
import Mathlib.Data.List.Induction

/-!
# Regular expressions for numbers

The form of a number, and of what makes a duration of it, said with regular expressions. What they
match is the same characters that numbers and their suffixes are spelled with.

* `count`, `numeral`: digits, and numbers.
* `durationUnit`, `unitRun`: units, and what makes a duration of a number.
* `mem_numeral_iff`, `mem_unitRun_iff`: what the expressions match.
-/

namespace AccessLayer.Surql.NumberForm

open RegularExpression (char star)

/-! ## Regular expressions -/

def anyOf (ps : List (RegularExpression Char)) : RegularExpression Char := ps.foldr (· + ·) 0

/-- One of several characters. -/
def oneChar (cs : List Char) : RegularExpression Char := anyOf (cs.map char)

def literal (cs : List Char) : RegularExpression Char := (cs.map char).foldr (· * ·) 1

def optional (p : RegularExpression Char) : RegularExpression Char := 1 + p

def digit : RegularExpression Char := oneChar ['0', '1', '2', '3', '4', '5', '6', '7', '8', '9']

/-- A count `D`, which is `[0-9](_?[0-9])*`. -/
def count : RegularExpression Char := digit * star (optional (char '_') * digit)

/-- A number, which is `D(.D)?([eE][+-]?D)?`. -/
def numeral : RegularExpression Char :=
  count * optional (char '.' * count) *
    optional (oneChar ['e', 'E'] * optional (oneChar ['+', '-']) * count)

/-- A unit `U` of durations. -/
def durationUnit : RegularExpression Char := anyOf (unitChars.map literal)

/-- Units with counts between them, which is `U(DU)*`. -/
def unitRun : RegularExpression Char := durationUnit * star (count * durationUnit)

section Matches

variable {xs cs : List Char} {p q : RegularExpression Char}

theorem mem_anyOf_iff {ps : List (RegularExpression Char)} :
    xs ∈ (anyOf ps).matches' ↔ ∃ p ∈ ps, xs ∈ p.matches' := by
  induction ps with
  | nil => simp [anyOf, Language.notMem_zero]
  | cons p ps ih =>
    have hcons : (anyOf (p :: ps)).matches' = p.matches' + (anyOf ps).matches' := rfl
    rw [hcons, Language.mem_add, ih]
    simp

theorem mem_oneChar_iff : xs ∈ (oneChar cs).matches' ↔ ∃ c ∈ cs, xs = [c] := by
  rw [oneChar, mem_anyOf_iff]
  constructor
  · rintro ⟨p, hp, hxs⟩
    obtain ⟨c, hc, rfl⟩ := List.mem_map.1 hp
    exact ⟨c, hc, hxs⟩
  · rintro ⟨c, hc, rfl⟩
    exact ⟨char c, List.mem_map_of_mem hc, rfl⟩

theorem mem_literal_iff : xs ∈ (literal cs).matches' ↔ xs = cs := by
  induction cs generalizing xs with
  | nil => exact Language.mem_one xs
  | cons c cs ih =>
    have hcons : (literal (c :: cs)).matches' = {[c]} * (literal cs).matches' := rfl
    rw [hcons, Language.mem_mul]
    constructor
    · rintro ⟨_, rfl, ys, hys, rfl⟩
      rw [ih.1 hys]
      rfl
    · rintro rfl
      exact ⟨[c], rfl, cs, ih.2 rfl, rfl⟩

theorem mem_optional_iff : xs ∈ (optional p).matches' ↔ xs = [] ∨ xs ∈ p.matches' := by
  rw [optional, RegularExpression.matches'_add, Language.mem_add,
    RegularExpression.matches'_epsilon, Language.mem_one]

theorem mem_digit_iff : xs ∈ digit.matches' ↔ ∃ c, isAsciiDigit c ∧ xs = [c] := by
  have hall : ∀ c ∈ ['0', '1', '2', '3', '4', '5', '6', '7', '8', '9'], isAsciiDigit c = true :=
    forall_mem_of_all (by decide)
  rw [digit, mem_oneChar_iff]
  constructor
  · rintro ⟨c, hc, rfl⟩
    exact ⟨c, hall c hc, rfl⟩
  · rintro ⟨c, hc, rfl⟩
    exact ⟨c, Lexeme.digit_cases hc, rfl⟩

/-- One more in front. -/
theorem append_mem_star {ys : List Char} (hxs : xs ∈ p.matches') (hys : ys ∈ (star p).matches') :
    xs ++ ys ∈ (star p).matches' := by
  obtain ⟨yss, rfl, hyss⟩ := Language.mem_kstar.1 hys
  exact Language.mem_kstar.2 ⟨xs :: yss, rfl, List.forall_mem_cons.2 ⟨hxs, hyss⟩⟩

/-- A digit with the underscore before it, if there is one. -/
theorem mem_nextDigit_iff :
    xs ∈ (optional (char '_') * digit).matches' ↔ ∃ c, isAsciiDigit c ∧
      (xs = [c] ∨ xs = ['_', c]) := by
  rw [RegularExpression.matches'_mul, Language.mem_mul]
  constructor
  · rintro ⟨front, hfront, _, hback, rfl⟩
    obtain ⟨c, hc, rfl⟩ := mem_digit_iff.1 hback
    rcases mem_optional_iff.1 hfront with rfl | rfl
    · exact ⟨c, hc, .inl rfl⟩
    · exact ⟨c, hc, .inr rfl⟩
  · rintro ⟨c, hc, rfl | rfl⟩
    · exact ⟨[], mem_optional_iff.2 (.inl rfl), [c], mem_digit_iff.2 ⟨c, hc, rfl⟩, rfl⟩
    · exact ⟨['_'], mem_optional_iff.2 (.inr rfl), [c], mem_digit_iff.2 ⟨c, hc, rfl⟩, rfl⟩

theorem mem_moreDigits_iff : xs ∈ (star (optional (char '_') * digit)).matches' ↔ digitRun xs := by
  constructor
  · intro hxs
    obtain ⟨yss, rfl, hyss⟩ := Language.mem_kstar.1 hxs
    clear hxs
    induction yss with
    | nil => rfl
    | cons ys yss ih =>
      obtain ⟨hys, hrest⟩ := List.forall_mem_cons.1 hyss
      obtain ⟨c, hc, rfl | rfl⟩ := mem_nextDigit_iff.1 hys
      · simp [digitRun, hc, ih hrest]
      · simp [digitRun, hc, ih hrest]
  · intro hrun
    -- an underscore is taken with the digit after it, so the induction goes in steps of one and of
    -- two
    induction xs using List.twoStepInduction with
    | nil => exact Language.nil_mem_kstar _
    | singleton c =>
      have hc : isAsciiDigit c = true := by
        simpa [digitRun, show isAsciiDigit '\x00' = false by decide] using hrun
      exact append_mem_star (mem_nextDigit_iff.2 ⟨c, hc, .inl rfl⟩) (Language.nil_mem_kstar _)
    | cons_cons c d cs ih ih' =>
      rw [digitRun, Bool.and_eq_true, Bool.or_eq_true, Bool.and_eq_true, beq_iff_eq,
        List.headD_cons] at hrun
      obtain ⟨hc | ⟨rfl, hd⟩, hrest⟩ := hrun
      · exact append_mem_star (mem_nextDigit_iff.2 ⟨c, hc, .inl rfl⟩) (ih' d hrest)
      · have hcs : digitRun cs = true := (Bool.and_eq_true_iff.1 hrest).2
        exact append_mem_star (mem_nextDigit_iff.2 ⟨d, hd, .inr rfl⟩) (ih hcs)

theorem mem_count_iff : xs ∈ count.matches' ↔ ∃ d : Digits, d.chars = xs := by
  rw [count, RegularExpression.matches'_mul, Language.mem_mul]
  constructor
  · rintro ⟨_, hfirst, others, hothers, rfl⟩
    obtain ⟨c, hc, rfl⟩ := mem_digit_iff.1 hfirst
    exact ⟨⟨c, others, hc, mem_moreDigits_iff.1 hothers⟩, rfl⟩
  · rintro ⟨⟨c, others, hc, hothers⟩, rfl⟩
    exact ⟨[c], mem_digit_iff.2 ⟨c, hc, rfl⟩, others, mem_moreDigits_iff.2 hothers, rfl⟩

theorem mem_fraction_iff :
    xs ∈ (optional (char '.' * count)).matches' ↔ ∃ frac, Number.fractionChars frac = xs := by
  rw [mem_optional_iff, RegularExpression.matches'_mul, Language.mem_mul]
  constructor
  · rintro (rfl | ⟨_, rfl, ys, hys, rfl⟩)
    · exact ⟨none, rfl⟩
    · obtain ⟨d, rfl⟩ := mem_count_iff.1 hys
      exact ⟨some d, rfl⟩
  · rintro ⟨frac, rfl⟩
    cases frac with
    | none => exact .inl rfl
    | some d => exact .inr ⟨['.'], rfl, d.chars, mem_count_iff.2 ⟨d, rfl⟩, rfl⟩

theorem mem_exponentFront_iff :
    xs ∈ (oneChar ['e', 'E'] * optional (oneChar ['+', '-'])).matches' ↔ xs ∈ exponentFronts := by
  rw [RegularExpression.matches'_mul, Language.mem_mul]
  simp only [mem_oneChar_iff, mem_optional_iff, exponentFronts]
  constructor
  · rintro ⟨_, ⟨c, hc, rfl⟩, _, rfl | ⟨d, hd, rfl⟩, rfl⟩
    · simp at hc ⊢
      tauto
    · simp at hc hd ⊢
      tauto
  · simp
    tauto

theorem mem_exponent_iff :
    xs ∈ (optional (oneChar ['e', 'E'] * optional (oneChar ['+', '-']) * count)).matches' ↔
      ∃ exp, Number.exponentChars exp = xs := by
  rw [mem_optional_iff, RegularExpression.matches'_mul, Language.mem_mul]
  constructor
  · rintro (rfl | ⟨front, hfront, ys, hys, rfl⟩)
    · exact ⟨none, rfl⟩
    · obtain ⟨d, rfl⟩ := mem_count_iff.1 hys
      exact ⟨some (⟨front, mem_exponentFront_iff.1 hfront⟩, d), rfl⟩
  · rintro ⟨exp, rfl⟩
    obtain _ | ⟨⟨front, hfront⟩, d⟩ := exp
    · exact .inl rfl
    · exact .inr ⟨front, mem_exponentFront_iff.2 hfront, d.chars, mem_count_iff.2 ⟨d, rfl⟩, rfl⟩

/-- Numbers are digits, and a fraction and an exponent that may be missing. -/
theorem mem_numeral_iff : xs ∈ numeral.matches' ↔
    ∃ (whole : Digits) (frac : _) (exp : _),
      whole.chars ++ Number.fractionChars frac ++ Number.exponentChars exp = xs := by
  rw [numeral, RegularExpression.matches'_mul, Language.mem_mul, RegularExpression.matches'_mul]
  simp only [Language.mem_mul, mem_count_iff, mem_fraction_iff, mem_exponent_iff]
  constructor
  · rintro ⟨_, ⟨_, ⟨whole, rfl⟩, _, ⟨frac, rfl⟩, rfl⟩, _, ⟨exp, rfl⟩, rfl⟩
    exact ⟨whole, frac, exp, rfl⟩
  · rintro ⟨whole, frac, exp, rfl⟩
    exact ⟨_, ⟨_, ⟨whole, rfl⟩, _, ⟨frac, rfl⟩, rfl⟩, _, ⟨exp, rfl⟩, rfl⟩

theorem mem_durationUnit_iff : xs ∈ durationUnit.matches' ↔ xs ∈ unitChars := by
  rw [durationUnit, mem_anyOf_iff]
  constructor
  · rintro ⟨p, hp, hxs⟩
    obtain ⟨cs, hcs, rfl⟩ := List.mem_map.1 hp
    rwa [mem_literal_iff.1 hxs]
  · intro hxs
    exact ⟨literal xs, List.mem_map_of_mem hxs, mem_literal_iff.2 rfl⟩

theorem mem_moreUnits_iff :
    xs ∈ (star (count * durationUnit)).matches' ↔ ∃ us, Suffix.moreChars us = xs := by
  constructor
  · intro hxs
    obtain ⟨yss, rfl, hyss⟩ := Language.mem_kstar.1 hxs
    clear hxs
    induction yss with
    | nil => exact ⟨[], rfl⟩
    | cons ys yss ih =>
      obtain ⟨hys, hyss⟩ := List.forall_mem_cons.1 hyss
      obtain ⟨us, hus⟩ := ih hyss
      obtain ⟨_, hcount, unit, hunit, rfl⟩ := Language.mem_mul.1 hys
      obtain ⟨d, rfl⟩ := mem_count_iff.1 hcount
      exact ⟨(d, ⟨unit, mem_durationUnit_iff.1 hunit⟩) :: us, congrArg (_ ++ ·) hus⟩
  · rintro ⟨us, rfl⟩
    induction us with
    | nil => exact Language.nil_mem_kstar _
    | cons u us ih =>
      refine append_mem_star ?_ ih
      exact Language.append_mem_mul (mem_count_iff.2 ⟨u.1, rfl⟩) (mem_durationUnit_iff.2 u.2.2)

/-- What makes a duration of a number is a unit, and further counts with units. -/
theorem mem_unitRun_iff : xs ∈ unitRun.matches' ↔ ∃ u us, (Suffix.units u us).chars = xs := by
  rw [unitRun, RegularExpression.matches'_mul, Language.mem_mul]
  constructor
  · rintro ⟨unit, hunit, _, hmore, rfl⟩
    obtain ⟨us, rfl⟩ := mem_moreUnits_iff.1 hmore
    exact ⟨⟨unit, mem_durationUnit_iff.1 hunit⟩, us, rfl⟩
  · rintro ⟨u, us, rfl⟩
    exact ⟨u.1, mem_durationUnit_iff.2 u.2, _, mem_moreUnits_iff.2 ⟨us, rfl⟩, rfl⟩

end Matches

end AccessLayer.Surql.NumberForm
