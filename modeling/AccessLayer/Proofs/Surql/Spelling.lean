import AccessLayer.Proofs.Surql.Spans
import AccessLayer.Proofs.Text.Utf8

/-!
# Texts written token by token

A text that is made of the spellings of tokens, divided by single spaces, is read as these tokens.
The spelling of a token is whatever characters are read as that token and nothing more.

* `Spelling`: the characters of one token.
* `written`: spellings divided by single spaces.
* `Passage.text_ofSpellings`: the source text of some of its tokens is what they are written as.
-/

namespace AccessLayer.Surql

open Bytes
open Position (after_append start)

variable {qs : List Spelling}

/-- Characters that are read as one token, all of them, and the class and literal of the token. -/
structure Spelling where
  chars : List Char
  kind : TokenKind
  literal : Bytes
  gap_eq : Lexeme.gap (chars.map Rune.ofChar) = .ok none
  lexeme_eq : lexeme (chars.map Rune.ofChar) = .ok ⟨kind, literal, chars.map Rune.ofChar, []⟩

namespace Spelling

/-- The code points of a spelling. -/
def runes (q : Spelling) : List Rune := q.chars.map Rune.ofChar

def text (q : Spelling) : Bytes := ofChars q.chars

theorem runes_ne_nil (q : Spelling) : q.runes ≠ [] := by
  intro h
  have hnil : lexeme [] = .error (.unexpectedChar '\x00') := rfl
  have hl := q.lexeme_eq
  rw [show q.chars.map Rune.ofChar = [] from h, hnil] at hl
  cases hl

theorem kind_ne (q : Spelling) : q.kind ≠ .endOfInput := lexeme_kind_ne q.lexeme_eq

end Spelling

/-! ## Written texts -/

/-- The space between two tokens. -/
def blank : Rune := Rune.ofChar ' '

/-- The code points of spellings with a space after each of them. -/
def spaced (qs : List Spelling) : List Rune := qs.flatMap fun q => q.runes ++ [blank]

/-- The code points of spellings with a space between any two of them. -/
def writtenRunes : List Spelling → List Rune
  | [] => []
  | [q] => q.runes
  | q :: qs => q.runes ++ blank :: writtenRunes qs

/-- The text of spellings with a space between any two of them. -/
def written (qs : List Spelling) : Bytes := join " " (qs.map Spelling.text)

theorem writtenRunes_cons (q : Spelling) (h : qs ≠ []) :
    writtenRunes (q :: qs) = q.runes ++ blank :: writtenRunes qs := by
  cases qs with
  | nil => exact absurd rfl h
  | cons q' qs => rfl

theorem writtenRunes_append (qs : List Spelling) {qs' : List Spelling} (h : qs' ≠ []) :
    writtenRunes (qs ++ qs') = spaced qs ++ writtenRunes qs' := by
  induction qs with
  | nil => rfl
  | cons q qs ih =>
    rw [List.cons_append, writtenRunes_cons q (by simp [h]), ih]
    simp [spaced]

theorem spaced_append (qs qs' : List Spelling) : spaced (qs ++ qs') = spaced qs ++ spaced qs' :=
  List.flatMap_append

theorem spaced_eq (h : qs ≠ []) : spaced qs = writtenRunes qs ++ [blank] := by
  induction qs with
  | nil => exact absurd rfl h
  | cons q qs ih =>
    by_cases hqs : qs = []
    · rw [hqs, writtenRunes, spaced, List.flatMap_singleton]
    · rw [writtenRunes_cons q hqs, spaced, List.flatMap_cons, ← spaced, ih hqs]
      simp

/-- A written text is read as the code points of its spellings. -/
theorem runes_written (qs : List Spelling) : Bytes.runes (written qs) = writtenRunes qs := by
  have hblank : ∀ t, Bytes.runes (" " ++ t) = blank :: Bytes.runes t := by
    intro t
    show Bytes.runes ([0x20] ++ t) = _
    rw [List.singleton_append, runes_cons_of_ascii (by decide)]
    rfl
  induction qs with
  | nil => rfl
  | cons q qs ih =>
    cases qs with
    | nil =>
      have := runes_ofChars q.chars []
      rwa [List.append_nil, Bytes.runes, List.append_nil] at this
    | cons q' qs =>
      rw [writtenRunes_cons q (by simp), ← ih]
      show Bytes.runes (q.text ++ " " ++ written (q' :: qs)) = _
      rw [List.append_assoc, Spelling.text, runes_ofChars, hblank]
      rfl

theorem ofRunes_writtenRunes (qs : List Spelling) : ofRunes (writtenRunes qs) = written qs := by
  rw [← runes_written, ofRunes_runes]

/-! ## Tokens of written texts -/

/-- The tokens of spellings that are written from a place on. -/
def placed (p : Position) : List Spelling → List Token
  | [] => []
  | q :: qs =>
    ⟨q.kind, q.literal, p, (p.after q.runes).offset⟩ :: placed (p.after (q.runes ++ [blank])) qs

theorem length_placed (p : Position) (qs : List Spelling) : (placed p qs).length = qs.length := by
  induction qs generalizing p with
  | nil => rfl
  | cons q qs ih => rw [placed, List.length_cons, List.length_cons, ih]

theorem placed_append (p : Position) (qs qs' : List Spelling) :
    placed p (qs ++ qs') = placed p qs ++ placed (p.after (spaced qs)) qs' := by
  induction qs generalizing p with
  | nil => rfl
  | cons q qs ih =>
    rw [List.cons_append, placed, placed, ih, List.cons_append, ← after_append]
    rfl

/-- A written text is read as the tokens of its spellings. -/
theorem tokensFrom_written (p : Position) (qs : List Spelling) :
    tokensFrom p (writtenRunes qs) =
      .ok (placed p qs ++ [Token.endAt (p.after (writtenRunes qs))]) := by
  have hblank : isSpace blank.char = true := by decide
  induction qs generalizing p with
  | nil => rw [writtenRunes, tokensFrom]; rfl
  | cons q qs ih =>
    obtain ⟨r, rs, hr⟩ := List.exists_cons_of_ne_nil q.runes_ne_nil
    have hgap : Lexeme.gap (r :: rs) = .ok none := hr ▸ q.gap_eq
    have hlex : lexeme (r :: rs) = .ok ⟨q.kind, q.literal, r :: rs, []⟩ := hr ▸ q.lexeme_eq
    by_cases hqs : qs = []
    · subst hqs
      rw [writtenRunes, hr, tokensFrom_lexeme hgap hlex, tokensFrom, placed, placed, hr]
      rfl
    · have hgap' := gap_append_none (writtenRunes qs) hblank hgap
      have hlex' := lexeme_append hblank (writtenRunes qs) hlex
      rw [List.cons_append] at hgap' hlex'
      rw [writtenRunes_cons q hqs, hr, List.cons_append, tokensFrom_lexeme hgap' hlex']
      simp only [Lexeme.before, List.nil_append]
      rw [tokensFrom_blank hblank, ih, placed, hr, after_append, ← List.cons_append, after_append]
      rfl

/-! ## The statement of a written text -/

/-- The statement that a written text is. -/
def Passage.ofSpellings (qs : List Spelling) : Passage :=
  ⟨written qs, ⟨placed .start qs, Token.endAt (start.after (writtenRunes qs))⟩⟩

namespace Passage

theorem length_ofSpellings (qs : List Spelling) : (ofSpellings qs).length = qs.length :=
  length_placed _ _

/-- The tokens of a written text have the classes and literals of their spellings. -/
theorem token_ofSpellings (before : List Spelling) (q : Spelling) (after : List Spelling) :
    (ofSpellings (before ++ q :: after)).token before.length =
      ⟨q.kind, q.literal, start.after (spaced before),
        (start.after (spaced before ++ q.runes)).offset⟩ := by
  rw [token, ofSpellings, placed_append, List.getElem?_append_right (by rw [length_placed]),
    length_placed, Nat.sub_self, placed, after_append .start (spaced before) q.runes]
  rfl

/-- The last token of several ends where their text ends. -/
theorem stop_ofSpellings (before : List Spelling) (hqs : qs ≠ []) (after : List Spelling) :
    ((ofSpellings (before ++ qs ++ after)).token (before.length + qs.length - 1)).stop =
      (start.after (spaced before ++ writtenRunes qs)).offset := by
  obtain ⟨front, last, rfl⟩ := (List.eq_nil_or_concat' qs).resolve_left hqs
  have hsplit : before ++ (front ++ [last]) ++ after = before ++ front ++ last :: after := by simp
  have hindex : before.length + (front ++ [last]).length - 1 = (before ++ front).length := by simp
  rw [hsplit, hindex, token_ofSpellings, writtenRunes_append _ (by simp), writtenRunes,
    spaced_append, List.append_assoc]

theorem text_ofSpellings (before : List Spelling) (hqs : qs ≠ []) (after : List Spelling) :
    (ofSpellings (before ++ qs ++ after)).text before.length (before.length + qs.length - 1) =
      trim (written qs) := by
  have hstop := stop_ofSpellings before hqs after
  have hstart : ((ofSpellings (before ++ qs ++ after)).token before.length).start =
      start.after (spaced before) := by
    obtain ⟨q, qs', rfl⟩ := List.exists_cons_of_ne_nil hqs
    rw [List.append_assoc, List.cons_append, token_ofSpellings]
  obtain ⟨rest, hsrc⟩ : ∃ rest, written (before ++ qs ++ after) =
      ofRunes (spaced before) ++ written qs ++ rest := by
    simp only [← ofRunes_writtenRunes, ← ofRunes_append]
    by_cases hafter : after = []
    · exact ⟨[], by rw [hafter, List.append_nil, List.append_nil, writtenRunes_append _ hqs]⟩
    · refine ⟨ofRunes (blank :: writtenRunes after), ?_⟩
      rw [writtenRunes_append _ hafter, spaced_append, spaced_eq hqs, ← ofRunes_append]
      simp
  rw [text, hstop, hstart, after_append, Position.after_offset _ (writtenRunes qs),
    Position.after_offset .start, ofRunes_writtenRunes, Nat.add_comm _ (written qs).length]
  show trim (slice (written (before ++ qs ++ after)) _ _) = _
  have hslice := slice_append (ofRunes (spaced before)) (written qs) rest (Nat.zero_le _)
    le_rfl
  rw [Nat.zero_add] at hslice
  rw [hsrc]
  simp only [start, Nat.zero_add]
  rw [hslice, slice, List.drop_zero, Nat.sub_zero, List.take_length]

end Passage

end AccessLayer.Surql
