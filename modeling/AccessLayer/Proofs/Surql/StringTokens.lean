import AccessLayer.Proofs.Surql.LexicalForms
import AccessLayer.Proofs.Text.Readable
import Mathlib.Algebra.Group.Nat.Even
import Mathlib.Data.List.DropRight

/-!
# String tokens

A string ends at its first quote that no backslash escapes, and whether one does is a matter of how
many backslashes stand directly in front of it. So a text that is escaped and put in quotes is read
back, whatever follows it.

* `stringMarks`: the marks in front of a string and the classes that they select.
* `ClosedBy`: a text has a quote with an even number of backslashes in front of it.
* `string_decoded`: an escaped text is one token, and a string without an end is a fault at its
  first character.
-/

namespace AccessLayer.Surql

open Bytes Rune
open Lexeme

variable {quote c e : Char} {cs mark : List Char} {kind : TokenKind} {p : Position} {r : Rune}
  {rs : List Rune} {l : Lexeme}

/-- What may stand in front of a string, and the class of the token. -/
def stringMarks : List (List Char × TokenKind) :=
  [([], .string), (['s'], .string), (['d'], .datetime), (['u'], .uuid), (['r'], .recordId)]

/-! ## Where a string ends -/

/-- How many backslashes stand at the end of a text. -/
def backslashes (cs : List Char) : Nat := (cs.rtakeWhile (· == '\\')).length

/-- A quote of the text is not escaped: the backslashes right in front of it escape each other. -/
def ClosedBy (quote : Char) (cs : List Char) : Prop :=
  ∃ before after, cs = before ++ quote :: after ∧ Even (backslashes before)

theorem backslashes_of_all (h : ∀ d ∈ cs, d = '\\') : backslashes cs = cs.length := by
  rw [backslashes, List.rtakeWhile_eq_self_iff.2 fun d hd => beq_iff_eq.2 (h d hd)]

/-- A character in front counts only as a backslash in front of nothing but backslashes. -/
theorem backslashes_cons (h : ¬ (c = '\\' ∧ ∀ d ∈ cs, d = '\\')) :
    backslashes (c :: cs) = backslashes cs := by
  have hrun : (cs.reverse ++ [c]).takeWhile (· == '\\') = cs.reverse.takeWhile (· == '\\') := by
    rw [List.takeWhile_append]
    split_ifs with hlen
    · have hall : cs.reverse.takeWhile (· == '\\') = cs.reverse :=
        (List.takeWhile_prefix _).eq_of_length hlen
      have hcs : ∀ d ∈ cs, d = '\\' := fun d hd =>
        beq_iff_eq.1 (List.takeWhile_eq_self_iff.1 hall d (List.mem_reverse.2 hd))
      have hc : (c == '\\') = false := beq_eq_false_iff_ne.2 fun heq => h ⟨heq, hcs⟩
      rw [List.takeWhile_cons, hc, hall]
      exact List.append_nil _
    · rfl
  rw [backslashes, backslashes, List.rtakeWhile, List.rtakeWhile, List.reverse_cons, hrun]

theorem closedBy_quote (quote : Char) (cs : List Char) : ClosedBy quote (quote :: cs) :=
  ⟨[], cs, rfl, by simp [backslashes]⟩

/-- A character that is neither a quote nor a backslash does not matter. -/
theorem closedBy_cons (hq : c ≠ quote) (hc : c ≠ '\\') :
    ClosedBy quote (c :: cs) ↔ ClosedBy quote cs := by
  have hrun : ∀ before, backslashes (c :: before) = backslashes before := fun before =>
    backslashes_cons fun h => hc h.1
  constructor
  · rintro ⟨before, after, heq, heven⟩
    cases before with
    | nil => exact absurd (List.cons.inj heq).1 hq
    | cons d before =>
      obtain ⟨rfl, rfl⟩ := List.cons.inj heq
      exact ⟨before, after, rfl, hrun before ▸ heven⟩
  · rintro ⟨before, after, rfl, heven⟩
    exact ⟨c :: before, after, rfl, (hrun before).symm ▸ heven⟩

/-- A backslash and the character after it do not matter together. -/
theorem closedBy_escape (hq : '\\' ≠ quote) :
    ClosedBy quote ('\\' :: e :: cs) ↔ ClosedBy quote cs := by
  have hrun : ∀ before, Even (backslashes ('\\' :: e :: before)) ↔ Even (backslashes before) := by
    intro before
    by_cases hall : ∀ d ∈ '\\' :: e :: before, d = '\\'
    · have hbefore : ∀ d ∈ before, d = '\\' := fun d hd => hall d (by simp [hd])
      rw [backslashes_of_all hall, backslashes_of_all hbefore, List.length_cons, List.length_cons,
        Nat.even_add_one, Nat.even_add_one, not_not]
    · have hall : ¬ ∀ d ∈ e :: before, d = '\\' := fun h => hall (List.forall_mem_cons.2 ⟨rfl, h⟩)
      rw [backslashes_cons fun h => hall h.2, backslashes_cons fun h =>
        hall (List.forall_mem_cons.2 h)]
  constructor
  · rintro ⟨before, after, heq, heven⟩
    rcases before with _ | ⟨a, _ | ⟨b, before⟩⟩
    · exact absurd (List.cons.inj heq).1 hq
    · obtain ⟨rfl, heq⟩ := List.cons.inj heq
      simp [backslashes_of_all] at heven
    · simp only [List.cons_append, List.cons.injEq] at heq
      obtain ⟨rfl, rfl, rfl⟩ := heq
      exact ⟨before, after, rfl, (hrun before).1 heven⟩
  · rintro ⟨before, after, rfl, heven⟩
    exact ⟨'\\' :: e :: before, after, rfl, (hrun before).2 heven⟩

/-- The body of a string has no end just when no quote of it is left unescaped. -/
theorem stringBody_eq_none_iff (hq : '\\' ≠ quote) (rs : List Rune) :
    stringBody quote rs = none ↔ ¬ ClosedBy quote (rs.map (·.char)) := by
  fun_induction stringBody quote rs with
  | case1 => simp [ClosedBy]
  | case2 r hr =>
    rw [List.map_cons, beq_iff_eq.1 hr]
    simp [closedBy_quote]
  | case3 r hr =>
    have hne : quote ≠ r.char := fun heq => hr (beq_iff_eq.2 heq.symm)
    simp [ClosedBy, List.cons_eq_append_iff, hne]
  | case4 r e rs hr =>
    rw [List.map_cons, beq_iff_eq.1 hr]
    simp [closedBy_quote]
  | case5 r e rs hr he ih =>
    rw [Option.map_eq_none_iff, ih, List.map_cons, List.map_cons, beq_iff_eq.1 he,
      closedBy_escape hq]
  | case6 r e rs hr he ih =>
    rw [beq_iff_eq] at hr he
    rw [Option.map_eq_none_iff, ih, List.map_cons (l := e :: rs), closedBy_cons hr he]

/-! ## Tokens -/

/-- A mark and a quote start a string of the class that the mark selects. -/
theorem lexeme_mark (hm : (mark, kind) ∈ stringMarks) (hq : quote ∈ ['"', '\'']) (rs : List Rune) :
    gap (codePoints (mark ++ [quote]) ++ rs) = .ok none ∧
      lexeme (codePoints (mark ++ [quote]) ++ rs) =
        stringFrom kind (codePoints mark) (ofChar quote :: rs) := by
  have hquotes : ∀ q ∈ ['"', '\''], isSpace q = false ∧ q ∉ ['-', '/', '#'] ∧ (q == '$') = false ∧
      (q == '"' || q == '\'') = true ∧ isIdentPart q = false ∧ (q == ':') = false :=
    forall_mem_of_all (by decide)
  obtain ⟨hspace, hgap, hparam, hquote, hpart, hcolon⟩ := hquotes quote hq
  have hword : ∀ c kind, isIdentStart c = true → stringMark? (ofChars [c]) = some kind →
      gap (codePoints ([c] ++ [quote]) ++ rs) = .ok none ∧
        lexeme (codePoints ([c] ++ [quote]) ++ rs) =
          stringFrom kind (codePoints [c]) (ofChar quote :: rs) := by
    intro c kind hc hkind
    obtain ⟨hgap, hlexeme⟩ := lexeme_of_isIdentStart hc (ofChar quote :: rs)
    refine ⟨hgap, hlexeme.trans ?_⟩
    have hspan : spanChars isIdentPart (ofChar c :: ofChar quote :: rs) = (codePoints [c], _) :=
      @spanChars_codePoints [c] isIdentPart (by simp [isIdentPart, hc]) (ofChar quote :: rs)
        (by rintro _ ⟨⟩; exact hpart)
    have hcolons : startsWith [':', ':'] (ofChar quote :: rs) = false := by
      rw [startsWith, show (ofChar quote).char = quote from rfl, hcolon, Bool.false_and]
    have hpath : path (rs.length + 2) (ofChar c :: ofChar quote :: rs) =
        (codePoints [c], ofChar quote :: rs) := by
      rw [path, hspan]
      simp only [hcolons, Bool.false_and, Bool.false_eq_true, if_false]
    simp only [word, List.length_cons, hpath, ofRunes_codePoints, hkind, peek,
      show (ofChar quote).char = quote from rfl, hquote, if_true]
  simp only [stringMarks, List.mem_cons, List.not_mem_nil, or_false, Prod.mk.injEq] at hm
  obtain ⟨rfl, rfl⟩ | ⟨rfl, rfl⟩ | ⟨rfl, rfl⟩ | ⟨rfl, rfl⟩ | ⟨rfl, rfl⟩ := hm
  · refine ⟨gap_ofChar hspace hgap rs, ?_⟩
    simp [lexeme, peek, ofChar, hparam, hquote]
  all_goals exact hword _ _ (by decide) (by decide)

/-- The characters of a string with its mark and quotes, where the content is escaped. -/
def quotedChars (mark : List Char) (quote : Char) (content : List Char) : List Char :=
  mark ++ quote :: (content.flatMap (Quoted.escape quote) ++ [quote])

/-- An escaped text in quotes is read back, before anything. -/
theorem lexeme_quotedChars (hm : (mark, kind) ∈ stringMarks) (hq : quote ∈ ['"', '\''])
    (content : List Char)
    (rs : List Rune) : lexeme (codePoints (quotedChars mark quote content) ++ rs) =
      .ok ⟨kind, ofChars content, codePoints (quotedChars mark quote content), rs⟩ := by
  have hbody := stringBody_before (Quoted.stringBody_bodyChars hq content) rs
  have hchars : quotedChars mark quote content = mark ++ [quote] ++
      Quoted.bodyChars quote content := by
    simp [quotedChars, Quoted.bodyChars]
  rw [hchars, codePoints_append _ (Quoted.bodyChars _ _), List.append_assoc,
    (lexeme_mark hm hq _).2, stringFrom]
  simp only [ofChar, hbody]
  simp [ofChar]

theorem tokensFrom_ne_error {fault : LexFault} (hread : Readable (r :: rs))
    (hg : gap (r :: rs) = .ok none)
    (hl : lexeme (r :: rs) = .ok l) : tokensFrom p (r :: rs) ≠ .error ⟨.lex fault, p⟩ := by
  obtain ⟨hsplit, hne⟩ := lexeme_split hl
  have hbytes : ∀ x ∈ l.taken, x.bytes ≠ [] := fun x hx =>
    hread.bytes_ne_nil (hsplit ▸ List.mem_append_left _ hx)
  have hlt := offset_lt_after (p := p) hne hbytes
  rw [tokensFrom_lexeme hg hl]
  intro herror
  -- a fault of the rest is at a later place
  obtain ⟨front, _, _, _, _, heq⟩ := tokensFrom_eq_error (map_eq_error.1 herror)
  have hplace := congrArg (fun e => e.place.offset) heq
  simp only [Position.after_offset _ front] at hplace
  omega

/-- An escaped text in quotes, with or without a mark, is one token with that text, whatever
follows; and a string is a fault, at the place where it starts, if and only if no quote of the text
that follows is left unescaped. -/
theorem string_decoded (hm : (mark, kind) ∈ stringMarks) (hq : quote ∈ ['"', '\'']) (p : Position) :
    (∀ (content : List Char) (rest : Bytes),
      let text := ofChars (quotedChars mark quote content)
      lexeme (runes (text ++ rest)) = .ok ⟨kind, ofChars content, runes text, runes rest⟩ ∧
      tokensFrom p (runes (text ++ rest)) =
        (tokensFrom (p.after (runes text)) (runes rest)).map
          (⟨kind, ofChars content, p, p.offset + text.length⟩ :: ·)) ∧
    (∀ body : Bytes, tokensFrom p (runes (ofChars (mark ++ [quote]) ++ body)) =
        .error ⟨.lex .unterminatedString, p⟩ ↔ ¬ ClosedBy quote (chars body)) ∧
    ParseFault.message (.lex .unterminatedString) = "unterminated string" := by
  refine ⟨?closed, ?unclosed, rfl⟩
  case closed =>
    intro content rest text
    have hlex := lexeme_quotedChars hm hq content (runes rest)
    have hgap : gap (codePoints (quotedChars mark quote content) ++ runes rest) = .ok none := by
      rw [quotedChars, ← List.singleton_append, ← List.append_assoc, codePoints_append,
        List.append_assoc]
      exact (lexeme_mark hm hq _).1
    have htext : codePoints (quotedChars mark quote content) = runes text :=
      ((runes_ofChars _ []).trans (List.append_nil _)).symm.trans (by rw [List.append_nil])
    have hrunes : runes (text ++ rest) = runes text ++ runes rest :=
      (runes_ofChars _ rest).trans (congrArg (· ++ _) htext)
    rw [htext, ← hrunes] at hlex hgap
    refine ⟨hlex, ?_⟩
    obtain ⟨r, rs, hcons⟩ : ∃ r rs, runes (text ++ rest) = r :: rs :=
      List.exists_cons_of_ne_nil (by rw [hrunes, ← htext]; simp [quotedChars])
    rw [hcons] at hlex hgap ⊢
    rw [tokensFrom_lexeme hgap hlex]
    simp only [Position.after_offset, ofRunes_runes]
  case unclosed =>
    intro body
    obtain ⟨hgap, hlex⟩ := lexeme_mark hm hq (runes body)
    have hslash : '\\' ≠ quote := forall_mem_of_all (p := ('\\' ≠ ·)) (by decide) quote hq
    have hread := readable_runes (ofChars (mark ++ [quote]) ++ body)
    rw [runes_ofChars, ← codePoints] at hread ⊢
    obtain ⟨r, rs, hcons⟩ : ∃ r rs, codePoints (mark ++ [quote]) ++ runes body = r :: rs :=
      List.exists_cons_of_ne_nil (by simp)
    rw [hcons] at hgap hlex hread ⊢
    rw [chars, ← stringBody_eq_none_iff hslash]
    simp only [stringFrom, ofChar] at hlex
    cases hbody : stringBody quote (runes body) with
    | none =>
      rw [hbody] at hlex
      simp [tokensFrom_lexeme_error hgap hlex]
    | some parts =>
      rw [hbody] at hlex
      simp [tokensFrom_ne_error hread hgap hlex]

/-- A datetime with an escaped quote, a backslash at its end and a line break, before a word; and
one whose only other quote is escaped. -/
theorem string_decoded_datetime :
    lexeme (runes "d'a\\'\n\\\\'x") =
      .ok ⟨.datetime, "a'\n\\", runes "d'a\\'\n\\\\'", runes "x"⟩ ∧
    tokensFrom .start (runes "d'a\\'") = .error ⟨.lex .unterminatedString, .start⟩ := by
  have hmark : (['d'], .datetime) ∈ stringMarks := by decide
  have hquote : '\'' ∈ ['"', '\''] := by decide
  obtain ⟨hclosed, hunclosed, -⟩ := string_decoded hmark hquote .start
  refine ⟨(hclosed ['a', '\'', '\n', '\\'] "x").1, (hunclosed "a\\'").2 ?_⟩
  exact (stringBody_eq_none_iff (by decide) _).1 (by decide +kernel)

end AccessLayer.Surql
