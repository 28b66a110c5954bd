import AccessLayer.Proofs.Surql.Lookahead
import AccessLayer.Proofs.Surql.TokenText

/-!
# Readers keep to the spelling

What the readers take off a text has the spelling of a gap or of a token, and the literal that they
give to a token is the one that its text spells.

* `skipped_gap`: a piece that is read as a gap may stand before any gap.
* `Plain`: a run without delimiters and white space, as numbers, words and operators are.
* `faithful_lexeme`: the literal of a token is the one that its text spells, and it does not end
  with a gap.
-/

namespace AccessLayer.Surql

open Bytes
open Lexeme

variable {rs rest taken : List Rune} {kind : TokenKind} {l : Lexeme} {c : Char} {cs : List Char}
  {r : Rune}

/-! ## Gaps -/

theorem Skipped.spaces {gap rest : List Char} (hcs : ∀ c ∈ cs, isSpace c) (h : Skipped gap rest) :
    Skipped (cs ++ gap) rest := by
  induction cs with
  | nil => exact h
  | cons c cs ih =>
    rw [List.forall_mem_cons] at hcs
    exact .space hcs.1 (ih hcs.2)

namespace Lexeme

variable {rs : List Rune}

theorem startsWith_iff : startsWith cs rs ↔ cs <+: rs.map (·.char) := by
  induction cs generalizing rs with
  | nil => simp [startsWith]
  | cons c cs ih =>
    cases rs with
    | nil => simp [startsWith]
    | cons r rs =>
      rw [startsWith, Bool.and_eq_true, beq_iff_eq, ih, List.map_cons, List.cons_prefix_cons,
        eq_comm (a := r.char)]

/-- A text starts with the characters that are tested for. -/
theorem chars_take (h : startsWith cs rs) : (rs.take cs.length).map (·.char) = cs := by
  rw [List.map_take]
  exact (List.prefix_iff_eq_take.1 (startsWith_iff.1 h)).symm

/-- A run of one class is read off the characters. -/
theorem chars_spanChars (p : Char → Bool) (rs : List Rune) :
    (spanChars p rs).1.map (·.char) = (rs.map (·.char)).takeWhile p ∧
      (spanChars p rs).2.map (·.char) = (rs.map (·.char)).dropWhile p := by
  rw [List.takeWhile_map, List.dropWhile_map]
  exact ⟨rfl, rfl⟩

/-- A comment ends at the first `*/`. -/
theorem chars_commentBody (h : commentBody rs = some (taken, rest)) :
    ∃ body, taken.map (·.char) = body ++ ['*', '/'] ∧ ¬ ['*', '/'] <:+: body ++ ['*'] := by
  induction rs generalizing taken rest with
  | nil => simp [commentBody] at h
  | cons r rs ih =>
    have hsplit := commentBody_split h
    simp only [commentBody] at h
    split_ifs at h with hstart
    · simp only [Option.some.injEq, Prod.mk.injEq] at h
      refine ⟨[], ?_, by decide⟩
      rw [← h.1]
      exact chars_take hstart
    · simp only [Option.map_eq_some_iff, Prod.mk.injEq, Prod.exists] at h
      obtain ⟨taken, rest, hbody, rfl, rfl⟩ := h
      obtain ⟨body, htaken, hnone⟩ := ih hbody
      refine ⟨r.char :: body, by rw [List.map_cons, htaken]; rfl, ?_⟩
      rw [List.cons_append, List.infix_cons_iff, not_or]
      refine ⟨fun hfront => hstart (startsWith_iff.2 ?_), hnone⟩
      -- a mark at the front of the body is one at the front of the text
      refine hfront.trans ⟨'/' :: rest.map (·.char), ?_⟩
      rw [← hsplit]
      simp [htaken]

end Lexeme

/-- A line comment is read up to the end of its line. -/
theorem skipped_line {mark : List Char} {more after : List Char} (hmark : mark ∈ lineMarks)
    (hstart : startsWith mark rs)
    (hrest : (spanChars (· != '\n') rs).2.map (·.char) = more ++ after)
    (hmore : Skipped more after) :
    Skipped ((spanChars (· != '\n') rs).1.map (·.char) ++ more) after := by
  obtain ⟨text, htext⟩ := startsWith_iff.1 hstart
  have hall : ∀ mark ∈ lineMarks, (mark.all fun c => c != '\n') = true := by decide
  have hnone := List.all_eq_true.1 (hall mark hmark)
  rw [(chars_spanChars _ rs).2] at hrest
  rw [(chars_spanChars _ rs).1, ← htext, List.takeWhile_append_of_pos hnone]
  refine .line hmark (fun hm => ?_) (fun c hc => ?_) hmore
  · exact absurd (List.all_eq_true.1 List.all_takeWhile _ hm) (by decide)
  · rw [← hrest] at hc
    have hhead := List.head?_dropWhile_not (· != '\n') (rs.map (·.char))
    rw [Option.mem_def.1 hc] at hhead
    simpa using hhead

/-- A block comment is read up to its first end. -/
theorem skipped_block {body : List Rune} {more after : List Char}
    (hstart : startsWith ['/', '*'] rs)
    (hbody : commentBody (rs.drop 2) = some (body, rest)) (hmore : Skipped more after) :
    Skipped ((rs.take 2 ++ body).map (·.char) ++ more) after := by
  obtain ⟨inner, hinner, hnone⟩ := chars_commentBody hbody
  have hopen : (rs.take 2).map (·.char) = ['/', '*'] := chars_take hstart
  rw [List.map_append, hopen, hinner, ← List.append_assoc ['/', '*']]
  exact .block hnone hmore

theorem skipped_gap {more after : List Char} (h : gap rs = .ok (some (taken, rest)))
    (hrest : rest.map (·.char) = more ++ after) (hmore : Skipped more after) :
    Skipped (taken.map (·.char) ++ more) after := by
  cases rs with
  | nil => simp [gap] at h
  | cons r rs =>
    simp only [gap] at h
    split_ifs at h with hspace hline hblock
    · simp only [Except.ok.injEq, Option.some.injEq] at h
      obtain rfl : (spanChars isSpace (r :: rs)).1 = taken := congrArg Prod.fst h
      rw [(chars_spanChars isSpace (r :: rs)).1]
      exact .spaces (fun c hc => List.all_eq_true.1 List.all_takeWhile c hc) hmore
    · simp only [Except.ok.injEq, Option.some.injEq] at h
      obtain rfl : (spanChars (· != '\n') (r :: rs)).1 = taken := congrArg Prod.fst h
      obtain rfl : (spanChars (· != '\n') (r :: rs)).2 = rest := congrArg Prod.snd h
      simp only [Bool.or_eq_true, beq_iff_eq] at hline
      rcases hline with (hdash | hslash) | hhash
      · exact skipped_line (by simp [lineMarks]) hdash hrest hmore
      · exact skipped_line (by simp [lineMarks]) hslash hrest hmore
      · have hstart : startsWith ['#'] (r :: rs) = true := by simp [startsWith, hhash]
        exact skipped_line (by simp [lineMarks]) hstart hrest hmore
    · split at h
      · next body after' hbody =>
        simp only [Except.ok.injEq, Option.some.injEq, Prod.mk.injEq] at h
        obtain ⟨rfl, rfl⟩ := h
        exact skipped_block hblock (by rwa [List.drop_succ_cons]) hmore
      · cases h
    · cases h

/-! ## Readers of fenced tokens -/

theorem unescape?_eq (c : Char) : unescape? c = escapeTable.lookup c := by
  unfold unescape?
  split
  case h_12 => exact (List.lookup_eq_none_iff.2 (by simp_all [escapeTable])).symm
  all_goals rfl

theorem unescaped_escape (e : Char) (cs : List Char) :
    unescaped ('\\' :: e :: cs) = unescape e ++ unescaped cs := by
  rw [unescaped, if_pos rfl, unescape, unescape?_eq]
  cases escapeTable.lookup e <;> rfl

theorem unescaped_cons (hc : c ≠ '\\') (cs : List Char) :
    unescaped (c :: cs) = c :: unescaped cs := by
  cases cs with
  | nil => rfl
  | cons e cs => rw [unescaped, if_neg hc]

theorem bare_cons (hc : c ≠ '\\') (cs : List Char) : bare (c :: cs) = c :: bare cs := by
  cases cs with
  | nil => rfl
  | cons e cs => rw [bare, if_neg hc]

namespace Lexeme

/-- The content of a string ends at the first quote that is part of no escape. -/
theorem chars_stringBody {quote : Char} {text : List Char}
    (h : stringBody quote rs = some (text, taken, rest)) :
    ∃ inner q, taken = inner ++ [q] ∧ q.char = quote ∧ text = unescaped (inner.map (·.char)) ∧
      ∀ c ∈ bare (inner.map (·.char)), c ≠ '\\' ∧ c ≠ quote := by
  fun_induction stringBody quote rs generalizing text taken rest with
  | case1 => cases h
  | case2 r hr =>
    cases h
    exact ⟨[], r, rfl, beq_iff_eq.1 hr, rfl, by simp [bare]⟩
  | case3 r hr => cases h
  | case4 r e rs hr =>
    cases h
    exact ⟨[], r, rfl, beq_iff_eq.1 hr, rfl, by simp [bare]⟩
  | case5 r e rs hr he ih =>
    simp only [Option.map_eq_some_iff, Prod.mk.injEq, Prod.exists] at h
    obtain ⟨text, taken, rest, hbody, rfl, rfl, rfl⟩ := h
    obtain ⟨inner, q, rfl, hq, rfl, hbare⟩ := ih hbody
    rw [beq_iff_eq] at he
    refine ⟨r :: e :: inner, q, rfl, hq, ?_, ?_⟩
    · rw [List.map_cons, List.map_cons, he, unescaped_escape]
    · rwa [List.map_cons, List.map_cons, bare, if_pos he]
  | case6 r e rs hr he ih =>
    simp only [Option.map_eq_some_iff, Prod.mk.injEq, Prod.exists] at h
    obtain ⟨text, taken, rest, hbody, rfl, rfl, rfl⟩ := h
    obtain ⟨inner, q, rfl, hq, rfl, hbare⟩ := ih hbody
    rw [beq_iff_eq] at hr he
    refine ⟨r :: inner, q, rfl, hq, ?_, ?_⟩
    · rw [List.map_cons, unescaped_cons he]
    · rw [List.map_cons, bare_cons he, List.forall_mem_cons]
      exact ⟨⟨he, hr⟩, hbare⟩

end Lexeme

/-- The last code point of a run is no white space. -/
def EndsDark (rs : List Rune) : Prop := ∃ w x, rs = w ++ [x] ∧ isSpace x.char = false

/-- The literal of a token is the one its text spells, and it ends with a character of its own. -/
structure Lexeme.Faithful (l : Lexeme) : Prop where
  spells : Spells l.kind (ofRunes l.taken) l.literal
  dark : EndsDark l.taken

/-- The characters of a fence are read from their own encoding, and none of them is white space. -/
theorem Fence.chars_facts {f : Fence} (hf : f ∈ fences) :
    ∀ c ∈ f.left ++ f.right, c ≠ replacementChar ∧ isSpace c = false := by
  have hall : ∀ f ∈ fences,
      ((f.left ++ f.right).all fun c => decide (c ≠ replacementChar ∧ isSpace c = false)) =
        true := by
    decide
  exact forall_mem_of_all (hall f hf)

/-- A run that is made of the characters of a fence and of code points between them. -/
theorem spells_fence {f : Fence} {front inner back : List Rune} (hf : f ∈ fences)
    (hread : Readable (front ++ inner ++ back)) (hfront : front.map (·.char) = f.left)
    (hback : back.map (·.char) = f.right) (hinner : f.Encloses (ofRunes inner)) :
    Spells f.kind (ofRunes (front ++ inner ++ back)) (f.literal (ofRunes inner)) := by
  have hne : ∀ r, r ∈ front ∨ r ∈ back → r.char ≠ replacementChar := by
    intro r hr
    refine (Fence.chars_facts hf r.char ?_).1
    rw [← hfront, ← hback, ← List.map_append]
    exact List.mem_map_of_mem (List.mem_append.2 hr)
  have htext : ofRunes (front ++ inner ++ back) = f.around (ofRunes inner) := by
    rw [ofRunes_append, ofRunes_append,
      hread.left.left.ofRunes_eq fun r hr => hne r (.inl hr),
      hread.right.ofRunes_eq fun r hr => hne r (.inr hr), hfront, hback]
    rfl
  rw [htext]
  exact .fenced hf hinner

/-- A string after its mark. -/
theorem faithful_stringFrom {front : List Rune} (hread : Readable l.taken)
    (hf : ⟨kind, front.map (·.char) ++ [peek rs], [peek rs], true⟩ ∈ fences)
    (h : stringFrom kind front rs = .ok l) : l.Faithful := by
  cases rs with
  | nil => cases h
  | cons q body =>
    simp only [stringFrom] at h
    split at h
    · next text taken rest hbody =>
      cases h
      obtain ⟨inner, q', rfl, hq', rfl, hbare⟩ := chars_stringBody hbody
      have htaken : front ++ q :: (inner ++ [q']) = front ++ [q] ++ inner ++ [q'] := by simp
      rw [htaken] at hread ⊢
      have hinner : chars (ofRunes inner) = inner.map (·.char) :=
        hread.left.right.chars_ofRunes
      have hspell := spells_fence hf hread (by simp [peek]) (by simp [peek, hq'])
        (by simpa [Fence.Encloses, hinner, peek] using hbare)
      rw [Fence.literal, if_pos rfl, hinner] at hspell
      exact ⟨hspell, _, q', rfl, hq'.symm ▸ (Fence.chars_facts hf (peek (q :: body)) (by simp)).2⟩
    · cases h

theorem faithful_quotedIdent {closing : Char} (hread : Readable l.taken)
    (hf : ⟨.ident, [peek rs], [closing], false⟩ ∈ fences) (h : quotedIdent closing rs = .ok l) :
    l.Faithful := by
  cases rs with
  | nil => cases h
  | cons o body =>
    simp only [quotedIdent] at h
    split at h
    · cases h
    · next name c rest hspan =>
      cases h
      have hname := chars_spanChars (· != closing) body
      rw [hspan] at hname
      have hread' : Readable ([o] ++ name ++ [c]) := hread
      have hclose : c.char = closing := by
        have hhead := List.head?_dropWhile_not (· != closing) (body.map (·.char))
        rw [← hname.2] at hhead
        simpa using hhead
      refine ⟨spells_fence hf hread' rfl (by rw [← hclose]; rfl) ?_, o :: name, c, rfl, ?_⟩
      swap
      · exact hclose.symm ▸ (Fence.chars_facts hf closing (by simp)).2
      intro x hx
      rw [hread'.left.right.chars_ofRunes, hname.1] at hx
      simpa using List.all_eq_true.1 List.all_takeWhile x hx

/-! ## Identifier characters -/

theorem isIdentPart_of_isLetter (h : isLetter c) : isIdentPart c := by
  simp [isIdentPart, isIdentStart, h]

theorem isIdentPart_of_isAsciiDigit (h : isAsciiDigit c) : isIdentPart c := by
  simp [isIdentPart, AccessLayer.isDigit_of_isDigit h]

section

variable {rs : List Rune} {r : Rune}

theorem forall_spanChars {p : Char → Bool} (h : r ∈ (spanChars p rs).1) : p r.char :=
  List.all_eq_true.1 (List.all_takeWhile (p := fun r : Rune => p r.char)) r h

theorem isIdentPart_spanLetters (h : r ∈ (spanChars isLetter rs).1) : isIdentPart r.char :=
  isIdentPart_of_isLetter (forall_spanChars h)

theorem isIdentPart_digits (h : r ∈ (digits rs).1) : isIdentPart r.char := by
  induction rs with
  | nil => cases h
  | cons x rs ih =>
    rw [digits] at h
    split_ifs at h with hx
    · rcases List.mem_cons.1 h with rfl | h
      · rw [Bool.or_eq_true, Bool.and_eq_true, beq_iff_eq] at hx
        rcases hx with hx | ⟨hx, -⟩
        · exact isIdentPart_of_isAsciiDigit hx
        · rw [hx]
          decide
      · exact ih h
    · cases h

theorem isIdentPart_moreUnits {fuel : Nat} (h : r ∈ (moreUnits fuel rs).2.1) :
    isIdentPart r.char := by
  induction fuel generalizing rs with
  | zero => cases h
  | succ fuel ih =>
    simp only [moreUnits] at h
    split_ifs at h
    · rcases List.mem_append.1 h with h | h
      · rcases List.mem_append.1 h with h | h
        · exact isIdentPart_digits h
        · exact isIdentPart_spanLetters h
      · exact ih h
    · rcases List.mem_append.1 h with h | h
      · exact isIdentPart_digits h
      · exact isIdentPart_spanLetters h
    · cases h

end

/-! ## Readers of plain tokens -/

/-- The code points of a run are neither delimiters nor white space. -/
def Plain (rs : List Rune) : Prop := ∀ r ∈ rs, r.char ∉ delimiters ∧ isSpace r.char = false

theorem plain_append {ss : List Rune} (hr : Plain rs) (hs : Plain ss) : Plain (rs ++ ss) :=
  List.forall_mem_append.2 ⟨hr, hs⟩

theorem plain_cons (hr : r.char ∉ delimiters ∧ isSpace r.char = false) (hrs : Plain rs) :
    Plain (r :: rs) :=
  List.forall_mem_cons.2 ⟨hr, hrs⟩

theorem plain_nil : Plain [] := List.forall_mem_nil _

theorem plain_of_chars (h : rs.map (·.char) = cs)
    (hcs : ∀ c ∈ cs, c ∉ delimiters ∧ isSpace c = false) : Plain rs :=
  fun _ hr => hcs _ (h ▸ List.mem_map_of_mem hr)

/-- Neither delimiters nor white space are characters of identifiers. -/
theorem not_mem_delimiters (h : isIdentPart c) : c ∉ delimiters ∧ isSpace c = false := by
  have hall : ∀ d ∈ delimiters, isIdentPart d = false := forall_mem_of_all (by decide +kernel)
  refine ⟨fun hd => ?_, Bool.eq_false_iff.2 fun hspace => ?_⟩
  · rw [hall c hd] at h
    cases h
  · rw [isIdentPart_of_isSpace hspace] at h
    cases h

theorem plain_of_isIdentPart (h : ∀ r ∈ rs, isIdentPart r.char) : Plain rs :=
  fun r hr => not_mem_delimiters (h r hr)

theorem plain_spanIdent (rs : List Rune) : Plain (spanChars isIdentPart rs).1 :=
  plain_of_isIdentPart fun _ hr => forall_spanChars hr

theorem plain_digits (rs : List Rune) : Plain (digits rs).1 := plain_of_isIdentPart fun _ hr =>
    isIdentPart_digits hr

theorem plain_fraction (rs : List Rune) : Plain (fraction rs).1 := by
  cases rs with
  | nil => exact plain_nil
  | cons p rs =>
    simp only [fraction]
    split_ifs with h
    · refine plain_cons ?_ (plain_digits rs)
      simp only [Bool.and_eq_true, beq_iff_eq] at h
      rw [h.1]
      decide
    · exact plain_nil

theorem plain_exponent (rs : List Rune) : Plain (exponent rs).1 := by
  match rs with
  | [] => exact plain_nil
  | [_] => exact plain_nil
  | e :: s :: rs =>
    simp only [exponent]
    split_ifs with h
    · simp only [Bool.and_eq_true, Bool.or_eq_true, beq_iff_eq] at h
      refine plain_cons ?_ (plain_cons ?_ (plain_digits rs))
      · rcases h.1 with he | he <;> rw [he] <;> decide
      · rcases h.2 with hdigit | ⟨hsign | hsign, -⟩
        · exact not_mem_delimiters (isIdentPart_of_isAsciiDigit hdigit)
        · rw [hsign]; decide
        · rw [hsign]; decide
    · exact plain_nil

theorem plain_numberSuffix (rs : List Rune) : Plain (numberSuffix rs).2.1 := by
  have hsuffix : Plain (spanChars isLetter rs).1 := plain_of_isIdentPart fun _ hr =>
    isIdentPart_spanLetters hr
  simp only [numberSuffix]
  split
  · split
    · refine plain_append (plain_append hsuffix ?_) (plain_spanIdent _)
      exact plain_of_isIdentPart fun _ hr => isIdentPart_moreUnits hr
    · split
      · exact plain_append (plain_append hsuffix plain_nil) (plain_spanIdent _)
      · exact plain_append (plain_append hsuffix plain_nil) (plain_spanIdent _)
  · exact plain_nil

theorem plain_number (rs : List Rune) : Plain (number rs).taken :=
  plain_append (plain_append (plain_append (plain_digits _) (plain_fraction _)) (plain_exponent _))
    (plain_numberSuffix _)

theorem plain_path (fuel : Nat) (rs : List Rune) : Plain (path fuel rs).1 := by
  induction fuel generalizing rs with
  | zero => exact plain_nil
  | succ fuel ih =>
    have hpart := plain_spanIdent rs
    simp only [path]
    split_ifs with h
    · rw [Bool.and_eq_true] at h
      have hcolons := plain_of_chars (chars_take h.1) (forall_mem_of_all (by decide))
      exact plain_append (plain_append hpart hcolons) (ih _)
    · exact hpart

/-! ## Tokens as they are read -/

theorem Plain.endsDark (h : Plain rs) (hne : rs ≠ []) : EndsDark rs := by
  obtain ⟨w, x, rfl⟩ := (List.eq_nil_or_concat rs).resolve_left hne
  rw [List.concat_eq_append] at h ⊢
  exact ⟨w, x, rfl, (h x (by simp)).2⟩

theorem faithful_param (hread : Readable l.taken) (hr : r.char = '$')
    (h : param (r :: rs) = .ok l) : l.Faithful := by
  have hf : ⟨.param, ['$'], [], false⟩ ∈ fences := by decide
  simp only [param, List.drop_succ_cons, List.drop_zero, List.take_succ_cons, List.take_zero] at h
  split_ifs at h with hname
  cases h
  obtain ⟨w, x, hspan, hx⟩ := (plain_spanIdent rs).endsDark (by simpa using hname)
  refine ⟨?_, r :: w, x, by simp [hspan], hx⟩
  dsimp only at hread ⊢
  rw [← List.append_nil ([r] ++ _)] at hread ⊢
  exact spells_fence hf hread (by simp [hr]) rfl fun _ _ => List.not_mem_nil

theorem faithful_plain (hread : Readable l.taken) (hkind : l.kind.isPlain) (hplain : Plain l.taken)
    (hliteral : l.literal = ofRunes l.taken) (hne : l.taken ≠ []) : l.Faithful := by
  refine ⟨hliteral ▸ .plain hkind fun c hc => ?_, hplain.endsDark hne⟩
  rw [hliteral, hread.chars_ofRunes] at hc
  obtain ⟨r, hr, rfl⟩ := List.mem_map.1 hc
  exact (hplain r hr).1

theorem isPlain_number (rs : List Rune) : (number rs).kind.isPlain := by
  simp only [number, numberSuffix]
  split_ifs <;> rfl

theorem mem_fences_of_stringMark? {mark : Bytes} {quote : Char} (h : stringMark? mark = some kind)
    (hquote : quote = '"' ∨ quote = '\'') :
    ⟨kind, mark.chars ++ [quote], [quote], true⟩ ∈ fences := by
  unfold stringMark? at h
  split_ifs at h with hs hd hu hr <;> cases h
  · rw [beq_iff_eq.1 hs]
    rcases hquote with rfl | rfl <;> decide
  · rw [beq_iff_eq.1 hd]
    rcases hquote with rfl | rfl <;> decide
  · rw [beq_iff_eq.1 hu]
    rcases hquote with rfl | rfl <;> decide
  · rw [beq_iff_eq.1 hr]
    rcases hquote with rfl | rfl <;> decide

/-- An identifier, or a string with a mark. -/
theorem faithful_word (hrs : Readable rs) (hread : Readable l.taken) (hne : l.taken ≠ [])
    (h : word rs = .ok l) : l.Faithful := by
  have hmark := hrs.of_append_eq (path_split rs.length rs)
  simp only [word] at h
  split at h
  · next kind hkind =>
    split_ifs at hkind with hquote
    refine faithful_stringFrom hread ?_ h
    rw [← hmark.chars_ofRunes]
    simp only [Bool.or_eq_true, beq_iff_eq] at hquote
    exact mem_fences_of_stringMark? hkind hquote
  · cases h
    exact faithful_plain hread rfl (plain_path _ _) rfl hne

/-- A run with the characters `cs` has the literal `cs`. -/
theorem faithful_of_chars (hread : Readable taken) (hkind : kind.isPlain)
    (hchars : taken.map (·.char) = cs)
    (hcs : ∀ c ∈ cs, (c ∉ delimiters ∧ isSpace c = false) ∧ c ≠ replacementChar)
    (hne : taken ≠ []) : Lexeme.Faithful ⟨kind, ofChars cs, taken, rest⟩ := by
  have hliteral := hread.ofRunes_eq fun r hr => (hcs _ (hchars ▸ List.mem_map_of_mem hr)).2
  exact faithful_plain hread hkind (plain_of_chars hchars fun c hc =>
    (hcs c hc).1) (hchars ▸ hliteral.symm) hne

theorem longOperators_chars : ∀ op ∈ longOperators, ofString op = ofChars op.toList ∧
    (op.toList.all fun c => decide ((c ∉ delimiters ∧ isSpace c = false) ∧
      c ≠ replacementChar)) := by
  decide

theorem punctuation?_plain (h : punctuation? c = some kind) :
    kind.isPlain ∧ (c ∉ delimiters ∧ isSpace c = false) ∧ c ≠ replacementChar := by
  unfold punctuation? at h
  split at h
  case h_13 =>
    split_ifs at h with hshort
    cases h
    have hall : ∀ c ∈ shortOperators, (c ∉ delimiters ∧ isSpace c = false) ∧ c ≠ replacementChar :=
      forall_mem_of_all (by decide)
    exact ⟨rfl, hall c (List.contains_iff_mem.1 hshort)⟩
  all_goals
    cases h
    decide

/-- An operator or a punctuation character. -/
theorem faithful_symbol (hread : Readable l.taken) (h : symbol (r :: rs) = .ok l) : l.Faithful := by
  have hne := (symbol_split h).2
  simp only [symbol] at h
  split at h
  · next op hop =>
    cases h
    obtain ⟨htext, hchars⟩ := longOperators_chars op (List.mem_of_find?_eq_some hop)
    have hstart : startsWith op.toList (r :: rs) = true :=
      List.find?_some (p := fun op : String => startsWith op.toList (r :: rs)) hop
    rw [← String.length_toList] at hread hne ⊢
    rw [htext]
    exact faithful_of_chars hread rfl (chars_take hstart) (forall_mem_of_all hchars) hne
  · split at h
    · next kind hkind =>
      cases h
      obtain ⟨hplain, hc⟩ := punctuation?_plain hkind
      exact faithful_of_chars hread hplain rfl (List.forall_mem_singleton.2 hc) hne
    · cases h

theorem faithful_lexeme (hrs : Readable (r :: rs)) (h : lexeme (r :: rs) = .ok l) : l.Faithful := by
  obtain ⟨hsplit, hne⟩ := lexeme_split h
  have hread := hrs.of_append_eq hsplit
  simp only [lexeme] at h
  split_ifs at h with hparam hstring hback hangle hdigit hword
  · exact faithful_param hread (beq_iff_eq.1 hparam) h
  · refine faithful_stringFrom hread ?_ h
    simp only [Bool.or_eq_true, beq_iff_eq] at hstring
    rcases hstring with hq | hq <;> rw [hq] <;> decide
  · exact faithful_quotedIdent hread (by rw [beq_iff_eq.1 hback]; decide) h
  · exact faithful_quotedIdent hread (by rw [beq_iff_eq.1 hangle]; decide) h
  · cases h
    exact faithful_plain hread (isPlain_number _) (plain_number _) rfl hne
  · exact faithful_word hrs hread hne h
  · exact faithful_symbol hread h

end AccessLayer.Surql
