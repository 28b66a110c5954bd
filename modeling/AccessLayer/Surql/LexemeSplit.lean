import AccessLayer.Surql.Lexeme

/-!
# Readers split their input

What a reader takes and what it leaves are its input again, and a token takes at least one code
point. Nothing is dropped or reordered while a text is read.

* `gap_split`, `lexeme_split`: taken and rest make up the input.
* `gap_length_lt`, `lexeme_length_lt`: the rest is shorter than the input.
-/

namespace AccessLayer.Surql

variable {r : Rune} {rs taken rest : List Rune} {l : Lexeme}

namespace Lexeme

theorem spanChars_split (p : Char → Bool) (rs : List Rune) :
    (spanChars p rs).1 ++ (spanChars p rs).2 = rs :=
  List.takeWhile_append_dropWhile

theorem spanChars_eq {p : Char → Bool} (hr : p r.char = true)
    (h : spanChars p (r :: rs) = (taken, rest)) : taken ++ rest = r :: rs ∧ taken ≠ [] := by
  have hsplit := spanChars_split p (r :: rs)
  rw [h] at hsplit
  refine ⟨hsplit, ?_⟩
  simp only [spanChars, List.takeWhile_cons, hr, if_true, Prod.mk.injEq] at h
  rw [← h.1]
  exact List.cons_ne_nil _ _

theorem commentBody_split {body : List Rune} (h : commentBody rs = some (body, rest)) :
    body ++ rest = rs := by
  induction rs generalizing body rest with
  | nil => simp [commentBody] at h
  | cons r rs ih =>
    simp only [commentBody] at h
    split at h
    · simp only [Option.some.injEq, Prod.mk.injEq] at h
      rw [← h.1, ← h.2, List.take_append_drop]
    · simp only [Option.map_eq_some_iff, Prod.mk.injEq, Prod.exists] at h
      obtain ⟨b, t, hb, rfl, rfl⟩ := h
      simp [ih hb]

theorem gap_split (h : gap rs = .ok (some (taken, rest))) : taken ++ rest = rs ∧ taken ≠ [] := by
  cases rs with
  | nil => simp [gap] at h
  | cons r rs =>
    simp only [gap] at h
    split at h
    · next hr => exact spanChars_eq hr (by simpa using h)
    · split at h
      · next hc =>
        have hr : (r.char != '\n') = true := by
          simp only [startsWith, Bool.or_eq_true, Bool.and_eq_true, beq_iff_eq] at hc
          rcases hc with (h | h) | h <;> simp_all
        exact spanChars_eq hr (by simpa using h)
      · split at h
        · next hs =>
          split at h
          · next body after hb =>
            simp only [Except.ok.injEq, Option.some.injEq, Prod.mk.injEq] at h
            have hsplit := commentBody_split hb
            obtain ⟨rfl, rfl⟩ := h
            cases rs with
            | nil => simp [startsWith] at hs
            | cons c rs => simp_all
          · simp at h
        · simp at h

theorem stringBody_split {quote : Char} {text : List Char}
    (h : stringBody quote rs = some (text, taken, rest)) : taken ++ rest = rs := by
  fun_induction stringBody quote rs generalizing text taken rest with
  | case1 => simp at h
  | case2 r hr => simp_all
  | case3 r hr => simp at h
  | case4 r e rs hr =>
    simp only [Option.some.injEq, Prod.mk.injEq] at h
    obtain ⟨-, rfl, rfl⟩ := h
    rfl
  | case5 r e rs hr he ih =>
    simp only [Option.map_eq_some_iff, Prod.mk.injEq, Prod.exists] at h
    obtain ⟨x, t, u, hb, -, rfl, rfl⟩ := h
    simp [ih hb]
  | case6 r e rs hr he ih =>
    simp only [Option.map_eq_some_iff, Prod.mk.injEq, Prod.exists] at h
    obtain ⟨x, t, u, hb, -, rfl, rfl⟩ := h
    simp [ih hb]

theorem stringFrom_split {kind : TokenKind} {front : List Rune}
    (h : stringFrom kind front rs = .ok l) : l.taken ++ l.rest = front ++ rs ∧ l.taken ≠ [] := by
  cases rs with
  | nil => simp [stringFrom] at h
  | cons q body =>
    simp only [stringFrom] at h
    split at h
    · next text taken rest hb =>
      cases h
      simp [stringBody_split hb]
    · simp at h

theorem quotedIdent_split {closing : Char} (h : quotedIdent closing rs = .ok l) :
    l.taken ++ l.rest = rs ∧ l.taken ≠ [] := by
  cases rs with
  | nil => simp [quotedIdent] at h
  | cons o body =>
    simp only [quotedIdent] at h
    split at h
    · simp at h
    · next name c rest hs =>
      cases h
      have := spanChars_split (· != closing) body
      simp only [hs] at this
      simp [← this]

theorem digits_split (rs : List Rune) : (digits rs).1 ++ (digits rs).2 = rs := by
  induction rs with
  | nil => rfl
  | cons r rs ih =>
    simp only [digits]
    split <;> simp [ih]

theorem fraction_split (rs : List Rune) : (fraction rs).1 ++ (fraction rs).2 = rs := by
  cases rs with
  | nil => rfl
  | cons p rest =>
    simp only [fraction]
    split <;> simp [digits_split]

theorem exponent_split (rs : List Rune) : (exponent rs).1 ++ (exponent rs).2 = rs := by
  match rs with
  | [] => rfl
  | [_] => rfl
  | e :: s :: rest =>
    simp only [exponent]
    split <;> simp [digits_split]

theorem moreUnits_split (fuel : Nat) (rs : List Rune) :
    (moreUnits fuel rs).2.1 ++ (moreUnits fuel rs).2.2 = rs := by
  induction fuel generalizing rs with
  | zero => rfl
  | succ fuel ih =>
    have hd := digits_split rs
    have hs := spanChars_split isLetter (digits rs).2
    simp only [moreUnits]
    split
    · split
      · simp only [List.append_assoc]
        rw [ih, hs, hd]
      · simp only [List.append_assoc]
        rw [hs, hd]
    · rfl

theorem numberSuffix_split (rs : List Rune) :
    (numberSuffix rs).2.1 ++ (numberSuffix rs).2.2 = rs := by
  have hs := spanChars_split isLetter rs
  simp only [numberSuffix]
  split
  · split
    · simp only [List.append_assoc]
      rw [spanChars_split, moreUnits_split, hs]
    · split <;> simp only [List.append_assoc, List.nil_append] <;> rw [spanChars_split, hs]
  · rfl

theorem number_split (rs : List Rune) : (number rs).taken ++ (number rs).rest = rs := by
  simp only [number, List.append_assoc]
  rw [numberSuffix_split, exponent_split, fraction_split, digits_split]

theorem number_taken_ne_nil (h : isAsciiDigit r.char = true) : (number (r :: rs)).taken ≠ [] := by
  simp [number, digits, h]

theorem path_split (fuel : Nat) (rs : List Rune) : (path fuel rs).1 ++ (path fuel rs).2 = rs := by
  induction fuel generalizing rs with
  | zero => rfl
  | succ fuel ih =>
    have hs := spanChars_split isIdentPart rs
    simp only [path]
    split
    · simp only [List.append_assoc]
      rw [ih, List.take_append_drop, hs]
    · exact hs

theorem path_ne_nil (h : isIdentPart r.char = true) (fuel : Nat) :
    (path (fuel + 1) (r :: rs)).1 ≠ [] := by
  simp only [path]
  split <;> simp [spanChars, h]

theorem word_split (hr : isIdentStart r.char = true) (h : word (r :: rs) = .ok l) :
    l.taken ++ l.rest = r :: rs ∧ l.taken ≠ [] := by
  have hp := path_split (r :: rs).length (r :: rs)
  simp only [word] at h
  split at h
  · have := stringFrom_split h
    rwa [hp] at this
  · cases h
    exact ⟨hp, path_ne_nil (by simp [isIdentPart, hr]) rs.length⟩

theorem startsWith_ne_nil {cs : List Char} (hc : cs ≠ []) (h : startsWith cs rs = true) :
    rs ≠ [] := by
  cases rs with
  | nil => cases cs <;> simp_all [startsWith]
  | cons => simp

theorem symbol_split (h : symbol (r :: rs) = .ok l) :
    l.taken ++ l.rest = r :: rs ∧ l.taken ≠ [] := by
  simp only [symbol] at h
  split at h
  · next op hop =>
    cases h
    refine ⟨List.take_append_drop .., ?_⟩
    have hall : ∀ op ∈ longOperators, op.length ≠ 0 := by decide
    obtain ⟨n, hn⟩ := Nat.exists_eq_succ_of_ne_zero (hall op (List.mem_of_find?_eq_some hop))
    simp [hn]
  · split at h
    · cases h
      simp
    · simp at h

theorem param_split (h : param (r :: rs) = .ok l) : l.taken ++ l.rest = r :: rs ∧ l.taken ≠ [] := by
  simp only [param, List.drop_succ_cons, List.drop_zero] at h
  split at h
  · simp at h
  · cases h
    simp [spanChars_split]

end Lexeme

open Lexeme

theorem lexeme_split (h : lexeme (r :: rs) = .ok l) :
    l.taken ++ l.rest = r :: rs ∧ l.taken ≠ [] := by
  simp only [lexeme] at h
  split at h
  · exact param_split h
  split at h
  · simpa using stringFrom_split h
  split at h
  · exact quotedIdent_split h
  split at h
  · exact quotedIdent_split h
  split at h
  · next hd =>
    cases h
    exact ⟨number_split _, number_taken_ne_nil hd⟩
  split at h
  · next hi => exact word_split hi h
  · exact symbol_split h

theorem length_lt_of_split (h : taken ++ rest = rs) (hne : taken ≠ []) :
    rest.length < rs.length := by
  have := List.length_pos_iff.2 hne
  rw [← h, List.length_append]
  omega

theorem gap_length_lt (h : gap rs = .ok (some (taken, rest))) : rest.length < rs.length :=
  length_lt_of_split (gap_split h).1 (gap_split h).2

theorem lexeme_length_lt (h : lexeme (r :: rs) = .ok l) : l.rest.length < (r :: rs).length :=
  length_lt_of_split (lexeme_split h).1 (lexeme_split h).2

end AccessLayer.Surql
