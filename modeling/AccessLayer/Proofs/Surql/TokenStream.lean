import AccessLayer.Proofs.Except
import AccessLayer.Proofs.Surql.Lookahead
import AccessLayer.Surql.Tokenize

/-!
# Token streams of concatenated texts

The tokens of a text are those of its parts, if the cut between them is a line break: white space
ends every token, and a line break ends every line comment. Where a text stands in a file only moves
the places of its tokens.

* `Position.moved`, `Token.moved`: places after a number of bytes and lines were put in front.
* `tokensFrom_moved`: reading at a later place moves all places alike.
* `InOrder`: the tokens of a stream are not empty, do not overlap and lie in the text.
-/

namespace AccessLayer.Surql

open Position (after_append)
open Lexeme

variable {ts tokens : List Token} {l : Lexeme} {kind : TokenKind} {rs rest taken : List Rune}
  {p : Position}

/-! ## Places -/

/-- The place after `bytes` bytes and `lines` whole lines were put in front of the text. -/
def Position.moved (bytes lines : Nat) (p : Position) : Position :=
  ⟨p.offset + bytes, p.line + lines, p.col⟩

/-- The token after `bytes` bytes and `lines` whole lines were put in front of the text. -/
def Token.moved (bytes lines : Nat) (t : Token) : Token :=
  ⟨t.kind, t.literal, t.start.moved bytes lines, t.stop + bytes⟩

namespace Position

theorem next_moved (bytes lines : Nat) (p : Position) (r : Rune) :
    (p.moved bytes lines).next r = (p.next r).moved bytes lines := by
  simp only [next, moved]
  split_ifs <;> simp only [mk.injEq, and_true] <;> omega

theorem after_moved (bytes lines : Nat) (p : Position) (rs : List Rune) :
    (p.moved bytes lines).after rs = (p.after rs).moved bytes lines := by
  induction rs generalizing p with
  | nil => rfl
  | cons r rs ih =>
    rw [after, List.foldl_cons, next_moved, ← after, ih]
    rfl

theorem after_cons (p : Position) (r : Rune) (rs : List Rune) :
    p.after (r :: rs) = (p.next r).after rs := rfl

theorem next_offset (p : Position) (r : Rune) : (p.next r).offset = p.offset + r.bytes.length := by
  unfold next
  split_ifs <;> rfl

theorem after_offset (p : Position) (rs : List Rune) :
    (p.after rs).offset = p.offset + (Bytes.ofRunes rs).length := by
  induction rs generalizing p with
  | nil => rfl
  | cons r rs ih =>
    rw [after_cons, ih, next_offset, Bytes.ofRunes_cons, List.length_append]
    omega

/-- A place is the first one moved by what stands before it, as far as lines and bytes go. -/
theorem after_line (p : Position) (rs : List Rune) :
    (p.after rs).line = p.line + rs.countP (fun r => r.char == '\n') := by
  induction rs generalizing p with
  | nil => rfl
  | cons r rs ih =>
    rw [after_cons, ih, List.countP_cons]
    unfold next
    split_ifs <;> simp only <;> omega

end Position

/-! ## Steps of the stream -/

section Steps

variable {p : Position} {r : Rune} {rs : List Rune}

/-- A gap is skipped, and otherwise a token is read. -/
theorem tokensFrom_cons (p : Position) (r : Rune) (rs : List Rune) : tokensFrom p (r :: rs) =
    match gap (r :: rs) with
    | .error f => .error ⟨.lex f, p⟩
    | .ok (some (taken, rest)) => tokensFrom (p.after taken) rest
    | .ok none =>
      match lexeme (r :: rs) with
      | .error f => .error ⟨.lex f, p⟩
      | .ok l =>
        (tokensFrom (p.after l.taken) l.rest).map
          (⟨l.kind, l.literal, p, (p.after l.taken).offset⟩ :: ·) := by
  rw [tokensFrom]
  split
  · next h => simp only [h]
  · next h => simp only [h]
  · next h =>
    simp only [h]
    split
    · next hl => simp only [hl]
    · next l hl =>
      simp only [hl]
      cases tokensFrom (p.after l.taken) l.rest <;> rfl

theorem tokensFrom_gap (h : gap (r :: rs) = .ok (some (taken, rest))) :
    tokensFrom p (r :: rs) = tokensFrom (p.after taken) rest := by
  simp only [tokensFrom_cons, h]

theorem tokensFrom_gap_error {f : LexFault} (h : gap (r :: rs) = .error f) :
    tokensFrom p (r :: rs) = .error ⟨.lex f, p⟩ := by
  simp only [tokensFrom_cons, h]

theorem tokensFrom_lexeme (hg : gap (r :: rs) = .ok none) (hl : lexeme (r :: rs) = .ok l) :
    tokensFrom p (r :: rs) =
    (tokensFrom (p.after l.taken) l.rest).map (⟨l.kind, l.literal, p, (p.after l.taken).offset⟩ ::
      ·) := by
  simp only [tokensFrom_cons, hg, hl]

theorem tokensFrom_lexeme_error {f : LexFault} (hg : gap (r :: rs) = .ok none)
    (hl : lexeme (r :: rs) = .error f) : tokensFrom p (r :: rs) = .error ⟨.lex f, p⟩ := by
  simp only [tokensFrom_cons, hg, hl]

/-- What holds at the end of a text and where reading fails, and is kept when a gap or a token is
put in front, holds of every text and of what is read from it. -/
@[elab_as_elim]
theorem tokensFrom_rec {motive : Position → List Rune → Except ParseError (List Token) → Prop}
    (stop : ∀ p, motive p [] (.ok [Token.endAt p]))
    (fault : ∀ p r rs f, Lexeme.gap (r :: rs) = .error f ∨ Lexeme.gap (r :: rs) = .ok none ∧
      lexeme (r :: rs) = .error f →
      motive p (r :: rs) (.error ⟨.lex f, p⟩))
    (gap : ∀ p r rs taken rest result, Lexeme.gap (r :: rs) = .ok (some (taken, rest)) →
      motive (p.after taken) rest result → motive p (r :: rs) result)
    (token : ∀ p r rs l result, Lexeme.gap (r :: rs) = .ok none → lexeme (r :: rs) = .ok l →
      motive (p.after l.taken) l.rest result →
      motive p (r :: rs) (result.map (⟨l.kind, l.literal, p, (p.after l.taken).offset⟩ :: ·)))
    (p : Position) (rs : List Rune) : motive p rs (tokensFrom p rs) := by
  induction hn : rs.length using Nat.strongRecOn generalizing p rs with
  | ind n ih =>
    cases rs with
    | nil =>
      rw [tokensFrom]
      exact stop p
    | cons r rs =>
      cases hg : Lexeme.gap (r :: rs) with
      | error f =>
        rw [tokensFrom_gap_error hg]
        exact fault p r rs f (.inl hg)
      | ok o =>
        cases o with
        | some w =>
          rw [tokensFrom_gap hg]
          exact gap p r rs w.1 w.2 _ hg (ih _ (hn ▸ gap_length_lt hg) _ _ rfl)
        | none =>
          cases hl : lexeme (r :: rs) with
          | error f =>
            rw [tokensFrom_lexeme_error hg hl]
            exact fault p r rs f (.inr ⟨hg, hl⟩)
          | ok l =>
            rw [tokensFrom_lexeme hg hl]
            exact token p r rs l _ hg hl (ih _ (hn ▸ lexeme_length_lt hl) _ _ rfl)

/-- What holds at the end of a text, and is kept when a gap or a token is put in front, holds of
every text and its tokens. -/
@[elab_as_elim]
theorem tokensFrom_induction {motive : Position → List Rune → List Token → Prop}
    (stop : ∀ p, motive p [] [Token.endAt p])
    (gap : ∀ p r rs taken rest tokens, Lexeme.gap (r :: rs) = .ok (some (taken, rest)) →
      motive (p.after taken) rest tokens → motive p (r :: rs) tokens)
    (token : ∀ p r rs l tokens, Lexeme.gap (r :: rs) = .ok none → lexeme (r :: rs) = .ok l →
      motive (p.after l.taken) l.rest tokens →
      motive p (r :: rs) (⟨l.kind, l.literal, p, (p.after l.taken).offset⟩ :: tokens))
    (h : tokensFrom p rs = .ok tokens) : motive p rs tokens := by
  suffices hall : ∀ tokens, tokensFrom p rs = .ok tokens → motive p rs tokens from hall tokens h
  refine tokensFrom_rec ?_ ?_ ?_ ?_ p rs
  · rintro p _ ⟨⟩
    exact stop p
  · rintro p r rs f - _ ⟨⟩
  · intro p r rs taken rest result hg ih tokens h
    exact gap p r rs taken rest tokens hg (ih tokens h)
  · intro p r rs l result hg hl ih _ h
    obtain ⟨tokens, htokens, rfl⟩ := map_eq_ok.1 h
    exact token p r rs l tokens hg hl (ih tokens htokens)

/-- Every token but the last is read off the text where it stands, behind the gaps and tokens before
it. -/
theorem mem_tokensFrom (h : tokensFrom p rs = .ok tokens) :
    ∀ t ∈ tokens, t = Token.endAt (p.after rs) ∨
      ∃ front l, rs = front ++ (l.taken ++ l.rest) ∧ l.taken ≠ [] ∧
        gap (l.taken ++ l.rest) = .ok none ∧ lexeme (l.taken ++ l.rest) = .ok l ∧
        t = ⟨l.kind, l.literal, p.after front, (p.after (front ++ l.taken)).offset⟩ := by
  refine tokensFrom_induction ?_ ?_ ?_ h
  · intro p t ht
    exact .inl (List.mem_singleton.1 ht)
  · intro p r rs taken rest tokens hg ih t ht
    obtain rfl | ⟨front, l, hrest, hne, hgap, hl, rfl⟩ := ih t ht
    · exact .inl (by rw [← after_append, (gap_split hg).1])
    · refine .inr ⟨taken ++ front, l, ?_, hne, hgap, hl, ?_⟩
      · rw [List.append_assoc, ← hrest, (gap_split hg).1]
      · rw [← after_append, ← after_append, List.append_assoc]
  · intro p r rs l tokens hg hl ih t ht
    obtain ⟨hsplit, hne⟩ := lexeme_split hl
    rcases List.mem_cons.1 ht with rfl | ht
    · refine .inr ⟨[], l, hsplit.symm, hne, ?_, ?_, rfl⟩
      · rw [hsplit, hg]
      · rw [hsplit, hl]
    obtain rfl | ⟨front, m, hrest, hne, hgap, hm, rfl⟩ := ih t ht
    · exact .inl (by rw [← after_append, hsplit])
    · refine .inr ⟨l.taken ++ front, m, ?_, hne, hgap, hm, ?_⟩
      · rw [List.append_assoc, ← hrest, hsplit]
      · rw [← after_append, ← after_append, List.append_assoc]

/-- Reading fails where a gap or a token cannot be read, with the fault found there. -/
theorem tokensFrom_eq_error {e : ParseError} (h : tokensFrom p rs = .error e) :
    ∃ front back f, rs = front ++ back ∧ (gap back = .error f ∨ lexeme back = .error f) ∧
      e = ⟨.lex f, p.after front⟩ := by
  suffices hall : ∀ e, tokensFrom p rs = .error e → ∃ front back f, rs = front ++ back ∧
      (gap back = .error f ∨ lexeme back = .error f) ∧ e = ⟨.lex f, p.after front⟩ from hall e h
  refine tokensFrom_rec ?_ ?_ ?_ ?_ p rs
  · rintro p _ ⟨⟩
  · rintro p r rs f hf _ ⟨⟩
    exact ⟨[], r :: rs, f, rfl, hf.imp_right And.right, rfl⟩
  · intro p r rs taken rest result hg ih e h
    obtain ⟨front, back, f, rfl, hf, rfl⟩ := ih e h
    exact ⟨taken ++ front, back,
      f, by rw [List.append_assoc, (gap_split hg).1], hf, by rw [after_append]⟩
  · intro p r rs l result hg hl ih e h
    obtain ⟨front, back, f, hw, hf, rfl⟩ := ih e (map_eq_error.1 h)
    exact ⟨l.taken ++ front, back, f, by rw [List.append_assoc, ← hw, (lexeme_split hl).1], hf,
      by rw [after_append]⟩

/-- White space before a token is dropped, one code point at a time. -/
theorem tokensFrom_blank (hr : isSpace r.char) :
    tokensFrom p (r :: rs) = tokensFrom (p.next r) rs := by
  have hg : gap (r :: rs) =
      .ok (some (r :: (spanChars isSpace rs).1, (spanChars isSpace rs).2)) := by
    simp [gap, hr, spanChars]
  rw [tokensFrom_gap hg, Position.after_cons]
  cases rs with
  | nil => rfl
  | cons s rs =>
    by_cases hs : isSpace s.char = true
    · have hg' : gap (s :: rs) = .ok (some (spanChars isSpace (s :: rs))) := by simp [gap, hs]
      rw [tokensFrom_gap hg']
      rfl
    · simp [spanChars, hs, Position.after]

theorem tokensFrom_blanks {blanks : List Rune} (h : ∀ b ∈ blanks, isSpace b.char) :
    tokensFrom p (blanks ++ rs) = tokensFrom (p.after blanks) rs := by
  induction blanks generalizing p with
  | nil => rfl
  | cons b blanks ih =>
    rw [List.forall_mem_cons] at h
    rw [List.cons_append, tokensFrom_blank h.1, ih h.2, Position.after_cons]

end Steps

/-! ## Reading at a later place -/

theorem tokensFrom_moved (bytes lines : Nat) (p : Position) (rs : List Rune) :
    tokensFrom (p.moved bytes lines) rs =
      match tokensFrom p rs with
      | .ok tokens => .ok (tokens.map (Token.moved bytes lines))
      | .error e => .error ⟨e.fault, e.place.moved bytes lines⟩ := by
  refine tokensFrom_rec ?_ ?_ ?_ ?_ p rs
  · intro p
    simp [tokensFrom, Token.endAt, Token.moved, Position.moved]
  · rintro p r rs f (hg | ⟨hg, hl⟩)
    · rw [tokensFrom_gap_error hg]
    · rw [tokensFrom_lexeme_error hg hl]
  · intro p r rs taken rest result hg ih
    rwa [tokensFrom_gap hg, Position.after_moved]
  · intro p r rs l result hg hl ih
    rw [tokensFrom_lexeme hg hl, Position.after_moved, ih]
    cases result with
    | error e => rfl
    | ok tokens => simp [Except.map, Token.moved, Position.moved]

/-! ## Reading a text before a line break -/

section Append

variable {b : Rune} (t : List Rune) {rs : List Rune}

theorem commentBody_append {body : List Rune} (h : commentBody rs = some (body, rest)) :
    commentBody (rs ++ t) = some (body, rest ++ t) := by
  induction rs generalizing body rest with
  | nil => simp [commentBody] at h
  | cons r rs ih =>
    simp only [commentBody] at h
    split at h
    · next hs =>
      -- the comment ends here, and its two last characters are both there
      have hlen := length_le_of_startsWith hs
      simp only [Option.some.injEq, Prod.mk.injEq] at h
      obtain ⟨rfl, rfl⟩ := h
      cases rs with
      | nil => simp at hlen
      | cons s rs =>
        simp only [startsWith, Bool.and_true] at hs
        simp [commentBody, startsWith, hs]
    · next hs =>
      simp only [Option.map_eq_some_iff, Prod.mk.injEq, Prod.exists] at h
      obtain ⟨x, y, hb, rfl, rfl⟩ := h
      cases rs with
      | nil => simp [commentBody] at hb
      | cons s rs =>
        have hs' : startsWith ['*', '/'] (r :: s :: rs ++ t) = false := by
          simpa [startsWith] using hs
        have := ih hb
        simp only [List.cons_append] at hs' this ⊢
        rw [commentBody, hs', this]
        rfl

/-- Where a token comes next, one comes next also before white space. -/
theorem gap_append_none (hb : isSpace b.char) {r : Rune} (h : gap (r :: rs) = .ok none) :
    gap (r :: rs ++ b :: t) = .ok none := by
  have hmarks : ∀ c ∈ ['-', '/', '*'], ¬ isSpace c = true := forall_mem_of_all (by decide)
  exact gap_fades hmarks h (.append hb rs t)

/-- A gap that is not the end of a text stays the same when the text goes on, and a comment at its
end when a line break follows. -/
theorem gap_append {r : Rune} {t : List Rune} (h : gap (r :: rs) = .ok (some (taken, rest)))
    (ht : rest = [] → isSpace r.char = false ∧ ∀ x ∈ t.head?, x.char = '\n') :
    gap (r :: (rs ++ t)) = .ok (some (taken, rest ++ t)) := by
  have hspan : ∀ {p : Char → Bool}, (isSpace r.char = false → p '\n' = false) →
      spanChars p (r :: rs) = (taken, rest) → spanChars p (r :: rs ++ t) = (taken, rest ++ t) := by
    intro p hbreak hp
    have hsplit := spanChars_split p (r :: rs)
    have hnext := List.head?_dropWhile_not (fun r : Rune => p r.char) (r :: rs)
    rw [show (r :: rs).dropWhile (fun r : Rune => p r.char) =
      rest from congrArg Prod.snd hp] at hnext
    have hbefore := @spanChars_before p (r :: rs) (rest ++ t) fun x hx => ?_
    · rw [hp] at hsplit hbefore
      rwa [← hsplit, List.append_assoc]
    · cases rest with
      | nil =>
        obtain ⟨hr, ht⟩ := ht rfl
        rw [ht x hx, hbreak hr]
      | cons y rest =>
        cases hx
        simpa using hnext
  simp only [List.cons_append, gap] at h hspan ⊢
  by_cases hr : isSpace r.char = true
  · rw [if_pos hr, Except.ok.injEq, Option.some.injEq] at h
    rw [if_pos hr, hspan (by simp [hr]) h]
  rw [if_neg hr] at h ⊢
  cases rs with
  | nil =>
    -- one character is a comment only if no second mark is needed
    simp only [startsWith, Bool.and_false, Bool.false_or, Bool.false_eq_true, if_false] at h
    split_ifs at h with hline
    · rw [Except.ok.injEq, Option.some.injEq] at h
      rw [hline, Bool.or_true, if_pos rfl, hspan (fun _ => rfl) h]
    · cases h
  | cons s rs =>
    have hstart : ∀ c d, startsWith [c, d] (r :: s :: (rs ++ t)) =
        startsWith [c, d] (r :: s :: rs) := fun _ _ => rfl
    rw [List.cons_append] at hspan ⊢
    rw [hstart, hstart, hstart]
    split_ifs at h ⊢
    · rw [Except.ok.injEq, Option.some.injEq] at h
      rw [hspan (fun _ => rfl) h]
    · split at h
      · next body after hcb =>
        simp only [Except.ok.injEq, Option.some.injEq, Prod.mk.injEq] at h
        obtain ⟨rfl, rfl⟩ := h
        simp only [List.drop_succ_cons, List.drop_zero] at hcb ⊢
        rw [commentBody_append _ hcb]
        rfl
      · cases h
    · cases h

/-- The tokens of a text that ends at a line break come first, in the places they have in the text
alone; its end-of-input token is dropped. -/
theorem tokensFrom_append (hb : b.char = '\n') (h : tokensFrom p rs = .ok tokens) :
    ∃ own, tokens = own ++ [Token.endAt (p.after rs)] ∧
      tokensFrom p (rs ++ b :: t) =
        match tokensFrom (p.after rs) (b :: t) with
        | .ok more => .ok (own ++ more)
        | .error e => .error e := by
  have hs : isSpace b.char = true := by rw [hb]; decide
  refine tokensFrom_induction ?_ ?_ ?_ h
  · intro p
    refine ⟨[], rfl, ?_⟩
    simp only [List.nil_append, Position.after, List.foldl_nil]
    cases tokensFrom p (b :: t) <;> rfl
  · intro p r rs taken rest tokens hg ih
    obtain ⟨own, hown, happ⟩ := ih
    have hsplit := (gap_split hg).1
    have hstep : tokensFrom p (r :: rs ++ b :: t) =
        tokensFrom (p.after taken) (rest ++ b :: t) := by
      by_cases hr : isSpace r.char = true
      · have htaken : spanChars isSpace (r :: rs) = (taken, rest) := by simpa [gap, hr] using hg
        have hblanks : ∀ x ∈ taken, isSpace x.char = true := by
          rw [show taken = (spanChars isSpace (r :: rs)).1 by rw [htaken]]
          exact fun x hx =>
            List.all_eq_true.1 (List.all_takeWhile (p := fun r : Rune => isSpace r.char)) x hx
        rw [← hsplit, List.append_assoc, tokensFrom_blanks hblanks]
      · exact tokensFrom_gap (gap_append hg fun _ => ⟨by simpa using hr, by simp [hb]⟩)
    rw [hstep, ← hsplit, after_append]
    exact ⟨own, hown, happ⟩
  · intro p r rs l tokens hg hl ih
    obtain ⟨own, rfl, happ⟩ := ih
    rw [← (lexeme_split hl).1, after_append, (lexeme_split hl).1]
    refine ⟨_ :: own, rfl, ?_⟩
    have hg' := gap_append_none t hs hg
    have hl' := lexeme_append hs t hl
    rw [List.cons_append] at hg' hl' ⊢
    rw [tokensFrom_lexeme hg' hl']
    simp only [before, happ]
    cases tokensFrom ((p.after l.taken).after l.rest) (b :: t) <;> rfl

end Append

/-! ## Order of the tokens -/

theorem stringMark?_ne {word : Bytes} (h : stringMark? word = some kind) : kind ≠ .endOfInput := by
  unfold stringMark? at h
  split_ifs at h <;> cases h <;> decide

theorem punctuation?_ne {c : Char} (h : punctuation? c = some kind) : kind ≠ .endOfInput := by
  unfold punctuation? at h
  split at h <;> (try split_ifs at h) <;> cases h <;> decide

theorem stringFrom_kind {front : List Rune} (h : stringFrom kind front rs = .ok l) :
    l.kind = kind := by
  unfold stringFrom at h
  split at h
  · cases h
  · split at h <;> cases h
    rfl

theorem quotedIdent_kind {closing : Char} (h : quotedIdent closing rs = .ok l) :
    l.kind = .ident := by
  unfold quotedIdent at h
  split at h
  · cases h
  · split at h <;> cases h
    rfl

theorem number_kind_ne (rs : List Rune) : (number rs).kind ≠ .endOfInput := by
  simp only [number, numberSuffix]
  split_ifs <;> simp

/-- No token that is read has the class of the end of input. -/
theorem lexeme_kind_ne (h : lexeme rs = .ok l) : l.kind ≠ .endOfInput := by
  simp only [lexeme] at h
  split_ifs at h
  · simp only [param] at h
    split_ifs at h
    cases h
    simp
  · simp [stringFrom_kind h]
  · simp [quotedIdent_kind h]
  · simp [quotedIdent_kind h]
  · cases h
    exact number_kind_ne rs
  · simp only [word] at h
    split at h
    · next kind hk =>
      split_ifs at hk
      rw [stringFrom_kind h]
      exact stringMark?_ne hk
    · cases h
      simp
  · simp only [symbol] at h
    split at h
    · cases h
      simp
    · split at h
      · next hk =>
        cases h
        exact punctuation?_ne hk
      · cases h

/-- The tokens lie one after the other between two offsets, and none is empty. -/
def InOrder (stop : Nat) : (lo : Nat) → List Token → Prop
  | lo, [] => lo ≤ stop
  | lo, t :: ts => lo ≤ t.start.offset ∧ t.start.offset < t.stop ∧ InOrder stop t.stop ts

theorem InOrder.mono {stop lo lo' : Nat} (h : InOrder stop lo ts) (hlo : lo' ≤ lo) :
    InOrder stop lo' ts := by
  cases ts with
  | nil => exact le_trans hlo h
  | cons t ts => exact ⟨le_trans hlo h.1, h.2⟩

theorem InOrder.le {stop lo : Nat} (h : InOrder stop lo ts) : lo ≤ stop := by
  induction ts generalizing lo with
  | nil => exact h
  | cons t ts ih =>
    have := ih h.2.2
    have := h.1
    have := h.2.1
    omega

theorem InOrder.append_left {stop lo : Nat} {us : List Token} (h : InOrder stop lo (ts ++ us)) :
    InOrder stop lo ts := by
  induction ts generalizing lo with
  | nil => exact h.le
  | cons t ts ih => exact ⟨h.1, h.2.1, ih h.2.2⟩

theorem InOrder.append_right {stop lo : Nat} {us : List Token} (h : InOrder stop lo (ts ++ us)) :
    InOrder stop lo us := by
  induction ts generalizing lo with
  | nil => exact h
  | cons t ts ih =>
    have h1 := h.1
    have h2 := h.2.1
    exact (ih h.2.2).mono (by omega)

theorem InOrder.stop_le {stop lo : Nat} (h : InOrder stop lo ts) : ∀ t ∈ ts, t.stop ≤ stop := by
  induction ts generalizing lo with
  | nil => simp
  | cons t ts ih =>
    intro u hu
    rcases List.mem_cons.1 hu with rfl | hu
    · exact h.2.2.le
    · exact ih h.2.2 u hu

theorem offset_lt_after (hne : taken ≠ []) (hbytes : ∀ r ∈ taken, r.bytes ≠ []) :
    p.offset < (p.after taken).offset := by
  cases taken with
  | nil => exact absurd rfl hne
  | cons r taken =>
    have hr := List.length_pos_iff.2 (hbytes r (by simp))
    rw [Position.after_offset, Bytes.ofRunes_cons, List.length_append]
    omega

/-- The tokens of a text are in order, end before its end, and are followed by the end-of-input
token that stands there. -/
theorem tokensFrom_inOrder (hbytes : ∀ r ∈ rs, r.bytes ≠ []) (h : tokensFrom p rs = .ok tokens) :
    ∃ own, tokens = own ++ [Token.endAt (p.after rs)] ∧ (∀ t ∈ own, t.kind ≠ .endOfInput) ∧
      InOrder (p.after rs).offset p.offset own := by
  revert hbytes
  refine tokensFrom_induction ?_ ?_ ?_ h
  · intro p _
    exact ⟨[], rfl, by simp, le_rfl⟩
  · intro p r rs taken rest tokens hg ih hbytes
    have hsplit := (gap_split hg).1
    rw [← hsplit, List.forall_mem_append] at hbytes
    obtain ⟨own, hown, hkinds, hord⟩ := ih hbytes.2
    rw [← hsplit, after_append]
    exact ⟨own, hown, hkinds, hord.mono (by rw [Position.after_offset]; omega)⟩
  · intro p r rs l tokens _ hl ih hbytes
    have hsplit := lexeme_split hl
    rw [← hsplit.1, List.forall_mem_append] at hbytes
    obtain ⟨own, rfl, hkinds, hord⟩ := ih hbytes.2
    rw [← hsplit.1, after_append]
    refine ⟨_ :: own, rfl, List.forall_mem_cons.2 ⟨lexeme_kind_ne hl, hkinds⟩, ?_⟩
    exact ⟨le_rfl, offset_lt_after hsplit.2 hbytes.1, hord⟩

theorem tokenize_inOrder {src : Bytes} (h : tokenize src = .ok tokens) :
    ∃ own, tokens = own ++ [Token.endAt (Position.start.after (Bytes.runes src))] ∧
      (∀ t ∈ own, t.kind ≠ .endOfInput) ∧ InOrder src.length 0 own := by
  obtain ⟨own, hown, hkinds, hord⟩ :=
    tokensFrom_inOrder (fun r hr => Bytes.bytes_ne_nil_of_mem_runes hr) h
  refine ⟨own, hown, hkinds, ?_⟩
  rw [Position.after_offset, Bytes.ofRunes_runes] at hord
  simpa [Position.start] using hord

end AccessLayer.Surql
