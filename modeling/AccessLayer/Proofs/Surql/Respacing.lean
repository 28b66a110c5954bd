import AccessLayer.Proofs.Surql.Lossless

/-!
# Tokens with other gaps

A token is cut off by its own text and not by what follows it. So the texts of the tokens of a
source can be written again with other white space between them, and the same tokens are read.

* `Bytes.runes_append_blank`: white space ends a code point, and starts one.
* `Spaced`: texts with white space between them.
* `tokenize_respaced`: the tokens of a source, read again from their texts with white space between
  them.
-/

namespace AccessLayer

/-! ## White space in bytes -/

/-- The text is made of white space. -/
def Bytes.Blank (s : Bytes) : Prop := ∀ c ∈ s.chars, isSpace c = true

instance (s : Bytes) : Decidable s.Blank :=
  decidable_of_iff (s.chars.all isSpace = true) List.all_eq_true

/-- A code point other than the replacement character starts with no tail byte. -/
theorem Utf8.Reads.isTail_eq_false {a : UInt8} {r : Rune} (h : Reads a r)
    (hc : r.char ≠ replacementChar) : isTail a = false := by
  rw [Bool.eq_false_iff]
  intro htail
  have hrange := (isTail_iff a).1 htail
  cases h with
  | single =>
    have hall : ∀ i : Fin 256, isTail (UInt8.ofFin i) = true →
        (Utf8.single (UInt8.ofFin i)).char = replacementChar := by
      decide +kernel
    exact hc (hall a.toFin htail)
  | @pair b h =>
    rw [isPair_iff] at h
    omega
  | @triple b c h =>
    rw [isTriple_iff] at h
    omega
  | @quad b c d h =>
    rw [isQuad_iff] at h
    omega

namespace Bytes

variable {gap : Bytes}

theorem Blank.char_ne (h : gap.Blank) {r : Rune} (hr : r ∈ runes gap) :
    r.char ≠ replacementChar := by
  intro hc
  have := h r.char (List.mem_map_of_mem hr)
  rw [hc] at this
  exact absurd this (by decide)

/-- White space ends a code point. -/
theorem Blank.runes_append (h : gap.Blank) (t : Bytes) :
    runes (gap ++ t) = runes gap ++ runes t := by
  have hchars := (readable_runes gap).ofRunes_eq fun _ hr => h.char_ne hr
  rw [ofRunes_runes] at hchars
  have hgap := runes_ofChars ((runes gap).map (·.char)) []
  have hfront := runes_ofChars ((runes gap).map (·.char)) t
  rw [← hchars] at hgap hfront
  rw [List.append_nil, runes, List.append_nil] at hgap
  rw [hfront, ← hgap]

theorem runes_append_blank (h : gap.Blank) (hne : gap ≠ []) (s t : Bytes) :
    runes (s ++ (gap ++ t)) = runes s ++ (runes gap ++ runes t) := by
  rw [← h.runes_append]
  obtain ⟨a, gap, rfl⟩ := List.exists_cons_of_ne_nil hne
  refine Bytes.runes_append s (gap ++ t) ((Utf8.reads_first a gap).isTail_eq_false (h.char_ne ?_))
  rw [runes_cons]
  exact List.mem_cons_self

end Bytes

namespace Surql

open Lexeme

/-! ## Texts of tokens -/

/-- The kind and the literal of a token, without its place. -/
def Token.label (t : Token) : TokenKind × Bytes := (t.kind, t.literal)

def Token.textIn (src : Bytes) (t : Token) : Bytes := src.slice t.start.offset t.stop

/-- The text is read as one token when nothing stands around it. -/
def ReadAlone (text : Bytes) (label : TokenKind × Bytes) : Prop :=
  Bytes.runes text ≠ [] ∧ gap (Bytes.runes text) = .ok none ∧
    lexeme (Bytes.runes text) = .ok ⟨label.1, label.2, Bytes.runes text, []⟩

/-- The text of a token of a source is read as this token, alone as well. -/
theorem readAlone_of_mem {src : Bytes} {tokens : List Token} (h : tokenize src = .ok tokens)
    {t : Token}
    (ht : t ∈ tokens) (hkind : t.kind ≠ .endOfInput) : ReadAlone (t.textIn src) t.label := by
  obtain rfl | ⟨front, l, hsrc, hne, hgap, hl, rfl⟩ := mem_tokensFrom h t ht
  · exact absurd rfl hkind
  have hread : Readable (front ++ (l.taken ++ l.rest)) := hsrc ▸ readable_runes src
  have htaken : Bytes.runes (Token.textIn src
      ⟨l.kind, l.literal, Position.start.after front,
        (Position.start.after (front ++ l.taken)).offset⟩) =
      l.taken := by
    have hslice := (slice_of_runes (m := (Position.start.after front).offset)
      (n := (Position.start.after (front ++ l.taken)).offset) hsrc ?_ ?_).1
    · rw [Token.textIn, hslice, hread.right.left]
    · rw [Position.after_offset]
      exact Nat.zero_add _
    · rw [Position.after_offset, Position.after_offset, Bytes.ofRunes_append, List.length_append,
        Nat.add_assoc]
  obtain ⟨r, rs, hrs⟩ := List.exists_cons_of_ne_nil (List.append_ne_nil_of_left_ne_nil hne l.rest)
  rw [hrs] at hl
  have hcut := lexeme_cut hl List.nil_prefix
  rw [List.append_nil] at hcut
  rw [ReadAlone, htaken]
  exact ⟨hne, gap_cut hgap (List.prefix_append _ _), hcut⟩

/-! ## Texts with white space between them -/

/-- The texts in order, with white space after each; it may be left out after the last. -/
inductive Spaced : List Bytes → Bytes → Prop
  | nil : Spaced [] []
  | last (text : Bytes) : Spaced [text] text
  | cons {text gap rest : Bytes} {texts : List Bytes} (hgap : gap.Blank ∧ gap ≠ [])
  (h : Spaced texts rest) :
      Spaced (text :: texts) (text ++ (gap ++ rest))

/-- Texts that are read alone are read one after the other, if there is white space between them. -/
theorem Spaced.tokensFrom {texts : List Bytes} {text : Bytes} (h : Spaced texts text)
    {labels : List (TokenKind × Bytes)} (halone : List.Forall₂ ReadAlone texts labels)
    (p : Position) : ∃ tokens, tokensFrom p (Bytes.runes text) = .ok tokens ∧
      tokens.map Token.label = labels ++ [(.endOfInput, [])] := by
  induction h generalizing labels p with
  | nil =>
    cases halone
    exact ⟨[Token.endAt p], by rw [Bytes.runes, Surql.tokensFrom], rfl⟩
  | last text =>
    cases halone with
    | cons hfirst hrest =>
      cases hrest
      obtain ⟨hne, hgap, hl⟩ := hfirst
      obtain ⟨r, rs, hrs⟩ := List.exists_cons_of_ne_nil hne
      rw [hrs] at hgap hl ⊢
      rw [tokensFrom_lexeme hgap hl]
      simp only [Surql.tokensFrom]
      exact ⟨_, rfl, rfl⟩
  | @cons text gap rest texts hblanks h ih =>
    obtain ⟨hblank, hgapne⟩ := hblanks
    cases halone with
    | @cons _ label _ labels hfirst hrest =>
      obtain ⟨hne, hgap, hl⟩ := hfirst
      obtain ⟨r, rs, hrs⟩ := List.exists_cons_of_ne_nil hne
      obtain ⟨b, blanks, hb⟩ : ∃ b blanks, Bytes.runes gap = b :: blanks := by
        refine List.exists_cons_of_ne_nil fun hnil => hgapne ?_
        rw [← Bytes.ofRunes_runes gap, hnil]
        rfl
      have hspace : ∀ x ∈ b :: blanks, isSpace x.char = true := by
        intro x hx
        exact hblank x.char (List.mem_map_of_mem (hb ▸ hx))
      obtain ⟨tokens, htokens, hlabels⟩ := ih hrest ((p.after (r :: rs)).after (b :: blanks))
      rw [hrs] at hgap hl
      have hgap' := gap_append_none (blanks ++ Bytes.runes rest) (hspace b List.mem_cons_self) hgap
      have hl' := lexeme_append (hspace b List.mem_cons_self) (blanks ++ Bytes.runes rest) hl
      rw [List.cons_append] at hgap' hl'
      have hstep := tokensFrom_lexeme (p := p) hgap' hl'
      rw [Bytes.runes_append_blank hblank hgapne, hrs, hb, List.cons_append, List.cons_append,
        hstep]
      simp only [before, List.nil_append]
      rw [← List.cons_append, tokensFrom_blanks hspace, htokens]
      exact ⟨_, rfl, by rw [List.map_cons, hlabels]; rfl⟩

/-- The texts of the tokens of a source, written in order with any white space between them, are
read as tokens of the same kinds with the same literals. -/
theorem tokenize_respaced {src text : Bytes} {tokens : List Token} (h : tokenize src = .ok tokens)
    (hspaced : Spaced ((tokens.filter (·.kind ≠ .endOfInput)).map (Token.textIn src)) text) :
    ∃ tokens', tokenize text = .ok tokens' ∧ tokens'.map Token.label = tokens.map Token.label := by
  obtain ⟨own, rfl, hkinds, -⟩ := tokenize_inOrder h
  have hown : (own ++ [Token.endAt (Position.start.after (Bytes.runes src))]).filter
      (·.kind ≠ .endOfInput) = own := by
    rw [List.filter_append, List.filter_eq_self.2 (by simpa using hkinds)]
    simp [Token.endAt]
  rw [hown] at hspaced
  have halone : List.Forall₂ ReadAlone (own.map (Token.textIn src)) (own.map Token.label) := by
    rw [List.forall₂_map_left_iff, List.forall₂_map_right_iff, List.forall₂_same]
    exact fun t ht => readAlone_of_mem h (List.mem_append_left _ ht) (hkinds t ht)
  obtain ⟨tokens, htokens, hlabels⟩ := hspaced.tokensFrom halone .start
  exact ⟨tokens, htokens, by rw [hlabels, List.map_append]; rfl⟩

/-- Tokens of many kinds with at most a comment between them. -/
def denseSource : Bytes := "a::b:8a..1.5<->s'x'1h30m/**/-⟨é⟩"

def denseTokens : List Token :=
  [⟨.ident, "a::b", ⟨0, 1, 1⟩, 4⟩, ⟨.colon, ":", ⟨4, 1, 5⟩, 5⟩, ⟨.ident, "8a", ⟨5, 1, 6⟩, 7⟩,
    ⟨.operator, "..", ⟨7, 1, 8⟩, 9⟩, ⟨.number, "1.5", ⟨9, 1, 10⟩, 12⟩,
    ⟨.operator, "<->", ⟨12, 1, 13⟩, 15⟩,
    ⟨.string, "x", ⟨15, 1, 16⟩, 19⟩, ⟨.duration, "1h30m", ⟨19, 1, 20⟩, 24⟩,
    ⟨.operator, "-", ⟨28, 1, 29⟩, 29⟩,
    ⟨.ident, "é", ⟨29, 1, 30⟩, 37⟩, ⟨.endOfInput, [], ⟨37, 1, 33⟩, 37⟩]

/-- The texts of the tokens of `denseSource` with white space between them. -/
def airySource : Bytes :=
  "a::b : 8a\n\u2003..\n\u20031.5 <->\n\u2003s'x' 1h30m - ⟨é⟩"

theorem tokenize_respaced_airy :
    tokenize denseSource = .ok denseTokens ∧
      Spaced ((denseTokens.filter (·.kind ≠ .endOfInput)).map (Token.textIn denseSource))
        airySource ∧
      ∃ tokens', tokenize airySource = .ok tokens' ∧
        tokens'.map Token.label = denseTokens.map Token.label := by
  have h : tokenize denseSource = .ok denseTokens := by decide +kernel
  have hone : Bytes.Blank " " ∧ Bytes.ofString " " ≠ [] := by decide +kernel
  have hwide : Bytes.Blank "\n\u2003" ∧ Bytes.ofString "\n\u2003" ≠ [] := by decide +kernel
  have hspaced : Spaced ["a::b", ":", "8a", "..", "1.5", "<->", "s'x'", "1h30m", "-",
      "⟨é⟩"] airySource :=
    .cons hone <| .cons hone <| .cons hwide <| .cons hwide <| .cons hone <| .cons hwide <|
      .cons hone <| .cons hone <| .cons hone <| .last _
  exact ⟨h, hspaced, tokenize_respaced h hspaced⟩

end Surql

end AccessLayer
