import AccessLayer.Proofs.Surql.Fragments
import AccessLayer.Proofs.Surql.LexicalForms
import AccessLayer.Proofs.Text.Ascii

/-!
# Tokens without gaps

Where no white space stands between two tokens, the first ends because the character after it does
not go on with it. A segment is a text that is read as some tokens wherever it stands, as long as
what follows starts with a character of a class; segments are put together when the second starts
with a character that the first allows.

* `Segment`, `Segment.append`: texts with their tokens, and texts put together from them.
* `Spelling.segment_word`, `Quoted.segment`, `segment_symbol`, `segment_blank`: texts of one token
  or none.
* `segment_closed`: so may a text between brackets.
-/

namespace AccessLayer

open Bytes Rune

theorem Bytes.runes_ofChars_self (cs : List Char) : runes (ofChars cs) = cs.map ofChar := by
  have h := runes_ofChars cs []
  rwa [List.append_nil, runes, List.append_nil] at h

theorem Bytes.runes_byte {c : Char} (hc : c.toNat < 0x80) (t : Bytes) :
    runes (byte c :: t) = ofChar c :: runes t := by
  have h := runes_encode c t
  rwa [encode_of_ascii hc, List.singleton_append] at h

namespace Surql

open Lexeme

variable {kind : TokenKind} {r : Rune} {rs : List Rune} {c : Char}

/-! ## Segments -/

/-- At a place, a text is read as the given tokens, if nothing follows it or a character of the
class `ends`. -/
def Segment (ends : Char → Prop) (p : Position) (s : Bytes) (ts : List Token) : Prop :=
  ∀ (after : List Rune) (more : List Token), (∀ r ∈ after.head?, ends r.char) →
    tokensFrom (p.after (Bytes.runes s)) after = .ok more →
      tokensFrom p (Bytes.runes s ++ after) = .ok (ts ++ more)

namespace Segment

variable {ends ends' : Char → Prop} {p : Position} {s t : Bytes} {ts us : List Token}

theorem mono (h : Segment ends p s ts) (hends : ∀ c, ends' c → ends c) : Segment ends' p s ts :=
  fun after more hafter => h after more fun r hr => hends r.char (hafter r hr)

/-- Two texts, the second of which starts with a character that the first one allows. -/
theorem append (hc : c.toNat < 0x80) (hends : ends c) (h : Segment ends p s ts)
    (h' : Segment ends' (p.after (Bytes.runes s)) (Bytes.byte c :: t) us) :
    Segment ends' p (s ++ Bytes.byte c :: t) (ts ++ us) := by
  have htail : Utf8.isTail (Bytes.byte c) = false :=
    forall_ascii (P := fun c => Utf8.isTail (Bytes.byte c) = false) (by decide) hc
  intro after more hafter hmore
  rw [runes_append s t htail, Position.after_append] at hmore
  rw [runes_append s t htail, List.append_assoc, List.append_assoc]
  refine h _ _ ?_ (h' after more hafter hmore)
  rw [runes_byte hc]
  intro r hr
  obtain rfl : ofChar c = r := by simpa using hr
  exact hends

/-- A text of one token. -/
theorem of_lexeme {literal : Bytes} (hs : Bytes.runes s = r :: rs)
    (h : ∀ after : List Rune, (∀ r ∈ after.head?, ends r.char) → gap (r :: rs ++ after) = .ok none ∧
      lexeme (r :: rs ++ after) = .ok ⟨kind, literal, r :: rs, after⟩) :
    Segment ends p s [⟨kind, literal, p, (p.after (Bytes.runes s)).offset⟩] := by
  intro after more hafter hmore
  obtain ⟨hg, hl⟩ := h after hafter
  rw [hs] at hmore ⊢
  rw [List.cons_append] at hg hl ⊢
  rw [tokensFrom_lexeme hg hl, hmore]
  rfl

end Segment

theorem segment_blank (p : Position) : Segment (fun _ => True) p " " [] := by
  intro after more _ hmore
  have hspace : isSpace (ofChar ' ').char = true := by decide
  rw [List.nil_append, ← hmore]
  exact tokensFrom_blank hspace

/-! ## Single tokens -/

namespace Spelling

variable (q : Spelling) {c : Char} {cs : List Char} (p : Position)

theorem runes_text : Bytes.runes q.text = q.chars.map ofChar := runes_ofChars_self q.chars

/-- The gap before a token does not depend on what follows its first character, unless a comment may
start there. -/
theorem gap_append (hq : q.chars = c :: cs) (hc : c ∉ ['-', '/']) (after : List Rune) :
    gap (q.chars.map ofChar ++ after) = .ok none := by
  have h := q.gap_eq
  simp only [List.mem_cons, List.not_mem_nil, or_false, not_or] at hc
  rw [hq, List.map_cons, gap_cons_eq_none] at h
  rw [hq, List.map_cons, List.cons_append, gap_cons_eq_none]
  simpa [startsWith, ofChar, hc] using h

/-- A word or a number is read before a character that does not go on with it. -/
theorem segment_word (hq : q.chars = c :: cs) (hc : isAsciiDigit c ∨ isIdentStart c) :
    Segment EndsWord p q.text [⟨q.kind, q.literal, p, (p.after (Bytes.runes q.text)).offset⟩] := by
  have hdash : c ∉ ['-', '/'] := by
    intro hmem
    have hall : ∀ c ∈ ['-', '/'], isAsciiDigit c = false ∧ isIdentStart c = false :=
      forall_mem_of_all (by decide)
    obtain ⟨h1, h2⟩ := hall c hmem
    rw [h1, h2] at hc
    simp at hc
  have hruns : Bytes.runes q.text = ofChar c :: cs.map ofChar := by
    rw [q.runes_text, hq, List.map_cons]
  refine .of_lexeme hruns fun after hafter => ?_
  have hgap := q.gap_append hq hdash after
  have hlex := q.lexeme_eq
  rw [hq, List.map_cons] at hgap hlex
  refine ⟨hgap, ?_⟩
  cases after with
  | nil => rwa [List.append_nil]
  | cons b t =>
    refine lexeme_append_ends (hafter b rfl) t (fun h1 h2 => ?_) hlex
    have h1 : isAsciiDigit c = false := h1
    have h2 : isIdentStart c = false := h2
    rw [h1, h2] at hc
    simp at hc

end Spelling

/-- A string is read before anything. -/
theorem Quoted.segment (q : Quoted) (p : Position) :
    Segment (fun _ => True) p q.spelling.text
      [⟨.string, q.spelling.literal, p, (p.after (Bytes.runes q.spelling.text)).offset⟩] := by
  have hmarks : ∀ c ∈ ['"', '\''], c ∉ ['-', '/'] ∧ (c == '$') = false ∧
      (c == '"' || c == '\'') = true :=
    forall_mem_of_all (by decide)
  obtain ⟨hdash, hparam, hquote⟩ := hmarks q.quote q.isQuote
  have hchars : q.spelling.chars = q.quote :: bodyChars q.quote q.content := rfl
  have hlexeme : ∀ rs, lexeme (ofChar q.quote :: rs) =
      stringFrom .string [] (ofChar q.quote :: rs) := by
    intro rs
    simp [lexeme, peek, ofChar, hparam, hquote]
  refine .of_lexeme (by rw [q.spelling.runes_text, hchars, List.map_cons]) fun after _ => ?_
  have hgap := q.spelling.gap_append hchars hdash after
  have hlex := q.spelling.lexeme_eq
  rw [hchars, List.map_cons] at hgap hlex
  rw [hlexeme] at hlex
  refine ⟨hgap, ?_⟩
  rw [List.cons_append, hlexeme]
  obtain ⟨taken, -, htaken, hbefore⟩ := stringFrom_before hlex after
  rw [List.nil_append] at htaken
  rwa [← htaken] at hbefore

/-- A character that does not make a longer symbol with the character before it. -/
def EndsSymbol (c d : Char) : Prop := ∀ op ∈ longOperators, op.toList.take 2 ≠ [c, d]

instance (c : Char) : DecidablePred (EndsSymbol c) := fun _ =>
    inferInstanceAs (Decidable (∀ op ∈ longOperators, _))

/-- Punctuation starts no other token, and no gap but for the characters of comments. -/
theorem lexeme_of_punctuation (h : punctuation? r.char = some kind) (rs : List Rune) :
    lexeme (r :: rs) = symbol (r :: rs) ∧ (r.char ∉ ['-', '/'] → gap (r :: rs) = .ok none) := by
  have hmem : r.char ∈ ['(', ')', '[', ']', '\x7b', '\x7d', ',', ';', ':', '.', '<', '>'] ++
      shortOperators := by
    generalize r.char = c at h
    unfold punctuation? at h
    split at h
    case h_13 =>
      split_ifs at h with hop
      exact List.mem_append_right _ (List.contains_iff_mem.1 hop)
    all_goals decide
  have hall : ∀ c ∈ ['(', ')', '[', ']', '\x7b', '\x7d', ',', ';', ':', '.', '<', '>'] ++
      shortOperators,
      c ∉ ['$', '"', '\'', '`', '⟨', '#'] ∧ isAsciiDigit c = false ∧ isIdentStart c = false ∧
        isSpace c = false :=
    forall_mem_of_all (by decide)
  obtain ⟨hne, hdigit, hstart, hspace⟩ := hall r.char hmem
  simp only [List.mem_cons, List.not_mem_nil, or_false, not_or] at hne
  refine ⟨by simp [lexeme, peek, hne, hdigit, hstart], fun hdash => ?_⟩
  simp only [List.mem_cons, List.not_mem_nil, or_false, not_or] at hdash
  simp [gap_cons_eq_none, startsWith, hspace, hne, hdash]

/-- A character before which no longer symbol ends is a token of its own. -/
theorem symbol_of_ends (hr : punctuation? r.char = some kind) {after : List Rune}
    (hafter : ∀ b ∈ after.head?, EndsSymbol r.char b.char) :
    symbol (r :: after) = .ok ⟨kind, Bytes.ofChars [r.char], [r], after⟩ := by
  have hlong : ∀ op ∈ longOperators, 2 ≤ op.toList.length := by decide
  have hnone : longOperators.find? (fun op => startsWith op.toList (r :: after)) = none := by
    rw [List.find?_eq_none]
    intro op hop hstart
    have hlen := hlong op hop
    have hends : ∀ b ∈ after.head?, op.toList.take 2 ≠ [r.char, b.char] := fun b hb =>
      hafter b hb op hop
    generalize op.toList = cs at hstart hlen hends
    rcases cs with _ | ⟨x, _ | ⟨y, cs⟩⟩
    · simp at hlen
    · simp at hlen
    · cases after with
      | nil => simp [startsWith] at hstart
      | cons b after =>
        simp only [startsWith, Bool.and_eq_true, beq_iff_eq] at hstart
        exact hends b rfl (by rw [hstart.1, hstart.2.1]; rfl)
  simp only [symbol, hnone, peek, hr]
  rfl

/-- A character that is a token of its own. -/
theorem segment_symbol (p : Position) (hc : punctuation? c = some kind) (hdash : c ∉ ['-', '/']) :
    Segment (EndsSymbol c) p (Bytes.ofChars [c])
      [⟨kind, Bytes.ofChars [c], p, (p.after (Bytes.runes (Bytes.ofChars [c]))).offset⟩] := by
  refine .of_lexeme (runes_ofChars_self [c]) fun after hafter => ?_
  obtain ⟨hlex, hgap⟩ := lexeme_of_punctuation (r := ofChar c) hc after
  exact ⟨hgap hdash, hlex.trans (symbol_of_ends (r := ofChar c) hc hafter)⟩

/-! ## Closing brackets -/

theorem lexeme_bracket {l : Lexeme} (h : lexeme (r :: rs) = .ok l)
    (hk : l.kind.isOpener ∨ l.kind.isCloser) :
    punctuation? r.char = some l.kind ∧ l = ⟨l.kind, Bytes.ofChars [r.char], [r], rs⟩ := by
  simp only [lexeme] at h
  split_ifs at h
  · simp only [param] at h
    split_ifs at h
    cases h
    simp [TokenKind.isOpener, TokenKind.isCloser] at hk
  · simp [stringFrom_kind h, TokenKind.isOpener, TokenKind.isCloser] at hk
  · simp [quotedIdent_kind h, TokenKind.isOpener, TokenKind.isCloser] at hk
  · simp [quotedIdent_kind h, TokenKind.isOpener, TokenKind.isCloser] at hk
  · cases h
    simp only [number, numberSuffix] at hk
    split_ifs at hk <;> simp [TokenKind.isOpener, TokenKind.isCloser] at hk
  · simp only [word] at h
    split at h
    · next kind hkind =>
      split_ifs at hkind
      rw [stringFrom_kind h] at hk
      unfold stringMark? at hkind
      split_ifs at hkind <;> cases hkind <;> simp [TokenKind.isOpener, TokenKind.isCloser] at hk
    · cases h
      simp [TokenKind.isOpener, TokenKind.isCloser] at hk
  · simp only [symbol] at h
    split at h
    · cases h
      simp [TokenKind.isOpener, TokenKind.isCloser] at hk
    · split at h
      · next kind hkind =>
        cases h
        exact ⟨hkind, rfl⟩
      · cases h

/-- Nothing goes on with a closing bracket, and a closing bracket goes on with nothing. -/
theorem closer_ends (h : punctuation? c = some kind) (hk : kind.isCloser) :
    (EndsToken c ∧ isSpace c = false) ∧ c ∉ ['-', '/', '*'] ∧ ∀ d, EndsSymbol c d := by
  have hmem : c ∈ [')', ']', '\x7d'] := by
    unfold punctuation? at h
    split at h
    case h_13 =>
      split_ifs at h
      cases h
      cases hk
    all_goals first | decide | (cases h; cases hk)
  have hall : ∀ c ∈ [')', ']', '\x7d'], (EndsToken c ∧ isSpace c = false) ∧ c ∉ ['-', '/', '*'] ∧
      ∀ op ∈ longOperators, op.toList.head? ≠ some c :=
    forall_mem_of_all (by decide)
  obtain ⟨hends, hdash, hops⟩ := hall c hmem
  refine ⟨hends, hdash, fun d op hop heq => hops op hop ?_⟩
  have hhead : (op.toList.take 2).head? = op.toList.head? := by
    rw [List.head?_take, if_neg (by decide)]
  rw [← hhead, heq]
  rfl

/-- The tokens of a text that ends with a closing bracket come first whatever follows it. -/
theorem tokensFrom_append_closer (hr : punctuation? r.char = some kind) (hkind : kind.isCloser)
    {p : Position}
    {w : List Rune} (hbytes : ∀ x ∈ w ++ [r], x.bytes ≠ []) {own : List Token} {last stop : Token}
    (h : tokensFrom p (w ++ [r]) = .ok (own ++ [last, stop])) (hlast : last.kind.isCloser)
    (hstop : last.stop = (p.after (w ++ [r])).offset) {after : List Rune} {more : List Token}
    (hmore : tokensFrom (p.after (w ++ [r])) after = .ok more) :
    tokensFrom p (w ++ [r] ++ after) = .ok (own ++ last :: more) := by
  obtain ⟨⟨hends, -⟩, hdash, -⟩ := closer_ends hr hkind
  -- a text that ends before the bracket shows no more when another one follows the bracket
  have hfades : ∀ {ends : Char → Prop} {v : List Rune}, ends r.char → v ≠ [] → v <:+ w ++ [r] →
      Fades ends (v ++ after) v := by
    intro ends v hends hne hv
    obtain ⟨v, x, rfl⟩ := (List.eq_nil_or_concat' v).resolve_left hne
    obtain ⟨front, hfront⟩ := hv
    rw [← List.append_assoc] at hfront
    obtain ⟨-, hx⟩ := List.append_inj' hfront rfl
    rw [hx, List.append_assoc]
    exact Fades.prepend (.ended hends) rfl
  refine tokensFrom_append_token hbytes h hstop (fun x ss l hss hg hl hlastkind => ?_) hmore
  by_cases hnil : l.rest = []
  · -- the token is the closing bracket itself
    rw [← hlastkind hnil] at hlast
    obtain ⟨hx, heq⟩ := lexeme_bracket hl (.inr hlast)
    obtain ⟨-, hdash, hsymbol⟩ := closer_ends hx hlast
    obtain ⟨hlex, hgap⟩ := lexeme_of_punctuation hx (ss ++ after)
    rw [heq] at hnil ⊢
    obtain rfl : ss = [] := hnil
    refine ⟨hgap fun hmem => hdash (List.mem_append_left ['*'] hmem), hlex.trans ?_⟩
    exact symbol_of_ends hx fun b _ => hsymbol b.char
  · have hsplit := (lexeme_split hl).1
    have hrest : l.rest <:+ ss := by
      obtain ⟨y, taken, htaken⟩ := List.exists_cons_of_ne_nil (lexeme_split hl).2
      rw [htaken, List.cons_append, List.cons.injEq] at hsplit
      exact ⟨taken, hsplit.2⟩
    have hss' : ss <:+ w ++ [r] := (List.suffix_cons x ss).trans hss
    have hne : ss ≠ [] := fun hss => hnil (List.suffix_nil.1 (hss ▸ hrest))
    have hgap : Fades (· = r.char) (ss ++ after) ss := hfades rfl hne hss'
    refine ⟨gap_fades ?_ hg hgap, ?_⟩
    · rintro c hc rfl
      exact hdash hc
    · have := lexeme_fades hl (hfades hends.1 hnil (hrest.trans hss')) fun _ _ =>
        hfades hends hnil (hrest.trans hss')
      rwa [← List.append_assoc, hsplit] at this

/-- A text that starts with an opening bracket starts with its character. -/
theorem exists_opener {s : Bytes} {ts : List Token} (h : tokenize s = .ok ts) {t : Token}
    (ht : t ∈ ts) (hkind : t.kind.isOpener) (hstart : t.start.offset = 0) :
    ∃ r rs, Bytes.runes s = r :: rs ∧ isSpace r.char = false ∧
      punctuation? r.char = some t.kind := by
  obtain rfl | ⟨front, l, hruns, hne, hgap, hl, rfl⟩ := mem_tokensFrom h t ht
  · cases hkind
  · obtain ⟨r, taken, htaken⟩ := List.exists_cons_of_ne_nil hne
    have hfront : front = [] := by
      by_contra hfront
      have hbytes : ∀ x ∈ front, x.bytes ≠ [] := fun x hx =>
        bytes_ne_nil_of_mem_runes (s := s) (by rw [hruns]; exact List.mem_append_left _ hx)
      have := offset_lt_after (p := .start) hfront hbytes
      rw [show (Position.start.after front).offset = 0 from hstart] at this
      exact absurd this (Nat.not_lt_zero _)
    rw [htaken, List.cons_append] at hl hgap
    refine ⟨r, taken ++ l.rest, ?_, (gap_cons_eq_none.1 hgap).1, (lexeme_bracket hl (.inl hkind)).1⟩
    rw [hruns, hfront, List.nil_append, htaken, List.cons_append]

/-- A text that ends with a closing bracket ends with its character. -/
theorem exists_closer {p : Position} (hbytes : ∀ x ∈ rs, x.bytes ≠ []) {ts : List Token}
    (h : tokensFrom p rs = .ok ts) {t : Token} (ht : t ∈ ts) (hkind : t.kind.isCloser)
    (hstop : t.stop = (p.after rs).offset) :
    ∃ w r, rs = w ++ [r] ∧ punctuation? r.char = some t.kind := by
  obtain rfl | ⟨front, l, rfl, hne, -, hl, rfl⟩ := mem_tokensFrom h t ht
  · cases hkind
  · obtain ⟨r, taken, htaken⟩ := List.exists_cons_of_ne_nil hne
    have hrest : l.rest = [] := by
      by_contra hrest
      rw [List.forall_mem_append, List.forall_mem_append] at hbytes
      have := offset_lt_after (p := p.after (front ++ l.taken)) hrest hbytes.2.2
      rw [← Position.after_append, List.append_assoc, ← hstop] at this
      exact Nat.lt_irrefl _ this
    rw [htaken, List.cons_append] at hl
    obtain ⟨hr, heq⟩ := lexeme_bracket hl (.inr hkind)
    refine ⟨front, r, ?_, hr⟩
    rw [hrest, List.append_nil, show l.taken = [r] from congrArg Lexeme.taken heq]

theorem forall₂_append_left {α β : Type} {R : α → β → Prop} {xs ys : List α} {zs : List β}
    (h : List.Forall₂ R (xs ++ ys) zs) :
    ∃ us vs, zs = us ++ vs ∧ List.Forall₂ R xs us ∧ List.Forall₂ R ys vs := by
  induction xs generalizing zs with
  | nil => exact ⟨[], zs, rfl, .nil, h⟩
  | cons x xs ih =>
    cases h with
    | cons hx h =>
      obtain ⟨us, vs, rfl, hus, hvs⟩ := ih h
      exact ⟨_ :: us, vs, rfl, .cons hx hus, hvs⟩

/-- A text that ends with a closing bracket is read as its own tokens wherever it stands. -/
theorem segment_closed {s : Bytes} {own : List Token} {last stop : Token}
    (h : tokenize s = .ok (own ++ [last, stop]))
    (hlast : last.kind.isCloser) (hstop : last.stop = s.length) (p : Position) :
    ∃ own' last', Segment (fun _ => True) p s (own' ++ [last']) ∧
      List.Forall₂ (Token.Shifted p.offset) own own' ∧
      Token.Shifted p.offset last last' := by
  have hbytes : ∀ x ∈ Bytes.runes s, x.bytes ≠ [] := fun x hx => bytes_ne_nil_of_mem_runes hx
  obtain ⟨ts, hts, hshift⟩ := tokensFrom_shifted (d := p.offset) (q := p) (Nat.zero_add _).symm h
  obtain ⟨own', others, rfl, hown, hothers⟩ := forall₂_append_left hshift
  cases hothers with
  | @cons _ last' _ _ hlast' hothers =>
    cases hothers with
    | @cons _ stop' _ _ _ hothers =>
      cases hothers
      have hkind : last'.kind.isCloser = true := by rw [hlast'.kind, hlast]
      have hend : last'.stop = (p.after (Bytes.runes s)).offset := by
        rw [hlast'.stop, hstop, Position.after_offset, ofRunes_runes, Nat.add_comm]
      obtain ⟨w, r, hruns, hr⟩ := exists_closer hbytes hts (by simp) hkind hend
      refine ⟨own', last', fun after more _ hmore => ?_, hown, hlast'⟩
      rw [hruns] at hts hbytes hend hmore
      rw [hruns, List.append_assoc, List.singleton_append, List.append_assoc]
      simpa using tokensFrom_append_closer hr hkind hbytes hts hkind hend hmore

end Surql

end AccessLayer
