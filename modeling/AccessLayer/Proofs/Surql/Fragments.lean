import AccessLayer.Proofs.Surql.Splitting

/-!
# Texts put together from fragments

A statement is written by putting texts next to each other: words, names, types, expressions. Each
of them has tokens of its own, and in the statement the same tokens stand one after the other, only
further on.

* `Fragment`: a text whose tokens stay together.
* `Fragment.IsToken`, `Fragment.word`: texts of one token.
* `Fragment.readAll`: reading a text alone.
-/

namespace AccessLayer.Surql

open Bytes
open Position (after_offset start)
open Lexeme

variable {more : List Token} {rs : List Rune} {d : Nat}

/-! ## Tokens at a later place -/

/-- Reading at a later place shifts all tokens alike. -/
theorem tokensFrom_shifted {p q : Position} (hpq : q.offset = p.offset + d) {ts : List Token}
    (h : tokensFrom p rs = .ok ts) :
    ∃ ts', tokensFrom q rs = .ok ts' ∧ List.Forall₂ (Token.Shifted d) ts ts' := by
  suffices hall : ∀ q, q.offset = p.offset + d →
      ∃ ts', tokensFrom q rs = .ok ts' ∧ List.Forall₂ (Token.Shifted d) ts ts' from hall q hpq
  have hafter : ∀ {p q : Position}, q.offset = p.offset + d → ∀ taken,
      (q.after taken).offset = (p.after taken).offset + d := by
    intro p q hpq taken
    rw [after_offset, after_offset, hpq]
    omega
  refine tokensFrom_induction ?_ ?_ ?_ h
  · intro p q hpq
    exact ⟨[Token.endAt q], by rw [tokensFrom], .cons ⟨rfl, rfl, hpq, hpq⟩ .nil⟩
  · intro p r rs taken rest ts hg ih q hpq
    rw [tokensFrom_gap hg]
    exact ih _ (hafter hpq taken)
  · intro p r rs l ts hg hl ih q hpq
    obtain ⟨ts', hts', hshift⟩ := ih _ (hafter hpq l.taken)
    rw [tokensFrom_lexeme hg hl, hts']
    exact ⟨_, rfl, .cons ⟨rfl, rfl, hpq, hafter hpq l.taken⟩ hshift⟩

/-! ## Texts before other texts -/

/-- The tokens of a text that ends with a token come first when another text follows it, if each of
them is read as well before that text. -/
theorem tokensFrom_append_token {p : Position} (hbytes : ∀ r ∈ rs, r.bytes ≠ []) {own : List Token}
    {last stop : Token} (h : tokensFrom p rs = .ok (own ++ [last, stop]))
    (hlast : last.stop = (p.after rs).offset) {t : List Rune}
    (hstep : ∀ r ss l, r :: ss <:+ rs → gap (r :: ss) = .ok none → lexeme (r :: ss) = .ok l →
      (l.rest = [] → l.kind = last.kind) → gap (r :: (ss ++ t)) = .ok none ∧
        lexeme (r :: (ss ++ t)) = .ok (l.before t))
    (hmore : tokensFrom (p.after rs) t = .ok more) :
    tokensFrom p (rs ++ t) = .ok (own ++ last :: more) := by
  suffices hall : ∀ p ss tokens, tokensFrom p ss = .ok tokens → (ss = [] → tokens.length = 1) ∧
      ∀ own, ss <:+ rs → tokens = own ++ [last, stop] → last.stop = (p.after ss).offset →
        tokensFrom (p.after ss) t = .ok more →
          tokensFrom p (ss ++ t) = .ok (own ++ last :: more) from
    (hall p rs _ h).2 own List.suffix_rfl rfl hlast hmore
  intro p ss tokens h
  refine tokensFrom_induction ?_ ?_ ?_ h
  · intro p
    refine ⟨fun _ => rfl, fun own _ htokens => ?_⟩
    have := congrArg List.length htokens
    simp at this
  · intro p r ss taken rest tokens hg ih
    refine ⟨fun hnil => by simp at hnil, fun own hss htokens hlast hmore => ?_⟩
    have hsplit := (gap_split hg).1
    have hne : rest ≠ [] := fun hnil => by simpa [htokens] using ih.1 hnil
    rw [← hsplit] at hss hlast hmore
    rw [Position.after_append] at hlast hmore
    rw [List.cons_append, tokensFrom_gap (gap_append hg fun hnil => absurd hnil hne)]
    exact ih.2 own ((List.suffix_append taken rest).trans hss) htokens hlast hmore
  · intro p r ss l tokens hg hl ih
    refine ⟨fun hnil => by simp at hnil, fun own hss htokens hlast hmore => ?_⟩
    have hsplit := (lexeme_split hl).1
    have hrest : l.rest <:+ rs := (hsplit ▸ List.suffix_append l.taken l.rest).trans hss
    rw [← hsplit, Position.after_append] at hlast hmore
    -- a token is the last one if and only if it takes all that is left
    have hend : own = [] ↔ l.rest = [] := by
      constructor
      · rintro rfl
        obtain ⟨rfl, -⟩ := List.cons.inj htokens
        by_contra hne
        have := offset_lt_after (p := p.after l.taken) hne fun x hx => hbytes x (hrest.subset hx)
        simp only at hlast
        omega
      · intro hnil
        have hlen := congrArg List.length htokens
        rw [List.length_cons, ih.1 hnil, List.length_append, List.length_cons,
          List.length_singleton] at hlen
        exact List.eq_nil_of_length_eq_zero (by omega)
    have hkind : l.rest = [] → l.kind = last.kind := by
      intro hnil
      obtain rfl := hend.2 hnil
      obtain ⟨rfl, -⟩ := List.cons.inj htokens
      rfl
    obtain ⟨hg', hl'⟩ := hstep r ss l hss hg hl hkind
    rw [List.cons_append, tokensFrom_lexeme hg' hl']
    simp only [before]
    cases own with
    | nil =>
      obtain ⟨rfl, -⟩ := List.cons.inj htokens
      rw [hend.1 rfl] at hmore ⊢
      rw [List.nil_append, show tokensFrom (p.after l.taken) t = _ from hmore]
      rfl
    | cons u own =>
      obtain ⟨rfl, rfl⟩ := List.cons.inj htokens
      rw [ih.2 own hrest rfl hlast hmore]
      rfl

/-- White space may follow a text that ends with a token. -/
theorem tokensFrom_append_blank {b : Rune} (hb : isSpace b.char) (t : List Rune) {p : Position}
    (hbytes : ∀ r ∈ rs, r.bytes ≠ []) {own : List Token} {last stop : Token}
    (h : tokensFrom p rs = .ok (own ++ [last, stop])) (hlast : last.stop = (p.after rs).offset)
    (hmore : tokensFrom (p.after rs) (b :: t) = .ok more) :
    tokensFrom p (rs ++ b :: t) = .ok (own ++ last :: more) :=
  tokensFrom_append_token hbytes h hlast
    (fun _ _ _ _ hg hl _ => ⟨gap_append_none t hb hg, lexeme_append hb t hl⟩) hmore

/-! ## Fragments -/

/-- A text whose tokens, all of them, are the tokens of one statement. -/
structure Fragment where
  src : Bytes
  tokens : List Token
  stop : Token
  tokenize_eq : tokenize src = .ok (tokens ++ [stop])
  splitSpans_eq : splitSpans (tokens ++ [stop]) = .ok [⟨tokens, stop⟩]

namespace Fragment

def passage (f : Fragment) : Passage := ⟨f.src, ⟨f.tokens, f.stop⟩⟩

/-- The number of tokens. -/
def length (f : Fragment) : Nat := f.tokens.length

/-- The text ends with its last token. -/
def Trimmed (f : Fragment) : Prop := ∃ own last, f.tokens = own ++ [last] ∧ last.stop = f.src.length

variable (f : Fragment)

theorem spansOf_eq : spansOf f.src = .ok [f.passage.span] :=
  bind_eq_ok.2 ⟨_, f.tokenize_eq, f.splitSpans_eq⟩

theorem sound : f.passage.Sound :=
  (Passage.sound_of_mem f.spansOf_eq (List.mem_singleton.2 rfl)).1

theorem stop_eq : f.stop = Token.endAt (start.after (runes f.src)) ∧
    ∀ t ∈ f.tokens, t.kind ≠ .endOfInput := by
  obtain ⟨own, hown, hkinds, -⟩ := tokenize_inOrder f.tokenize_eq
  obtain ⟨rfl, hstop⟩ := List.append_inj' hown rfl
  exact ⟨(List.cons.inj hstop).1, hkinds⟩

theorem isRun : IsRun f.tokens :=
  isRun_of_splitSpans (by rw [f.stop_eq.1]; rfl) f.stop_eq.2 f.splitSpans_eq

theorem tokens_ne_nil : f.tokens ≠ [] :=
  List.length_pos_iff.1 (Passage.sound_of_mem f.spansOf_eq (List.mem_singleton.2 rfl)).2

/-- A text is a fragment when its tokens stay together. -/
def ofTokens {src : Bytes} {ts : List Token} {p : Position}
    (h : tokenize src = .ok (ts ++ [Token.endAt p]))
    (hne : ts ≠ []) (hrun : IsRun ts) (hts : ∀ t ∈ ts, t.kind ≠ .endOfInput) : Fragment :=
  ⟨src, ts, Token.endAt p, h, hrun.splitSpans_eq rfl hts hne⟩

theorem parse_eq_ok {st : Statement} :
    parse f.src = .ok [st] ↔ ∃ c, Statement.read (f.passage.cursor 0) = .ok (st, c) := by
  rw [f.passage.cursor_zero]
  exact parse_of_spansOf f.spansOf_eq

end Fragment

/-! ## Embedding -/

/-- The tokens of the passage `s` stand in the passage `s'` after `a` tokens, and its source after
`d` bytes. -/
structure Passage.Embeds (s s' : Passage) (a d : Nat) : Prop where
  sound : s.Sound
  sound' : s'.Sound
  nested : WellNested s.span.tokens
  le : a + s.length ≤ s'.length
  token : ∀ {i}, i < s.length → Token.Shifted d (s.token i) (s'.token (a + i))
  src : ∃ before after, s'.src = before ++ s.src ++ after ∧ before.length = d

namespace Passage.Embeds

variable {s s' s'' : Passage} {a b d d' : Nat}

theorem trans (E : s.Embeds s' a d) (E' : s'.Embeds s'' b d') : s.Embeds s'' (b + a) (d' + d) where
  sound := E.sound
  sound' := E'.sound'
  nested := E.nested
  le := by
    have := E.le
    have := E'.le
    omega
  token {i} hi := by
    have hle := E.le
    have := (E.token hi).trans (E'.token (i := a + i) (by omega))
    rwa [← Nat.add_assoc] at this
  src := by
    obtain ⟨before, after, hs', rfl⟩ := E.src
    obtain ⟨before', after', hs'', rfl⟩ := E'.src
    exact ⟨before' ++ before, after ++ after', by rw [hs'', hs']; simp, by simp⟩

/-- The embedded passage is further on what its tokens are, cut out of the other one. -/
theorem shifted (E : s.Embeds s' a d) : Passage.Shifted d s (s'.part a s.length) where
  sound := E.sound
  sound' := E.sound'.part
  length_eq := s'.length_part E.le
  token hi := by
    rw [s'.token_part hi]
    exact E.token hi
  src := E.src

/-- The source text of tokens of the embedded passage. -/
theorem text (E : s.Embeds s' a d) {i j : Nat} (hij : i ≤ j) (hj : j < s.length) :
    s'.text (a + i) (a + j) = s.text i j := by
  rw [← s'.text_part (lt_of_le_of_lt hij hj) hj, E.shifted.text_eq hij hj]

end Passage.Embeds

namespace Fragment

variable {f g : Fragment}

theorem embeds_refl (f : Fragment) : f.passage.Embeds f.passage 0 0 where
  sound := f.sound
  sound' := f.sound
  nested := f.isRun.wellNested
  le := by rw [Nat.zero_add]
  token _ := by
    rw [Nat.zero_add]
    exact .refl _
  src := ⟨[], [], by simp, rfl⟩

theorem runes_blank (s t : Bytes) :
    runes (s ++ " " ++ t) = runes s ++ Utf8.single 0x20 :: runes t := by
  have hblank : s ++ " " ++ t = s ++ 0x20 :: t := by
    rw [List.append_assoc]
    rfl
  rw [hblank, runes_append s t (by decide), runes_cons_of_ascii (by decide)]

/-- Shifted tokens have the same classes. -/
theorem map_kind_shifted {ts us : List Token} (h : List.Forall₂ (Token.Shifted d) ts us) :
    ts.map (·.kind) = us.map (·.kind) := by
  induction h with
  | nil => rfl
  | cons h _ ih => rw [List.map_cons, List.map_cons, h.kind, ih]

theorem embeds_left {h : Fragment} {rest : Bytes} (htokens : h.tokens = f.tokens ++ more)
    (hsrc : h.src = f.src ++ rest) : f.passage.Embeds h.passage 0 0  where
  sound := f.sound
  sound' := h.sound
  nested := f.isRun.wellNested
  le := by
    show 0 + f.tokens.length ≤ h.tokens.length
    rw [htokens, List.length_append]
    omega
  token {i} hi := by
    have hi' : i < f.tokens.length := hi
    rw [Nat.zero_add, Passage.token, Passage.token]
    show Token.Shifted 0 (f.tokens[i]?.getD _) (h.tokens[i]?.getD _)
    rw [htokens, List.getElem?_append_left hi', List.getElem?_eq_getElem hi']
    exact .refl _
  src := ⟨[], rest, by rw [List.nil_append]; exact hsrc, rfl⟩

theorem embeds_right {h : Fragment} (own : List Token) {front : Bytes}
    (htokens : h.tokens = own ++ more) (hsrc : h.src = front ++ g.src) (hd : front.length = d)
    (hmore : List.Forall₂ (Token.Shifted d) g.tokens more) :
    g.passage.Embeds h.passage own.length d  where
  sound := g.sound
  sound' := h.sound
  nested := g.isRun.wellNested
  le := by
    show own.length + g.tokens.length ≤ h.tokens.length
    rw [htokens, List.length_append, hmore.length_eq]
  token {i} hi := by
    have hi' : i < g.tokens.length := hi
    have hlen : i < more.length := hmore.length_eq ▸ hi'
    show Token.Shifted d (g.tokens[i]?.getD _) (h.tokens[own.length + i]?.getD _)
    rw [htokens, List.getElem?_append_right (Nat.le_add_right _ _), Nat.add_sub_cancel_left,
      List.getElem?_eq_getElem hi', List.getElem?_eq_getElem hlen]
    exact (List.forall₂_iff_get.1 hmore).2 i hi' hlen
  src := ⟨front, [], by rw [List.append_nil]; exact hsrc, hd⟩

/-- Two fragments with a space between them are one. -/
theorem exists_append (hf : f.Trimmed) (g : Fragment) :
    ∃ h : Fragment, h.src = f.src ++ " " ++ g.src ∧ h.length = f.length + g.length ∧
      f.passage.Embeds h.passage 0 0 ∧ g.passage.Embeds h.passage f.length (f.src.length + 1) := by
  obtain ⟨own, last, htokens, hlast⟩ := hf
  have hspace : isSpace (Utf8.single 0x20).char = true := by decide
  -- the tokens of the second fragment, further on
  generalize hp : (start.after (runes f.src)).next (Utf8.single 0x20) = p
  have hoffset : p.offset = start.offset + (f.src.length + 1) := by
    rw [← hp, Position.next_offset, after_offset, ofRunes_runes]
    rfl
  obtain ⟨shifted, hshifted, hforall⟩ := tokensFrom_shifted hoffset g.tokenize_eq
  obtain ⟨more, hmore, hkinds, -⟩ := tokensFrom_inOrder
    (fun r hr => bytes_ne_nil_of_mem_runes hr) hshifted
  have hown : tokensFrom .start (runes f.src) = .ok (own ++ [last, f.stop]) := by
    have := f.tokenize_eq
    rw [htokens, List.append_assoc] at this
    exact this
  have htokenize : tokenize (f.src ++ " " ++ g.src) =
      .ok (f.tokens ++ more ++ [Token.endAt (p.after (runes g.src))]) := by
    rw [tokenize, runes_blank, tokensFrom_append_blank hspace _
      (fun r hr => bytes_ne_nil_of_mem_runes hr)
        hown ?_ ((tokensFrom_blank hspace).trans (hp ▸ hshifted)),
      hmore, htokens]
    · simp
    · rw [hlast, after_offset, ofRunes_runes]
      exact (Nat.zero_add _).symm
  have hg : List.Forall₂ (Token.Shifted (f.src.length + 1)) g.tokens more := by
    rw [hmore, ← List.forall₂_reverse_iff, List.reverse_append, List.reverse_append] at hforall
    cases hforall with
    | cons _ hforall => exact List.forall₂_reverse_iff.1 hforall
  have hrun : IsRun (f.tokens ++ more) := f.isRun.append (g.isRun.congr (map_kind_shifted hg))
  refine ⟨ofTokens htokenize (by simp [f.tokens_ne_nil]) hrun
    (List.forall_mem_append.2 ⟨f.stop_eq.2, hkinds⟩), rfl, ?_, ?_, ?_⟩
  · show (f.tokens ++ more).length = _
    rw [List.length_append, ← hg.length_eq]
    rfl
  · exact embeds_left rfl (List.append_assoc _ _ _)
  · exact embeds_right f.tokens rfl rfl (by rw [List.length_append]; rfl) hg

/-- The text of fragments with a space between any two of them. -/
def written (fs : List Fragment) : Bytes := join " " (fs.map (·.src))

end Fragment

/-- From a token of a passage on, the fragments follow each other up to the end. -/
inductive Passage.Laid (s : Passage) : Nat → List Fragment → Prop where
  | nil : s.Laid s.length []
  | cons {m d : Nat} {f : Fragment} {fs : List Fragment} (E : f.passage.Embeds s m d)
      (h : s.Laid (m + f.length) fs) : s.Laid m (f :: fs)

theorem Passage.Laid.embed {s s' : Passage} {m a : Nat} {fs : List Fragment} (h : s.Laid m fs)
    (E : s.Embeds s' a d) (hend : a + s.length = s'.length) : s'.Laid (a + m) fs := by
  induction h with
  | nil =>
    rw [hend]
    exact .nil
  | cons E' _ ih =>
    refine .cons (E'.trans E) ?_
    rwa [Nat.add_assoc]

/-- Fragments that are written next to each other are one, if all but the last end with a token. -/
theorem Fragment.exists_written {fs : List Fragment} (hne : fs ≠ [])
    (hfs : ∀ f ∈ fs.dropLast, f.Trimmed) :
    ∃ h : Fragment, h.src = written fs ∧ h.passage.Laid 0 fs := by
  induction fs with
  | nil => exact absurd rfl hne
  | cons f fs ih =>
    cases fs with
    | nil =>
      refine ⟨f, rfl, .cons f.embeds_refl ?_⟩
      rw [Nat.zero_add]
      exact .nil
    | cons g fs =>
      rw [List.dropLast_cons_cons, List.forall_mem_cons] at hfs
      obtain ⟨k, hsrc, hlaid⟩ := ih (by simp) hfs.2
      obtain ⟨h, hh, hlen, hleft, hright⟩ := exists_append hfs.1 k
      refine ⟨h, ?_, .cons hleft ?_⟩
      · rw [hh, hsrc]
        rfl
      · rw [Nat.zero_add]
        exact hlaid.embed hright hlen.symm

/-! ## Texts of one token -/

namespace Fragment

variable {k : TokenKind} {w : Bytes}

/-- The text is one token with a class and a literal, and ends with it. -/
def IsToken (f : Fragment) (k : TokenKind) (w : Bytes) : Prop :=
  ∃ p, f.tokens = [⟨k, w, p, f.src.length⟩]

theorem IsToken.trimmed {f : Fragment} (h : f.IsToken k w) : f.Trimmed := by
  obtain ⟨p, h⟩ := h
  exact ⟨[], _, h, rfl⟩

theorem IsToken.length_eq {f : Fragment} (h : f.IsToken k w) : f.length = 1 := by
  obtain ⟨p, h⟩ := h
  rw [length, h, List.length_singleton]

/-- The token stands where the text does. -/
theorem IsToken.token {f : Fragment} {k : TokenKind} {w : Bytes} (h : f.IsToken k w) {s : Passage}
    {m d : Nat} (E : f.passage.Embeds s m d) :
    m < s.length ∧ (s.token m).kind = k ∧ (s.token m).literal = w := by
  have hlen : f.passage.length = 1 := h.length_eq
  have hle := E.le
  have htoken := E.token (i := 0) (by omega)
  obtain ⟨p, hp⟩ := h
  have hfirst : f.passage.token 0 = ⟨k, w, p, f.src.length⟩ := by
    show f.tokens[0]?.getD _ = _
    rw [hp]
    rfl
  rw [hfirst] at htoken
  exact ⟨by omega, htoken.kind, htoken.literal⟩

theorem tokenize_lexeme {src : Bytes} (hgap : Lexeme.gap (runes src) = .ok none)
    (hlex : lexeme (runes src) = .ok ⟨k, w, runes src, []⟩) :
    tokenize src = .ok ([⟨k, w, .start, src.length⟩] ++
      [Token.endAt (start.after (runes src))]) := by
  have hstop : (start.after (runes src)).offset = src.length := by
    rw [after_offset, ofRunes_runes]
    exact Nat.zero_add _
  rw [tokenize]
  cases hruns : runes src with
  | nil =>
    rw [hruns] at hlex
    cases hlex
  | cons r rs =>
    rw [hruns] at hgap hlex hstop
    rw [tokensFrom_lexeme hgap hlex, tokensFrom, hstop]
    rfl

/-- A text that is read as one token, which is no bracket and no semicolon. -/
def ofLexeme {src w : Bytes} {k : TokenKind} (hgap : Lexeme.gap (runes src) = .ok none)
    (hlex : lexeme (runes src) = .ok ⟨k, w, runes src, []⟩)
    (hk : k ∉ [.lparen, .lbracket, .lbrace, .rparen, .rbracket, .rbrace, .semicolon]) : Fragment :=
  ofTokens (tokenize_lexeme hgap hlex) (List.cons_ne_nil _ _) (IsRun.singleton hk)
    (List.forall_mem_singleton.2 (lexeme_kind_ne hlex))

def isWord (w : Bytes) : Bool :=
  match Lexeme.gap (runes w), lexeme (runes w) with
  | .ok none, .ok l => l.kind == .ident && l.literal == w && l.taken == runes w && l.rest == []
  | _, _ => false

theorem lexeme_of_isWord (h : isWord w) : Lexeme.gap (runes w) = .ok none ∧
    lexeme (runes w) = .ok ⟨.ident, w, runes w, []⟩ := by
  unfold isWord at h
  split at h
  · next l hg hl =>
    simp only [Bool.and_eq_true, beq_iff_eq] at h
    obtain ⟨⟨⟨hk, hlit⟩, ht⟩, hr⟩ := h
    refine ⟨hg, ?_⟩
    rw [hl, ← ht, ← hk, ← hr, ← hlit]
  · cases h

theorem ident_plain :
    TokenKind.ident ∉ [TokenKind.lparen, .lbracket, .lbrace, .rparen, .rbracket, .rbrace,
    .semicolon] := by
  decide

def word (w : Bytes) (h : isWord w = true) : Fragment :=
  ofLexeme (lexeme_of_isWord h).1 (lexeme_of_isWord h).2 ident_plain

theorem isToken_word (w : Bytes) (h : isWord w) : (word w h).IsToken .ident w := ⟨.start, rfl⟩

/-! ## Reading a text alone -/

/-- What a reader makes of all of a text, if its tokens stay together and it ends with the last. -/
def readAll {α : Type} (r : Reader α) (src : Bytes) : Option α :=
  match tokenize src with
  | .error _ => none
  | .ok ts =>
    match splitSpans ts with
    | .ok [span] =>
      if span.tokens ++ [span.stop] = ts ∧ span.tokens.getLast?.map (·.stop) = some src.length then
        match r (Cursor.ofSpan src span) with
        | .error _ => none
        | .ok (x, c) => if c.atEnd then some x else none
      else none
    | _ => none

theorem exists_of_readAll {α : Type} {r : Reader α} {src : Bytes} {x : α}
    (h : readAll r src = some x) :
    ∃ f : Fragment, f.src = src ∧ f.Trimmed ∧ ∃ c, r (f.passage.cursor 0) = .ok (x, c) ∧
      c.atEnd := by
  unfold readAll at h
  split at h
  · cases h
  · next ts htokens =>
    split at h
    · next span hspans =>
      split at h
      · next hspan =>
        obtain ⟨rfl, hlast⟩ := hspan
        obtain ⟨last, hlast, hstop⟩ := Option.map_eq_some_iff.1 hlast
        obtain ⟨own, hown⟩ := List.getLast?_eq_some_iff.1 hlast
        refine ⟨⟨src, span.tokens, span.stop, htokens, hspans⟩, rfl, ⟨own, last, hown, hstop⟩, ?_⟩
        split at h
        · cases h
        · next y c hread =>
          split at h
          · next hc =>
            cases h
            refine ⟨c, ?_, hc⟩
            rw [Passage.cursor_zero]
            exact hread
          · cases h
      · cases h
    · cases h

end Fragment

end AccessLayer.Surql
