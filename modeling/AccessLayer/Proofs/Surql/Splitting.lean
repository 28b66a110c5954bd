import AccessLayer.Proofs.Surql.Spans

/-!
# Cutting a stream exactly

Which streams can be cut into statements, what the statements are, and where the fault of any other
stream lies. Nothing here speaks of the stack that the cutting keeps: brackets match when the stream
is a word of the bracket language, and a bracket is the innermost open one when such a word follows
it.

* `WellNested`, `InnermostOpen`, `Mismatch`: brackets that match, are open, or do not fit.
* `Cutting`: the runs between the semicolons outside of brackets.
* `splitSpans_exact`: a stream is cut just when it is well nested, into these runs, and otherwise
  its fault is reported.
-/

namespace AccessLayer.Surql

variable {e t : Token} {ts us opened opened' : List Token}

/-! ## Brackets -/

/-- Streams whose brackets match. Other tokens may stand anywhere. -/
inductive WellNested : List Token → Prop where
  | nil : WellNested []
  | plain {t : Token} {ts : List Token} (ho : t.kind.isOpener = false)
    (hc : t.kind.isCloser = false)
      (h : WellNested ts) : WellNested (t :: ts)
  | group {o c : Token} {inner ts : List Token} (hm : o.kind.closer? = some c.kind)
      (hi : WellNested inner) (h : WellNested ts) : WellNested (o :: inner ++ c :: ts)

/-- The bracket `o` is open after the tokens, and every one opened later is closed. -/
def InnermostOpen (ts : List Token) (o : Token) : Prop :=
  o.kind.isOpener = true ∧ ∃ outer inner, ts = outer ++ o :: inner ∧ WellNested inner

/-- A closing bracket that does not match the innermost open one, which may not exist. -/
def Mismatch (before : List Token) (t : Token) : Prop :=
  t.kind.isCloser = true ∧ ∀ o, InnermostOpen before o → o.kind.closer? ≠ some t.kind

/-- What is reported of a stream whose brackets do not match: the first closing bracket that does
not match the innermost open one or, without such a bracket, the innermost one open at the end. -/
inductive NestingFault (own : List Token) : ParseError → Prop where
  | closer {before after : List Token} {t : Token} (h : own = before ++ t :: after)
      (ht : Mismatch before t)
      (first : ∀ before' u after', before = before' ++ u :: after' → ¬ Mismatch before' u) :
      NestingFault own ⟨.unexpectedCloser t.kind, t.start⟩
  | opener {o : Token} (none : ∀ before t after, own = before ++ t :: after → ¬ Mismatch before t)
      (ho : InnermostOpen own o) : NestingFault own ⟨.unclosed o.kind, o.start⟩

/-- How many brackets are open after the tokens. -/
def depth (ts : List Token) : Int :=
  ts.countP (·.kind.isOpener) - ts.countP (·.kind.isCloser)

theorem depth_append (ts us : List Token) : depth (ts ++ us) = depth ts + depth us := by
  simp only [depth, List.countP_append]
  omega

theorem depth_cons (t : Token) (ts : List Token) : depth (t :: ts) = depth [t] + depth ts :=
  depth_append [t] ts

theorem depth_plain (ho : t.kind.isOpener = false) (hc : t.kind.isCloser = false) :
    depth [t] = 0 := by
  simp [depth, ho, hc]

theorem depth_opener (ho : t.kind.isOpener) : depth [t] = 1 := by
  simp [depth, ho, TokenKind.isCloser_of_isOpener ho]

namespace WellNested

variable {ts : List Token}

theorem append (h : WellNested ts) (h' : WellNested us) : WellNested (ts ++ us) := by
  induction h with
  | nil => exact h'
  | plain ho hc _ ih => exact .plain ho hc ih
  | group hm hi _ _ ih => simpa using WellNested.group hm hi ih

/-- A stream between an opening bracket and its closing one. -/
theorem between {o c : Token} (hm : o.kind.closer? = some c.kind) (h : WellNested ts) :
    WellNested (o :: ts ++ [c]) :=
  .group hm h .nil

theorem depth_eq (h : WellNested ts) : depth ts = 0 := by
  induction h with
  | nil => rfl
  | plain ho hc _ ih => rw [depth_cons, depth_plain ho hc, ih, Int.add_zero]
  | @group o c _ _ hm _ _ ihi ih =>
    obtain ⟨ho, -, hno, hc⟩ := TokenKind.brackets hm
    have hclose : depth [c] = -1 := by simp [depth, hno, hc]
    rw [List.cons_append, depth_cons, depth_append, depth_cons c, depth_opener ho, ihi, ih, hclose]
    rfl

end WellNested

/-! ## Open brackets -/

/-- The brackets that are open, innermost first, after more tokens. -/
def openAfter (opened ts : List Token) : Option (List Token) := ts.foldlM openStep opened

theorem openAfter_append (opened ts us : List Token) :
    openAfter opened (ts ++ us) = openAfter opened ts >>= fun opened => openAfter opened us :=
  List.foldlM_append

theorem openAfter_cons (opened : List Token) (t : Token) (ts : List Token) :
    openAfter opened (t :: ts) = openStep opened t >>= fun opened => openAfter opened ts :=
  List.foldlM_cons

/-- A token opens a bracket, closes the innermost one, or is neither. -/
theorem openStep_eq_some (h : openStep opened t = some opened') :
    (t.kind.isOpener ∧ opened' = t :: opened) ∨
    (∃ o, opened = o :: opened' ∧ o.kind.closer? = some t.kind) ∨
    (t.kind.isOpener = false ∧ t.kind.isCloser = false ∧ opened' = opened) := by
  unfold openStep at h
  split_ifs at h with ho hc
  · exact .inl ⟨ho, (Option.some.inj h).symm⟩
  · cases opened with
    | nil => cases h
    | cons o outer =>
      obtain ⟨hm, houter⟩ := Option.ite_none_right_eq_some.1 h
      exact .inr (.inl ⟨o, by rw [Option.some.inj houter], hm⟩)
  · exact .inr (.inr ⟨by simpa using ho, by simpa using hc, (Option.some.inj h).symm⟩)

/-- A token that does not fit is a closing bracket other than that of the innermost open one. -/
theorem openStep_eq_none :
    openStep opened t = none ↔
      t.kind.isCloser ∧ ∀ o, opened.head? = some o → o.kind.closer? ≠ some t.kind := by
  unfold openStep
  split_ifs with ho hc
  · simp [TokenKind.isCloser_of_isOpener ho]
  · cases opened with
    | nil => simp [hc]
    | cons o outer => simp [hc]
  · simp [hc]

theorem WellNested.openAfter_eq (h : WellNested ts) (opened : List Token) :
    openAfter opened ts = some opened := by
  induction h generalizing opened with
  | nil => rfl
  | plain ho hc _ ih =>
    rw [openAfter_cons, openStep_plain opened ho hc]
    exact ih opened
  | @group o c inner ts hm _ _ ihi ih =>
    have hinner : openAfter (o :: opened) (inner ++ c :: ts) = openAfter opened ts := by
      rw [openAfter_append, ihi]
      show openAfter (o :: opened) (c :: ts) = _
      rw [openAfter_cons, openStep_closer opened hm]
      rfl
    rw [List.cons_append, openAfter_cons, openStep_opener opened (TokenKind.brackets hm).1]
    exact hinner.trans (ih opened)

/-- The tokens leave the given brackets open, innermost first: a well-nested stream stands after
each of them and before the first. -/
inductive Leaves : List Token → List Token → Prop where
  | nil {ts : List Token} (h : WellNested ts) : Leaves ts []
  | cons {ts inner opened : List Token} {o : Token} (h : Leaves ts opened)
    (ho : o.kind.isOpener = true)
      (hi : WellNested inner) : Leaves (ts ++ o :: inner) (o :: opened)

namespace Leaves

variable {ts opened : List Token}

theorem wellNested (h : Leaves ts []) : WellNested ts := by
  cases h with
  | nil h => exact h

variable (h : Leaves ts opened)
include h

theorem append (h' : WellNested us) : Leaves (ts ++ us) opened := by
  cases h with
  | nil h => exact nil (h.append h')
  | cons h ho hi => simpa using cons h ho (hi.append h')

theorem step (ht : openStep opened t = some opened') : Leaves (ts ++ [t]) opened' := by
  obtain ⟨ho, rfl⟩ | ⟨o, rfl, hm⟩ | ⟨ho, hc, rfl⟩ := openStep_eq_some ht
  · exact cons h ho .nil
  · cases h with
    | cons h _ hi => simpa using h.append (hi.between hm)
  · exact h.append (.plain ho hc .nil)

theorem openAfter_eq : openAfter [] ts = some opened := by
  induction h with
  | nil h => exact h.openAfter_eq []
  | @cons ts inner opened o _ ho hi ih =>
    rw [openAfter_append, ih]
    show openAfter opened (o :: inner) = _
    rw [openAfter_cons, openStep_opener opened ho]
    exact hi.openAfter_eq (o :: opened)

theorem depth_eq : depth ts = opened.length := by
  induction h with
  | nil h => exact h.depth_eq
  | cons _ ho hi ih =>
    rw [depth_append, depth_cons, depth_opener ho, ih, hi.depth_eq, List.length_cons]
    omega

/-- The innermost open bracket is the first of the open ones. -/
theorem innermostOpen_iff {o : Token} : InnermostOpen ts o ↔ opened.head? = some o := by
  constructor
  · rintro ⟨ho, outer, inner, rfl, hi⟩
    have hopen := h.openAfter_eq
    rw [openAfter_append, Option.bind_eq_bind, Option.bind_eq_some_iff] at hopen
    obtain ⟨opened', -, hopen⟩ := hopen
    rw [openAfter_cons, openStep_opener opened' ho] at hopen
    have hopened : openAfter (o :: opened') inner = some opened := hopen
    rw [hi.openAfter_eq] at hopened
    rw [← Option.some.inj hopened, List.head?_cons]
  · intro hhead
    cases h with
    | nil h => cases hhead
    | cons h ho hi =>
      cases hhead
      exact ⟨ho, _, _, rfl, hi⟩

theorem mismatch_iff : Mismatch ts t ↔ openStep opened t = none := by
  rw [openStep_eq_none, Mismatch]
  simp only [h.innermostOpen_iff]

end Leaves

/-! ## Which streams can be cut -/

namespace Span

variable {own opened current : List Token} {e : Token} (he : e.kind = .endOfInput)
  (hown : ∀ t ∈ own, t.kind ≠ .endOfInput)

include he hown

/-- A stream can be cut when it closes every bracket that is open and opened later. -/
theorem cut_isOk_iff :
    (∃ spans, cut opened current (own ++ [e]) = .ok spans) ↔ openAfter opened own = some [] := by
  induction own generalizing opened current with
  | nil =>
    rw [List.nil_append]
    cases opened with
    | nil => simp [openAfter, cut_end_nil current he]
    | cons o outer => simp [openAfter, cut_end_cons o outer current he]
  | cons t own ih =>
    have hrest : ∀ u ∈ own, u.kind ≠ .endOfInput := fun u hu => hown u (List.mem_cons_of_mem _ hu)
    rw [List.cons_append, openAfter_cons]
    obtain ⟨hnone, hcut⟩ | ⟨-, rfl, hstep, hcut⟩ | ⟨opened', hsome, -, hcut⟩ :=
      cut_step opened (hown t (by simp))
    · simp [hcut, hnone]
    · rw [hcut, hstep]
      show _ ↔ openAfter [] own = some []
      rw [← @ih [] [] hrest]
      simp [map_eq_ok]
    · rw [hcut, hsome]
      exact ih hrest

/-- What is reported lies where the brackets do not match: at the first token that does not fit to
the tokens before it, or at the end. -/
theorem nestingFault_of_cut {before : List Token} (hbefore : Leaves before opened)
    (hfirst : ∀ before' u after', before = before' ++ u :: after' → ¬ Mismatch before' u)
    {err : ParseError} (h : cut opened current (own ++ [e]) = .error err) :
    NestingFault (before ++ own) err := by
  induction own generalizing before opened current with
  | nil =>
    rw [List.nil_append] at h
    cases opened with
    | nil =>
      rw [cut_end_nil current he] at h
      cases h
    | cons o outer =>
      rw [cut_end_cons o outer current he] at h
      cases h
      rw [List.append_nil]
      exact .opener hfirst (hbefore.innermostOpen_iff.2 rfl)
  | cons t own ih =>
    have hrest : ∀ u ∈ own, u.kind ≠ .endOfInput := fun u hu => hown u (List.mem_cons_of_mem _ hu)
    -- without a fault so far, the next token is the first that may not fit
    have hnext : ∀ {opened'}, openStep opened t = some opened' → ∀ before' u after',
        before ++ [t] = before' ++ u :: after' → ¬ Mismatch before' u := by
      intro opened' hstep before' u after' hsplit
      obtain ⟨rfl, rfl⟩ | ⟨after, hsplit⟩ := concat_eq_append_cons hsplit
      · rw [hbefore.mismatch_iff, hstep]
        simp
      · exact hfirst before' u after hsplit
    rw [List.cons_append] at h
    obtain ⟨hnone, hcut⟩ | ⟨-, rfl, hstep, hcut⟩ | ⟨opened', hsome, -, hcut⟩ :=
      cut_step opened (hown t (by simp))
    · rw [hcut] at h
      cases h
      exact .closer rfl (hbefore.mismatch_iff.2 hnone) hfirst
    · rw [hcut, map_eq_error] at h
      simpa using ih hrest (hbefore.step hstep) (hnext hstep) h
    · rw [hcut] at h
      simpa using ih hrest (hbefore.step hsome) (hnext hsome) h

end Span

/-- What is open after the tokens is left open by them. -/
theorem leaves_of_openAfter (h : Leaves ts opened) (hus : openAfter opened us = some opened') :
    Leaves (ts ++ us) opened' := by
  induction us generalizing ts opened with
  | nil =>
    cases hus
    rwa [List.append_nil]
  | cons u us ih =>
    rw [openAfter_cons, Option.bind_eq_bind, Option.bind_eq_some_iff] at hus
    obtain ⟨next, hstep, hus⟩ := hus
    simpa using ih (h.step hstep) hus

theorem wellNested_iff : WellNested ts ↔ openAfter [] ts = some [] := by
  refine ⟨fun h => h.openAfter_eq [], fun h => ?_⟩
  exact (leaves_of_openAfter (.nil .nil) h).wellNested

/-! ## Statements -/

/-- A run of tokens and the token it ends before. -/
structure Piece where
  run : List Token
  stop : Token

namespace Piece

/-- The stream that consists of the pieces. -/
def joined (pieces : List Piece) : List Token := pieces.flatMap fun p => p.run ++ [p.stop]

/-- The spans of the pieces: a run that is not empty, closed where it ends. -/
def spans (pieces : List Piece) : List Span :=
  (pieces.filter fun p => !p.run.isEmpty).map fun p => ⟨p.run, Token.endAt p.stop.start⟩

theorem joined_cons (run : List Token) (stop : Token) (pieces : List Piece) :
    joined (⟨run, stop⟩ :: pieces) = run ++ stop :: joined pieces := by
  simp [joined]

theorem spans_cons (current : List Token) (t : Token) (pieces : List Piece) :
    spans (⟨current.reverse, t⟩ :: pieces) = Span.close current t ++ spans pieces := by
  cases current with
  | nil => rfl
  | cons u us => simp [spans, Span.close]

end Piece

/-- The stream cut at the semicolons outside of brackets: the pieces make up the stream, each is
well nested, and a token of it ends a piece just when it is a semicolon with no bracket open before
it. -/
structure Cutting (own : List Token) (e : Token) (pieces : List Piece) : Prop where
  joined : Piece.joined pieces = own ++ [e]
  wellNested : ∀ p ∈ pieces, WellNested p.run
  stops : ∀ before t after, own = before ++ t :: after →
    (t.kind = .semicolon ∧ depth before = 0 ↔
      ∃ front run back, pieces = front ++ ⟨run, t⟩ :: back ∧ before = Piece.joined front ++ run)

/-- No semicolon among the tokens stands outside of their brackets. -/
def NoBreak (ts : List Token) : Prop :=
  ∀ pre t post, ts = pre ++ t :: post → t.kind = .semicolon → depth pre ≠ 0

theorem noBreak_nil : NoBreak [] := by
  intro pre t post h
  simp at h

theorem NoBreak.concat (h : NoBreak ts) (hts : Leaves ts opened)
    (ht : t.kind = .semicolon → opened ≠ []) : NoBreak (ts ++ [t]) := by
  intro pre u post hsplit hu
  obtain ⟨rfl, rfl⟩ | ⟨post, hsplit⟩ := concat_eq_append_cons hsplit
  · have := List.length_pos_iff.2 (ht hu)
    rw [hts.depth_eq]
    omega
  · exact h pre u post hsplit hu

/-- A cutting piece by piece: no run has a semicolon outside of its own brackets. -/
inductive Pieces (e : Token) : List Token → List Piece → Prop where
  | last {run : List Token} (h : WellNested run) (hrun : NoBreak run) : Pieces e run [⟨run, e⟩]
  | cons {run rest : List Token} {t : Token} {pieces : List Piece} (h : WellNested run)
      (hrun : NoBreak run) (ht : t.kind = .semicolon) (hrest : Pieces e rest pieces) :
      Pieces e (run ++ t :: rest) (⟨run, t⟩ :: pieces)

namespace Pieces

variable {e : Token} {own : List Token} {pieces : List Piece} (h : Pieces e own pieces)
include h

theorem joined : Piece.joined pieces = own ++ [e] := by
  induction h with
  | last => simp [Piece.joined]
  | cons _ _ _ _ ih => rw [Piece.joined_cons, ih, List.append_assoc, List.cons_append]

theorem wellNested : ∀ p ∈ pieces, WellNested p.run := by
  induction h with
  | last h _ => simpa using h
  | cons h _ _ _ ih => simpa using ⟨h, ih⟩

theorem run_infix : ∀ p ∈ pieces, p.run <:+: own := by
  induction h with
  | last => simp
  | cons _ _ _ _ ih =>
    intro p hp
    obtain rfl | hp := List.mem_cons.1 hp
    · exact (List.prefix_append _ _).isInfix
    · exact (ih p hp).trans ((List.suffix_cons _ _).trans (List.suffix_append _ _)).isInfix

/-- A piece ends at every semicolon outside of brackets. -/
theorem stop_of_semicolon {before after : List Token} (hown : own = before ++ t :: after)
    (ht : t.kind = .semicolon) (hd : depth before = 0) :
    ∃ front run back, pieces = front ++ ⟨run, t⟩ :: back ∧ before = Piece.joined front ++ run := by
  induction h generalizing before with
  | last _ hrun => exact absurd hd (hrun before t after hown ht)
  | @cons run rest u pieces hw hrun hu hrest ih =>
    obtain ⟨mid, rfl, hmid⟩ | ⟨mid, rfl, hmid⟩ := List.append_eq_append_iff.1 hown
    · -- the token stands after the run
      cases mid with
      | nil =>
        cases hmid
        exact ⟨[], run, pieces, rfl, by simp [Piece.joined]⟩
      | cons v mid =>
        rw [List.cons_append, List.cons.injEq] at hmid
        obtain ⟨rfl, hmid⟩ := hmid
        have hsemi : depth [u] = 0 := depth_plain (by rw [hu]; rfl) (by rw [hu]; rfl)
        rw [depth_append, depth_cons, hw.depth_eq, hsemi] at hd
        obtain ⟨front, run', back, rfl, rfl⟩ := ih hmid (by omega)
        exact ⟨⟨run, u⟩ :: front, run', back, rfl, by simp [Piece.joined]⟩
    · -- the token stands in the run, or ends it
      cases mid with
      | nil =>
        cases hmid
        exact ⟨[], before, pieces, by simp, by simp [Piece.joined]⟩
      | cons v mid =>
        obtain ⟨rfl, -⟩ := List.cons.inj hmid
        exact absurd hd (hrun before t mid rfl ht)

/-- Only a semicolon outside of brackets ends a piece before the end. -/
theorem semicolon_of_stop {front back : List Piece} {run after : List Token}
    (hpieces : pieces = front ++ ⟨run, t⟩ :: back)
    (hown : own = Piece.joined front ++ run ++ t :: after) :
    t.kind = .semicolon ∧ depth (Piece.joined front ++ run) = 0 := by
  induction h generalizing front with
  | @last run' _ _ =>
    cases front with
    | nil =>
      cases hpieces
      simp [Piece.joined] at hown
    | cons p front => simp at hpieces
  | @cons run' rest u pieces hw _ hu _ ih =>
    cases front with
    | nil =>
      cases hpieces
      exact ⟨hu, hw.depth_eq⟩
    | cons p front =>
      rw [List.cons_append, List.cons.injEq] at hpieces
      obtain ⟨rfl, hpieces⟩ := hpieces
      rw [Piece.joined_cons] at hown ⊢
      have hrest : rest = Piece.joined front ++ run ++ t :: after := by simpa using hown
      obtain ⟨ht, hd⟩ := ih hpieces hrest
      have hsemi : depth [u] = 0 := depth_plain (by rw [hu]; rfl) (by rw [hu]; rfl)
      rw [List.append_assoc, List.cons_append, depth_append, depth_cons, hw.depth_eq, hsemi, hd]
      exact ⟨ht, rfl⟩

theorem cutting : Cutting own e pieces where
  joined := h.joined
  wellNested := h.wellNested
  stops := by
    intro before t after hown
    constructor
    · rintro ⟨ht, hd⟩
      exact h.stop_of_semicolon hown ht hd
    · rintro ⟨front, run, back, hpieces, rfl⟩
      exact h.semicolon_of_stop hpieces hown

end Pieces

/-- The spans of a stream are its pieces. The tokens of the statement being read are a run without
its end: they leave the brackets open that the cutting holds, and no semicolon among them stands
outside. -/
theorem Span.pieces_of_cut {own current : List Token} (he : e.kind = .endOfInput)
    (hown : ∀ t ∈ own, t.kind ≠ .endOfInput) (hleaves : Leaves current.reverse opened)
    (hcurrent : NoBreak current.reverse) {spans : List Span}
    (h : cut opened current (own ++ [e]) = .ok spans) :
    ∃ pieces, Pieces e (current.reverse ++ own) pieces ∧ spans = Piece.spans pieces := by
  induction own generalizing opened current spans with
  | nil =>
    rw [List.nil_append] at h
    cases opened with
    | nil =>
      rw [cut_end_nil current he] at h
      cases h
      refine ⟨[⟨current.reverse, e⟩], ?_, ?_⟩
      · rw [List.append_nil]
        exact .last hleaves.wellNested hcurrent
      · rw [Piece.spans_cons]
        simp [Piece.spans]
    | cons o outer =>
      rw [cut_end_cons o outer current he] at h
      cases h
  | cons t own ih =>
    have hrest : ∀ u ∈ own, u.kind ≠ .endOfInput := fun u hu => hown u (List.mem_cons_of_mem _ hu)
    rw [List.cons_append] at h
    obtain ⟨-, hcut⟩ | ⟨hk, rfl, -, hcut⟩ | ⟨opened', hsome, hsemi, hcut⟩ :=
      cut_step opened (hown t (by simp))
    · rw [hcut] at h
      cases h
    · rw [hcut] at h
      obtain ⟨more, hmore, rfl⟩ := map_eq_ok.1 h
      obtain ⟨pieces, hpieces, rfl⟩ := @ih [] [] hrest (.nil .nil) noBreak_nil more hmore
      refine ⟨⟨current.reverse, t⟩ :: pieces, .cons hleaves.wellNested hcurrent hk hpieces, ?_⟩
      rw [Piece.spans_cons]
    · rw [hcut] at h
      have hnext := hcurrent.concat hleaves hsemi
      rw [← List.reverse_cons] at hnext
      have := hleaves.step hsome
      rw [← List.reverse_cons] at this
      simpa using ih hrest this hnext h

/-- A span of a text is a piece of its tokens that is not empty. -/
theorem exists_piece_of_mem {src : Bytes} {spans : List Span} {x : Span}
    (h : spansOf src = .ok spans) (hx : x ∈ spans) :
    ∃ own e pieces p, tokenize src = .ok (own ++ [e]) ∧ (∀ t ∈ own, t.kind ≠ .endOfInput) ∧
      InOrder src.length 0 own ∧
      Pieces e own pieces ∧ p ∈ pieces ∧ p.run ≠ [] ∧ x = ⟨p.run, Token.endAt p.stop.start⟩ := by
  obtain ⟨tokens, ht, hcut⟩ := bind_eq_ok.1 h
  obtain ⟨own, rfl, hkinds, horder⟩ := tokenize_inOrder ht
  obtain ⟨pieces, hpieces, rfl⟩ :=
    @Span.pieces_of_cut _ [] own [] rfl hkinds (.nil .nil) noBreak_nil spans hcut
  obtain ⟨p, hp, rfl⟩ := List.mem_map.1 hx
  obtain ⟨hmem, hne⟩ := List.mem_filter.1 hp
  exact ⟨own, _, pieces, p, ht, hkinds, horder, hpieces, hmem, by simpa using hne, rfl⟩

theorem Passage.sound_of_mem {src : Bytes} {spans : List Span} (hs : spansOf src = .ok spans)
    {x : Span} (h : x ∈ spans) : Passage.Sound ⟨src, x⟩ ∧ 0 < Passage.length ⟨src, x⟩ := by
  obtain ⟨own, e, pieces, p, -, -, horder, hpieces, hp, hne, rfl⟩ := exists_piece_of_mem hs h
  obtain ⟨xs, ys, hown⟩ := hpieces.run_infix p hp
  rw [← hown] at horder
  exact ⟨⟨horder.append_left.append_right, _, rfl⟩, List.length_pos_iff.2 hne⟩

/-- A stream that ends in its only end-of-input token is cut just when its brackets match. Its spans
are then the runs between the semicolons outside of brackets, but for the empty ones; otherwise the
fault of its brackets is reported. -/
theorem splitSpans_exact {own : List Token} {e : Token} (he : e.kind = .endOfInput)
    (hown : ∀ t ∈ own, t.kind ≠ .endOfInput) :
    ((∃ spans, splitSpans (own ++ [e]) = .ok spans) ↔ WellNested own) ∧
    (∀ spans, splitSpans (own ++ [e]) = .ok spans →
      ∃ pieces, Cutting own e pieces ∧ spans = Piece.spans pieces) ∧
    ∀ err, splitSpans (own ++ [e]) = .error err → NestingFault own err := by
  refine ⟨?_, fun spans h => ?_, fun err h => ?_⟩
  · rw [wellNested_iff]
    exact Span.cut_isOk_iff he hown
  · obtain ⟨pieces, hpieces, rfl⟩ :=
      @Span.pieces_of_cut e [] own [] he hown (.nil .nil) noBreak_nil spans h
    exact ⟨pieces, hpieces.cutting, rfl⟩
  · exact Span.nestingFault_of_cut he hown (.nil .nil) (by simp) h

/-- A semicolon in brackets ends no statement. -/
theorem splitSpans_exact_brackets :
    ∃ spans, splitSpans ([⟨.lparen, [], ⟨0, 1, 1⟩, 1⟩, ⟨.semicolon, [], ⟨1, 1, 2⟩, 2⟩,
      ⟨.rparen, [], ⟨2, 1, 3⟩, 3⟩, ⟨.semicolon, [], ⟨3, 1, 4⟩, 4⟩] ++ [Token.endAt ⟨4, 1, 5⟩]) =
        .ok spans := by
  refine (splitSpans_exact rfl (by decide)).1.2 ?_
  exact .group rfl (.plain rfl rfl .nil) (.plain rfl rfl .nil)

/-! ## Streams of one statement -/

/-- Tokens that stay together: their brackets match, and no semicolon stands outside of them. -/
structure IsRun (ts : List Token) : Prop where
  wellNested : WellNested ts
  noBreak : NoBreak ts

theorem depth_congr (h : ts.map (·.kind) = us.map (·.kind)) : depth ts = depth us := by
  have hcount : ∀ p : TokenKind → Bool, ∀ l : List Token,
      l.countP (fun t => p t.kind) = (l.map (·.kind)).countP p := fun p l => by
    rw [List.countP_map]
    rfl
  rw [depth, depth, hcount, hcount, hcount, hcount, h]

/-- Only the classes of the tokens count. -/
theorem WellNested.congr (h : WellNested ts) (hk : ts.map (·.kind) = us.map (·.kind)) :
    WellNested us := by
  induction h generalizing us with
  | nil =>
    obtain rfl := List.map_eq_nil_iff.1 hk.symm
    exact .nil
  | plain ho hc _ ih =>
    obtain ⟨u, us, rfl, hu, hus⟩ := List.map_eq_cons_iff.1 hk.symm
    exact .plain (hu ▸ ho) (hu ▸ hc) (ih hus.symm)
  | group hm _ _ ihi ih =>
    rw [List.cons_append, List.map_cons, List.map_append, List.map_cons] at hk
    obtain ⟨o, us, rfl, ho, hus⟩ := List.map_eq_cons_iff.1 hk.symm
    obtain ⟨inner, rest, rfl, hinner, hrest⟩ := List.map_eq_append_iff.1 hus
    obtain ⟨c, rest, rfl, hc, hrest⟩ := List.map_eq_cons_iff.1 hrest
    exact .group (by rw [ho, hc, hm]) (ihi hinner.symm) (ih hrest.symm)

namespace IsRun

theorem congr (h : IsRun ts) (hk : ts.map (·.kind) = us.map (·.kind)) : IsRun us := by
  refine ⟨h.wellNested.congr hk, ?_⟩
  rintro pre u post rfl hu
  rw [List.map_append, List.map_cons] at hk
  obtain ⟨pre', rest, rfl, hpre, hrest⟩ := List.map_eq_append_iff.1 hk
  obtain ⟨t, post', rfl, ht, -⟩ := List.map_eq_cons_iff.1 hrest
  rw [← depth_congr hpre]
  exact h.noBreak pre' t post' rfl (ht.trans hu)

theorem append (h : IsRun ts) (h' : IsRun us) : IsRun (ts ++ us) := by
  refine ⟨h.wellNested.append h'.wellNested, fun pre t post hsplit ht => ?_⟩
  obtain ⟨mid, rfl, hmid⟩ | ⟨mid, rfl, hmid⟩ := List.append_eq_append_iff.1 hsplit
  · rw [depth_append, h.wellNested.depth_eq, Int.zero_add]
    exact h'.noBreak mid t post hmid ht
  · cases mid with
    | nil =>
      have := h'.noBreak [] t post hmid.symm ht
      exact absurd rfl this
    | cons u mid =>
      obtain ⟨rfl, -⟩ := List.cons.inj hmid
      exact h.noBreak pre t mid rfl ht

/-- A token that is no bracket and no semicolon. -/
theorem singleton (h : t.kind ∉ [.lparen, .lbracket, .lbrace, .rparen, .rbracket, .rbrace,
      .semicolon]) :
    IsRun [t] := by
  simp only [List.mem_cons, List.not_mem_nil, or_false, not_or] at h
  refine ⟨.plain ?_ ?_ .nil, ?_⟩
  · cases hk : t.kind <;> first | rfl | simp_all
  · cases hk : t.kind <;> first | rfl | simp_all
  · intro pre u post hsplit hu
    cases pre with
    | nil =>
      obtain ⟨rfl, -⟩ := List.cons.inj hsplit
      exact absurd hu h.2.2.2.2.2.2
    | cons v pre =>
      have := congrArg List.length hsplit
      simp at this

/-- Tokens that stay together are one statement. -/
theorem splitSpans_eq (h : IsRun ts) (he : e.kind = .endOfInput)
    (hts : ∀ t ∈ ts, t.kind ≠ .endOfInput)
    (hne : ts ≠ []) : splitSpans (ts ++ [e]) = .ok [⟨ts, Token.endAt e.start⟩] := by
  obtain ⟨spans, hspans⟩ :=
    (@Span.cut_isOk_iff ts [] [] e he hts).2 (wellNested_iff.1 h.wellNested)
  obtain ⟨pieces, hpieces, rfl⟩ :=
    @Span.pieces_of_cut e [] ts [] he hts (.nil .nil) noBreak_nil spans hspans
  rw [List.reverse_nil, List.nil_append] at hpieces
  rw [splitSpans, hspans]
  cases hpieces with
  | last => simp [Piece.spans, hne]
  | cons hrun _ ht _ => exact absurd hrun.depth_eq (h.noBreak _ _ _ rfl ht)

end IsRun

/-- A stream that is one statement, all of it, stays together. -/
theorem isRun_of_splitSpans {x : Token} (he : e.kind = .endOfInput)
    (hts : ∀ t ∈ ts, t.kind ≠ .endOfInput)
    (h : splitSpans (ts ++ [e]) = .ok [⟨ts, x⟩]) : IsRun ts := by
  obtain ⟨pieces, hpieces, hspans⟩ :=
    @Span.pieces_of_cut e [] ts [] he hts (.nil .nil) noBreak_nil _ h
  rw [List.reverse_nil, List.nil_append] at hpieces
  cases hpieces with
  | last h hrun => exact ⟨h, hrun⟩
  | @cons run rest t pieces _ _ _ hrest =>
    exfalso
    have hmem : (⟨run ++ t :: rest, x⟩ : Span) ∈ Piece.spans (⟨run, t⟩ :: pieces) := by
      rw [← hspans]
      exact List.mem_singleton.2 rfl
    rw [← List.reverse_reverse run, Piece.spans_cons, List.mem_append] at hmem
    obtain hmem | hmem := hmem
    · unfold Span.close at hmem
      split at hmem
      · cases hmem
      · have := congrArg (·.tokens.length) (List.mem_singleton.1 hmem)
        simp at this
    · obtain ⟨p, hp, hrun⟩ := List.mem_map.1 hmem
      have := (hrest.run_infix p (List.mem_filter.1 hp).1).length_le
      rw [(Span.mk.inj hrun).1, List.length_append, List.length_cons] at this
      omega

end AccessLayer.Surql
