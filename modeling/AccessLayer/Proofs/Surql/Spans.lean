import AccessLayer.Proofs.Surql.Passage
import AccessLayer.Surql.Parse.Statement

/-!
# Spans of a stream

What the spans of a token stream have in common, and how cutting goes along with putting streams
together.

* `openStep`: the open brackets after one more token.
* `Span.cut_moved`: moved tokens are cut into moved spans.
-/

namespace AccessLayer.Surql

open Statement (ofSpan read)

variable {spans : List Span}

theorem concat_eq_append_cons {α : Type} {xs ys zs : List α} {x y : α}
    (h : xs ++ [x] = ys ++ y :: zs) : xs = ys ∧ x = y ∨ ∃ ws, xs = ys ++ y :: ws := by
  obtain rfl | ⟨ws, w, rfl⟩ := List.eq_nil_or_concat' zs
  · obtain ⟨hxs, hx⟩ := List.append_inj' h rfl
    exact .inl ⟨hxs, List.singleton_inj.1 hx⟩
  · rw [← List.cons_append, ← List.append_assoc] at h
    exact .inr ⟨ws, (List.append_inj' h rfl).1⟩

/-! ## Brackets -/

theorem TokenKind.brackets {k k' : TokenKind} (h : k.closer? = some k') :
    k.isOpener ∧ k.isCloser = false ∧ k'.isOpener = false ∧ k'.isCloser := by
  cases k <;> cases h <;> decide

theorem TokenKind.isCloser_of_isOpener {k : TokenKind} (h : k.isOpener) : k.isCloser = false := by
  cases k <;> first | rfl | cases h

/-- The brackets that are open, innermost first, after one more token; none when it does not fit. -/
def openStep (opened : List Token) (t : Token) : Option (List Token) :=
  if t.kind.isOpener then some (t :: opened)
  else if t.kind.isCloser then
    match opened with
    | [] => none
    | o :: outer => if o.kind.closer? = some t.kind then some outer else none
  else some opened

theorem openStep_opener (opened : List Token) {t : Token} (ht : t.kind.isOpener) :
    openStep opened t = some (t :: opened) := by
  simp [openStep, ht]

theorem openStep_plain (opened : List Token) {t : Token} (ho : t.kind.isOpener = false)
    (hc : t.kind.isCloser = false) : openStep opened t = some opened := by
  simp [openStep, ho, hc]

theorem openStep_closer {o c : Token} (opened : List Token) (hm : o.kind.closer? = some c.kind) :
    openStep (o :: opened) c = some opened := by
  obtain ⟨-, -, ho, hc⟩ := TokenKind.brackets hm
  simp [openStep, ho, hc, hm]

/-! ## Cutting -/

namespace Span

variable {e t : Token}

/-- One token does not fit, ends the statement outside of brackets, or is added to it. -/
theorem cut_step (opened : List Token) (ht : t.kind ≠ .endOfInput) :
    (openStep opened t = none ∧
      ∀ current ts, cut opened current (t :: ts) = .error ⟨.unexpectedCloser t.kind, t.start⟩) ∨
    (t.kind = .semicolon ∧ opened = [] ∧ openStep [] t = some [] ∧
      ∀ current ts, cut opened current (t :: ts) =
      (cut [] [] ts).map (close current t ++ ·)) ∨
    ∃ opened', openStep opened t = some opened' ∧ (t.kind = .semicolon → opened ≠ []) ∧
      ∀ current ts, cut opened current (t :: ts) = cut opened' (t :: current) ts := by
  have hne : (t.kind == .endOfInput) = false := beq_eq_false_iff_ne.2 ht
  by_cases ho : t.kind.isOpener = true
  · refine .inr (.inr ⟨t :: opened, openStep_opener opened ho, ?_, fun current ts => ?_⟩)
    · intro hk
      rw [hk] at ho
      cases ho
    · simp [cut, hne, ho]
  by_cases hc : t.kind.isCloser = true
  · have hsemi : t.kind ≠ .semicolon := by
      intro hk
      rw [hk] at hc
      cases hc
    cases opened with
    | nil => exact .inl ⟨by simp [openStep, ho, hc], fun current ts => by simp [cut, hne, ho, hc]⟩
    | cons o outer =>
      by_cases hm : o.kind.closer? = some t.kind
      · refine .inr (.inr ⟨outer, openStep_closer outer hm, fun _ => by simp, fun current ts => ?_⟩)
        simp only [cut, hne, ho, hc, hm, beq_self_eq_true, if_true, Bool.false_eq_true, if_false]
      · refine .inl ⟨by simp [openStep, ho, hc, hm], fun current ts => ?_⟩
        simp only [cut, hne, ho, hc, beq_iff_eq, hm, if_true, Bool.false_eq_true, if_false]
  have hplain := openStep_plain opened (by simpa using ho) (by simpa using hc)
  by_cases hs : (t.kind == .semicolon && opened.isEmpty) = true
  · obtain ⟨hk, rfl⟩ : t.kind = .semicolon ∧ opened = [] := by simpa using hs
    refine .inr (.inl ⟨hk, rfl, hplain, fun current ts => ?_⟩)
    cases hcut : cut [] [] ts with
    | ok spans =>
      simp only [cut, hne, ho, hc, hs, hcut, if_true, Bool.false_eq_true, if_false, Except.map]
    | error e =>
      simp only [cut, hne, ho, hc, hs, hcut, if_true, Bool.false_eq_true, if_false, Except.map]
  · refine .inr (.inr ⟨opened, hplain, fun hk hnil => hs (by simp [hk, hnil]),
      fun current ts => ?_⟩)
    simp only [cut, hne, ho, hc, hs, Bool.false_eq_true, if_false]

theorem cut_end_nil (current : List Token) (he : e.kind = .endOfInput) :
    cut [] current [e] = .ok (close current e) := by
  simp [cut, he]

theorem cut_end_cons (o : Token) (outer current : List Token) (he : e.kind = .endOfInput) :
    cut (o :: outer) current [e] = .error ⟨.unclosed o.kind, o.start⟩ := by
  simp [cut, he]

theorem isAbort_cut {opened current ts : List Token} {e : ParseError}
    (h : cut opened current ts = .error e) : e.fault.isAbort = false := by
  induction ts generalizing opened current with
  | nil => cases h
  | cons t ts ih =>
    by_cases ht : t.kind = .endOfInput
    · simp only [cut, ht, beq_self_eq_true, if_true] at h
      split at h <;> cases h
      rfl
    · obtain ⟨-, hc⟩ | ⟨-, rfl, -, hc⟩ | ⟨opened', -, -, hc⟩ := cut_step opened ht
      · rw [hc] at h
        cases h
        rfl
      · rw [hc, map_eq_error] at h
        exact ih h
      · rw [hc] at h
        exact ih h

/-- Spans with the same tokens, whatever token ends them. -/
def SameTokens (x y : Span) : Prop := y.tokens = x.tokens ∧ ∃ p, y.stop = Token.endAt p

theorem close_sameTokens (current : List Token) (t u : Token) :
    List.Forall₂ SameTokens (close current t) (close current u) := by
  unfold close
  split
  · exact .nil
  · exact .cons ⟨rfl, _, rfl⟩ .nil

/-- A stream that can be cut may be followed by a semicolon and another stream: the spans of the one
come before those of the other. -/
theorem cut_append {opened current own : List Token} (he : e.kind = .endOfInput)
    (ht : t.kind = .semicolon)
    (hkinds : ∀ t ∈ own, t.kind ≠ .endOfInput) (h : cut opened current (own ++ [e]) = .ok spans)
    (ts : List Token) : ∃ spans', List.Forall₂ SameTokens spans spans' ∧
      cut opened current (own ++ t :: ts) =
        match cut [] [] ts with
        | .ok more => .ok (spans' ++ more)
        | .error e => .error e := by
  induction own generalizing opened current spans with
  | nil =>
    simp only [List.nil_append, cut, he, beq_self_eq_true, if_true] at h
    split at h <;> cases h
    refine ⟨close current t, close_sameTokens current e t, ?_⟩
    simp only [List.nil_append, cut, ht, TokenKind.isOpener, TokenKind.isCloser, List.isEmpty_nil]
    rfl
  | cons u own ih =>
    have hkinds' : ∀ t ∈ own, t.kind ≠ .endOfInput := fun v hv => hkinds v (by simp [hv])
    rw [List.cons_append] at h ⊢
    obtain ⟨-, hc⟩ | ⟨-, rfl, -, hc⟩ | ⟨opened', -, -, hc⟩ := cut_step opened (hkinds u (by simp))
    · rw [hc] at h
      cases h
    · rw [hc] at h ⊢
      obtain ⟨rest, hrest, rfl⟩ := map_eq_ok.1 h
      obtain ⟨spans', hsame, happ⟩ := ih hkinds' hrest
      refine ⟨close current u ++ spans', List.rel_append (close_sameTokens current u u) hsame, ?_⟩
      rw [happ]
      cases cut [] [] ts with
      | error e => rfl
      | ok more => simp only [Except.map, List.append_assoc]
    · rw [hc] at h ⊢
      exact ih hkinds' h

/-- The span after `bytes` bytes and `lines` whole lines were put in front of the text. -/
def moved (bytes lines : Nat) (span : Span) : Span :=
  ⟨span.tokens.map (Token.moved bytes lines), span.stop.moved bytes lines⟩

theorem close_moved (bytes lines : Nat) (current : List Token) (t : Token) :
    close (current.map (Token.moved bytes lines)) (t.moved bytes lines) =
      (close current t).map (moved bytes lines) := by
  unfold close
  rw [List.isEmpty_map]
  split
  · rfl
  · rw [List.map_singleton, moved, List.map_reverse]
    rfl

theorem cut_moved (bytes lines : Nat) (opened current ts : List Token) :
    cut (opened.map (Token.moved bytes lines)) (current.map (Token.moved bytes lines))
        (ts.map (Token.moved bytes lines)) =
      match cut opened current ts with
      | .ok spans => .ok (spans.map (moved bytes lines))
      | .error e => .error ⟨e.fault, e.place.moved bytes lines⟩ := by
  have hkind : ∀ t : Token, (t.moved bytes lines).kind = t.kind := fun _ => rfl
  induction ts generalizing opened current with
  | nil => rfl
  | cons t ts ih =>
    simp only [List.map_cons, cut, hkind, List.isEmpty_map]
    split_ifs with he ho hc hs
    · cases opened with
      | nil => simp only [List.map_nil, close_moved]
      | cons o outer => rfl
    · exact ih (t :: opened) (t :: current)
    · cases opened with
      | nil => rfl
      | cons o outer =>
        simp only [List.map_cons, hkind]
        split_ifs
        · exact ih outer (t :: current)
        · rfl
    · have hrest := ih [] []
      rw [List.map_nil] at hrest
      rw [hrest]
      cases cut [] [] ts with
      | error e => rfl
      | ok spans => simp only [List.map_append, close_moved]
    · exact ih opened (t :: current)

end Span

/-! ## Spans of a text -/

def spansOf (src : Bytes) : Except ParseError (List Span) := tokenize src >>= splitSpans

/-- A text is read span by span. -/
theorem parse_eq (src : Bytes) :
    parse src = spansOf src >>= fun spans => spans.mapM (ofSpan src) := by
  rw [parse, spansOf, bind_assoc]

theorem parse_of_spansOf {src : Bytes} {span : Span} (h : spansOf src = .ok [span])
    {st : Statement} : parse src = .ok [st] ↔ ∃ c, read (Cursor.ofSpan src span) = .ok (st, c) := by
  have hspan : ofSpan src span = .ok st ↔
      ∃ c, read (Cursor.ofSpan src span) = .ok (st, c) := by
    show (Prod.fst <$> read (Cursor.ofSpan src span)) = _ ↔
      ∃ c, read (Cursor.ofSpan src span) = _
    cases read (Cursor.ofSpan src span) with
    | error e => exact ⟨nofun, nofun⟩
    | ok r =>
      obtain ⟨st', c⟩ := r
      exact ⟨fun h => ⟨c, by cases h; rfl⟩, fun ⟨_, h⟩ => by cases h; rfl⟩
  rw [parse_eq, h, ← hspan]
  show [span].mapM (ofSpan src) = _ ↔ _
  rw [mapM_eq_ok, List.forall₂_cons_left_iff]
  constructor
  · rintro ⟨st', rest, hst, -, h⟩
    cases h
    exact hst
  · intro hst
    exact ⟨st, [], hst, .nil, rfl⟩

end AccessLayer.Surql
