import AccessLayer.Proofs.Surql.Likeness.Statements

/-!
# Definition files one after the other

A definition file may be followed by a semicolon on a line of its own and another file. The
statements of the first file are not touched by what follows them, and those of the second file are
read as if the file stood alone, only further down.

* `tokenize_append`: the tokens of both files.
* `Carried.likeness`: a statement is alike itself at another place.
* `parse_append`: the statements of both files, or the fault of the second one.
-/

namespace AccessLayer.Surql

open Bytes Utf8
open Statement (ofSpan)

variable {spans spans' : List Span} {lines : Nat}

/-! ## Tokens of both files -/

/-- What stands between two files. -/
def fileBreak : Bytes := "\n;\n"

/-- The place where a file starts that comes after the file `a` and the break. -/
theorem after_fileBreak (a : Bytes) :
    (((Position.start.after (runes a)).next (single 0x0A)).next (single 0x3B)).next
        (single 0x0A) =
      Position.start.moved (a.length + 3) (a.count 0x0A + 2) := by
  have hline := Position.after_line .start (runes a)
  have hoffset := Position.after_offset .start (runes a)
  rw [countP_newline] at hline
  rw [ofRunes_runes] at hoffset
  generalize Position.start.after (runes a) = p at hline hoffset ⊢
  have hbreak : (single 0x0A).char = '\n' := by decide
  have hsemi : (single 0x3B).char ≠ '\n' := by decide
  simp only [Position.next, Position.moved, hbreak, beq_self_eq_true, if_true,
    beq_eq_false_iff_ne.2 hsemi, Bool.false_eq_true, if_false, Position.mk.injEq, hline, hoffset]
  exact ⟨rfl, by omega, rfl⟩

theorem runes_fileBreak (a b : Bytes) :
    runes (a ++ fileBreak ++ b) =
      runes a ++ single 0x0A :: single 0x3B :: single 0x0A :: runes b := by
  show runes (a ++ [0x0A, 0x3B, 0x0A] ++ b) = _
  rw [List.append_assoc, List.cons_append, runes_append _ _ (by decide),
    runes_cons_of_ascii (by decide), List.cons_append, runes_cons_of_ascii (by decide),
    List.singleton_append, runes_cons_of_ascii (by decide)]

theorem tokensFrom_fileBreak (p : Position) (rs : List Rune) :
    ∃ t : Token, t.kind = .semicolon ∧
      tokensFrom p (single 0x0A :: single 0x3B :: single 0x0A :: rs) =
        match tokensFrom (((p.next (single 0x0A)).next (single 0x3B)).next
          (single 0x0A)) rs with
        | .ok tokens => .ok (t :: tokens)
        | .error e => .error e := by
  have hblank : isSpace (single 0x0A).char = true := by decide
  have hl : lexeme [single 0x3B] = .ok ⟨.semicolon, [0x3B], [single 0x3B], []⟩ := rfl
  have hg : Lexeme.gap [single 0x3B] = .ok none := rfl
  let q := p.next (single 0x0A)
  refine ⟨⟨.semicolon, [0x3B], q, (q.next (single 0x3B)).offset⟩, rfl, ?_⟩
  have hstep := tokensFrom_lexeme (p := q) (gap_append_none rs hblank hg)
    (lexeme_append hblank rs hl)
  rw [tokensFrom_blank hblank]
  refine hstep.trans ?_
  simp only [Lexeme.before, List.nil_append, tokensFrom_blank hblank, Position.after,
    List.foldl_cons, List.foldl_nil]
  cases tokensFrom ((q.next (single 0x3B)).next (single 0x0A)) rs <;> rfl

/-- The tokens of a file, the semicolon of the break and the tokens of another file further down. -/
theorem tokenize_append {a : Bytes} {tokens : List Token} (ha : tokenize a = .ok tokens)
    (b : Bytes) : ∃ own t, tokens = own ++ [Token.endAt (Position.start.after (runes a))] ∧
      (∀ t ∈ own, t.kind ≠ .endOfInput) ∧ t.kind = .semicolon ∧
      tokenize (a ++ fileBreak ++ b) =
        match tokenize b with
        | .ok more => .ok (own ++ t :: more.map (Token.moved (a.length + 3) (a.count 0x0A + 2)))
        | .error e => .error ⟨e.fault, e.place.moved (a.length + 3) (a.count 0x0A + 2)⟩ := by
  have hbreak : (single 0x0A).char = '\n' := by decide
  obtain ⟨own, hown, hkinds, -⟩ := tokenize_inOrder ha
  obtain ⟨own', hown', happ⟩ := tokensFrom_append
    (single 0x3B :: single 0x0A :: runes b) hbreak ha
  obtain rfl : own = own' := List.append_cancel_right (hown.symm.trans hown')
  obtain ⟨t, ht, hsemi⟩ := tokensFrom_fileBreak (Position.start.after (runes a)) (runes b)
  refine ⟨own, t, hown, hkinds, ht, ?_⟩
  rw [tokenize, runes_fileBreak, happ, hsemi, after_fileBreak, tokensFrom_moved, tokenize]
  cases tokensFrom .start (runes b) <;> rfl

/-- The spans of a file and those of another file further down. -/
theorem spansOf_append {a : Bytes} (ha : spansOf a = .ok spans) (b : Bytes) :
    ∃ spans', List.Forall₂ Span.SameTokens spans spans' ∧
      spansOf (a ++ fileBreak ++ b) =
        match spansOf b with
        | .ok more => .ok (spans' ++ more.map (Span.moved (a.length + 3) (a.count 0x0A + 2)))
        | .error e => .error ⟨e.fault, e.place.moved (a.length + 3) (a.count 0x0A + 2)⟩ := by
  obtain ⟨tokens, ht, hs⟩ := bind_eq_ok.1 ha
  obtain ⟨own, t, rfl, hkinds, hsemi, htok⟩ := tokenize_append ht b
  unfold spansOf
  rw [htok]
  cases tokenize b with
  | error e =>
    obtain ⟨spans', hsame, -⟩ := Span.cut_append rfl hsemi hkinds hs []
    exact ⟨spans', hsame, rfl⟩
  | ok more =>
    obtain ⟨spans', hsame, hcut⟩ := Span.cut_append rfl hsemi hkinds hs
      (more.map (Token.moved (a.length + 3) (a.count 0x0A + 2)))
    have hmoved := Span.cut_moved (a.length + 3) (a.count 0x0A + 2) [] [] more
    rw [List.map_nil] at hmoved
    refine ⟨spans', hsame, hcut.trans ?_⟩
    rw [hmoved]
    show _ = match Span.cut [] [] more with
      | .ok more => _
      | .error e => _
    cases Span.cut [] [] more <;> rfl

/-! ## A statement at another place -/

/-- Results at an offset that is `n` bytes later, and unchanged otherwise. -/
def View.shift (n : Nat) : View := ⟨(· + n), id⟩

/-- A statement that stands in two texts: in the second one, `before` and some text after it were
added. Only the tokens that end the two spans may differ otherwise. -/
structure Carried (before : Bytes) (lines : Nat) (s s' : Passage) : Prop where
  sound : s.Sound
  sound' : s'.Sound
  tokens : s'.span.tokens = s.span.tokens.map (Token.moved before.length lines)
  src : ∃ after, s'.src = before ++ s.src ++ after

namespace Carried

variable {before : Bytes} {lines : Nat} {s s' : Passage}

theorem token_of_lt (h : Carried before lines s s') {i : Nat} (hi : i < s.length) :
    s'.token i = (s.token i).moved before.length lines := by
  have hi' : i < s.span.tokens.length := hi
  rw [Passage.token, Passage.token, h.tokens, List.getElem?_map, List.getElem?_eq_getElem hi']
  rfl

theorem shifted (h : Carried before lines s s') : Passage.Shifted before.length s s' where
  sound := h.sound
  sound' := h.sound'
  length_eq := by rw [Passage.length, Passage.length, h.tokens, List.length_map]
  token hi := by
    rw [h.token_of_lt hi]
    exact ⟨rfl, rfl, rfl, rfl⟩
  src := by
    obtain ⟨after, hsrc⟩ := h.src
    exact ⟨before, after, hsrc, rfl⟩

/-- A statement is alike itself at another place, but for its offsets. -/
def likeness (h : Carried before lines s s') : Likeness s s' :=
  h.shifted.likeness (.shift before.length) ⟨id, id⟩ (fun _ => rfl) fun _ => rfl

/-- A fault is reported with the same message, at the place where its token stands now. -/
theorem fails (h : Carried before lines s s')
    (hstop : s'.span.stop = s.span.stop.moved before.length lines) {e e' : ParseError}
    (he : h.likeness.Fails e e') :
    e'.fault.message = e.fault.message ∧ e'.place = e.place.moved before.length lines := by
  obtain ⟨fault, i, -, -, rfl, rfl⟩ := he
  have htoken : s'.token i = (s.token i).moved before.length lines := by
    by_cases hi : i < s.length
    · exact h.token_of_lt hi
    · rw [s.token_of_le (by omega), s'.token_of_le (by rw [h.shifted.length_eq]; omega), hstop]
  rw [htoken]
  exact ⟨fault.message_about rfl, rfl⟩

end Carried

/-! ## Reading at another place -/

mutual

theorem Value.view_id (v : Value) : v.view ⟨id, id⟩ = v := by
  cases v with
  | literal pos kind raw elems => rw [view, viewAll_id elems]; rfl
  | param pos name => rfl
  | call pos kind name args => rw [view, viewAll_id args]; rfl
  | binary pos left op right => rw [view, view_id left, view_id right]; rfl
  | other pos kind raw => rfl

theorem Value.viewAll_id (vs : List Value) : Value.viewAll ⟨id, id⟩ vs = vs := by
  cases vs with
  | nil => rfl
  | cons v vs => rw [viewAll, view_id v, viewAll_id vs]

end

theorem Statement.view_id (st : Statement) : st.view ⟨id, id⟩ = st := by
  have hfun : Value.view ⟨id, id⟩ = id := funext Value.view_id
  cases st with
  | table d => rfl
  | field d => simp [view, FieldDef.view, hfun]
  | event d => simp [view, EventDef.view, hfun]
  | define pos kind source => rfl
  | raw pos keyword source => rfl

namespace Carried

variable {before : Bytes} {lines : Nat} {s s' : Passage}

/-- A statement is read at another place as the same statement, only later in the text. -/
theorem ofSpan_ok (h : Carried before lines s s') (hpos : 0 < s.length) {st : Statement}
    (hst : ofSpan s.src s.span = .ok st) :
    ofSpan s'.src s'.span = .ok (st.view (.shift before.length)) := by
  obtain ⟨st₁, st', h1, h2, hview⟩ | ⟨e, e', h1, -, -⟩ := h.likeness.ofSpan_related hpos
  · rw [hst] at h1
    cases h1
    change st.view (.shift before.length) = st'.view ⟨id, id⟩ at hview
    rw [h2, hview, Statement.view_id]
  · rw [hst] at h1
    cases h1

theorem ofSpan_error (h : Carried before lines s s') (hpos : 0 < s.length)
    (hstop : s'.span.stop = s.span.stop.moved before.length lines) {e : ParseError}
    (he : ofSpan s.src s.span = .error e) :
    ∃ e', ofSpan s'.src s'.span = .error e' ∧ e'.fault.message = e.fault.message ∧
      e'.place = e.place.moved before.length lines := by
  obtain ⟨st, st', h1, -, -⟩ | ⟨e₁, e', h1, h2, hf⟩ := h.likeness.ofSpan_related hpos
  · rw [he] at h1
    cases h1
  · rw [he] at h1
    cases h1
    exact ⟨e', h2, h.fails hstop hf⟩

end Carried

/-! ## Statements of both files -/

/-- Spans of one text that stand in another text as well. -/
def AllCarried (before : Bytes) (lines : Nat) (src src' : Bytes) (spans spans' : List Span) :
    Prop :=
  List.Forall₂ (fun x x' => Carried before lines ⟨src, x⟩ ⟨src', x'⟩ ∧ 0 < Passage.length ⟨src, x⟩)
    spans spans'

theorem AllCarried.mapM_ok {before : Bytes} {src src' : Bytes}
    (h : AllCarried before lines src src' spans spans')
    {sts : List Statement} (hok : spans.mapM (ofSpan src) = .ok sts) :
    spans'.mapM (ofSpan src') = .ok (sts.map (Statement.view (.shift before.length))) := by
  rw [mapM_eq_ok] at hok ⊢
  induction h generalizing sts with
  | nil =>
    cases hok
    exact .nil
  | cons hx hrest ih =>
    cases hok with
    | cons hst hsts => exact .cons (hx.1.ofSpan_ok hx.2 hst) (ih hsts)

theorem AllCarried.mapM_error {before : Bytes} {src src' : Bytes}
    (h : AllCarried before lines src src' spans spans')
    (hstop : List.Forall₂ (fun x x' : Span => x'.stop = x.stop.moved before.length lines) spans
      spans')
    {e : ParseError} (he : spans.mapM (ofSpan src) = .error e) :
    ∃ e', spans'.mapM (ofSpan src') = .error e' ∧ e'.fault.message = e.fault.message ∧
      e'.place = e.place.moved before.length lines := by
  induction h with
  | nil => cases he
  | cons hx hrest ih =>
    cases hstop with
    | cons hs hstop =>
      rw [List.mapM_cons] at he ⊢
      obtain he | ⟨st, hst, he⟩ := bind_eq_error.1 he
      · obtain ⟨e', he', hfault⟩ := hx.1.ofSpan_error hx.2 hs he
        exact ⟨e', bind_eq_error.2 (.inl he'), hfault⟩
      · obtain he | ⟨sts, -, he⟩ := bind_eq_error.1 he
        · obtain ⟨e', he', hfault⟩ := ih hstop he
          refine ⟨e', bind_eq_error.2 (.inr ⟨_, hx.1.ofSpan_ok hx.2 hst, ?_⟩), hfault⟩
          exact bind_eq_error.2 (.inl he')
        · cases he

/-- The spans of the first file are not touched by what follows. -/
theorem allCarried_first {a rest : Bytes} (hsame : List.Forall₂ Span.SameTokens spans spans')
    (hspans : ∀ x ∈ spans, Passage.Sound ⟨a, x⟩ ∧ 0 < Passage.length ⟨a, x⟩)
    (hspans' : ∀ x ∈ spans', Passage.Sound ⟨a ++ rest, x⟩) :
    AllCarried [] 0 a (a ++ rest) spans spans' := by
  refine List.forall₂_iff_zip.2 ⟨hsame.length_eq, fun {x x'} hmem => ?_⟩
  obtain ⟨hx, hx'⟩ := List.of_mem_zip hmem
  obtain ⟨htokens, -⟩ := List.forall₂_zip hsame hmem
  refine ⟨⟨(hspans x hx).1, hspans' x' hx', ?_, rest, rfl⟩, (hspans x hx).2⟩
  rw [htokens]
  exact (List.map_id' _).symm

/-- The spans of the second file stand further down. -/
theorem allCarried_second (before : Bytes) {b : Bytes}
    (hspans : ∀ x ∈ spans, Passage.Sound ⟨b, x⟩ ∧ 0 < Passage.length ⟨b, x⟩)
    (hspans' : ∀ x ∈ spans.map (Span.moved before.length lines), Passage.Sound ⟨before ++ b, x⟩) :
    AllCarried before lines b (before ++ b) spans (spans.map (Span.moved before.length lines)) := by
  refine List.forall₂_map_right_iff.2 (List.forall₂_same.2 fun x hx => ?_)
  exact ⟨⟨(hspans x hx).1, hspans' _ (List.mem_map_of_mem hx), rfl, [], by simp⟩, (hspans x hx).2⟩

/-- A file may be followed by a semicolon and another file. -/
theorem parse_append {a : Bytes} {as : List Statement} (ha : parse a = .ok as) (b : Bytes) :
    match parse b with
    | .ok bs => parse (a ++ "\n;\n" ++ b) =
        .ok (as ++ bs.map (Statement.view (.shift (a.length + 3))))
    | .error e => ∃ e', parse (a ++ "\n;\n" ++ b) = .error e' ∧
        e'.fault.message = e.fault.message ∧
        e'.place = ⟨e.place.offset + (a.length + 3), e.place.line + (a.count 0x0A + 2),
          e.place.col⟩ := by
  have hlen : (a ++ fileBreak).length = a.length + 3 := List.length_append
  rw [parse_eq] at ha
  obtain ⟨spansA, hsa, ha⟩ := bind_eq_ok.1 ha
  obtain ⟨spansA', hsame, hspans⟩ := spansOf_append hsa b
  show match parse b with
    | .ok bs => parse (a ++ fileBreak ++ b) = _
    | .error e => ∃ e', parse (a ++ fileBreak ++ b) = _ ∧ _ ∧ _
  rw [parse_eq b, parse_eq (a ++ fileBreak ++ b), hspans, ← hlen]
  cases hsb : spansOf b with
  | error e => exact ⟨_, rfl, rfl, rfl⟩
  | ok spansB =>
    rw [hsb, ← hlen] at hspans
    have hsound := fun x hx => (Passage.sound_of_mem hspans (x := x) hx).1
    have hsecond := allCarried_second (a ++ fileBreak)
      (fun x hx => Passage.sound_of_mem hsb hx) fun x hx => hsound x (List.mem_append_right _ hx)
    have hfirst : AllCarried [] 0 a (a ++ fileBreak ++ b) spansA spansA' := by
      rw [List.append_assoc] at hsound ⊢
      exact allCarried_first hsame (fun x hx => Passage.sound_of_mem hsa hx)
        fun x hx => hsound x (List.mem_append_left _ hx)
    have hokA := hfirst.mapM_ok ha
    change match spansB.mapM (ofSpan b) with
      | .ok bs => (spansA' ++ _).mapM _ = _
      | .error e => ∃ e', (spansA' ++ _).mapM _ = _ ∧ _ ∧ _
    rw [List.mapM_append, hokA]
    cases hb : spansB.mapM (ofSpan b) with
    | error e =>
      obtain ⟨e', he', hfault⟩ := hsecond.mapM_error
        (List.forall₂_map_right_iff.2 (List.forall₂_same.2 fun _ _ => rfl)) hb
      exact ⟨e', bind_eq_error.2 (.inr ⟨_, rfl, bind_eq_error.2 (.inl he')⟩), hfault⟩
    | ok bs =>
      refine bind_eq_ok.2 ⟨_, rfl, bind_eq_ok.2 ⟨_, hsecond.mapM_ok hb, ?_⟩⟩
      rw [show Statement.view (.shift ([] : Bytes).length) = id from funext Statement.view_id,
        List.map_id]
      rfl

/-- A file that ends in a comment, before one that is read and before one with an open bracket. -/
theorem parse_append_comment :
    ∃ as bs, parse "DEFINE TABLE a -- b" = .ok as ∧ parse "SELECT 1; c" = .ok bs ∧ bs.length = 2 ∧
      parse ("DEFINE TABLE a -- b" ++ "\n;\n" ++ "SELECT 1; c") =
        .ok (as ++ bs.map (Statement.view (.shift 22))) ∧
      ∃ e, parse ("DEFINE TABLE a -- b" ++ "\n;\n" ++ "c;\n (") = .error e ∧
        e.place = ⟨26, 4, 2⟩ := by
  have ha : (match parse "DEFINE TABLE a -- b" with | .ok _ => true | .error _ => false) =
      true := by
    decide +kernel
  have hb : (match parse "SELECT 1; c" with | .ok bs => bs.length == 2 | .error _ => false) =
      true := by
    decide +kernel
  have he : (match parse "c;\n (" with | .ok _ => false | .error e => e.place == ⟨4, 2, 2⟩) =
      true := by
    decide +kernel
  split at ha
  · next as has =>
    have hok := parse_append has "SELECT 1; c"
    have herror := parse_append has "c;\n ("
    split at hb
    · next bs hbs =>
      split at he
      · cases he
      · next e hes =>
        rw [hbs] at hok
        rw [hes] at herror
        obtain ⟨e', he', -, hplace⟩ := herror
        rw [beq_iff_eq.1 he] at hplace
        exact ⟨as, bs, has, hbs, beq_iff_eq.1 hb, hok, e', he', hplace⟩
    · cases hb
  · cases ha

end AccessLayer.Surql
