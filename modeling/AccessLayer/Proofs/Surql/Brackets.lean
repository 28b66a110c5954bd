import AccessLayer.Proofs.Surql.Lossless
import AccessLayer.Proofs.Surql.ParseSafety

/-!
# Readers and brackets

Statements are cut so that all their brackets match. Readers that count brackets then stop at the
right one, and every expression and every type takes all the brackets that it opens. So what an
expression keeps as text is the source from its first token to its last, and the brackets in it
match.

* `tokenize_trim`: the source from one token to another one starts and ends with no white space.
* `Value.Stands`: an expression and its parts by the tokens that they are made of.
* `brackets_whole`: they take it so from every statement of a text.
-/

namespace AccessLayer.Surql

open Bytes

variable {src : Bytes}

/-! ## Source text -/

theorem tokenize_trim {tokens : List Token} (h : tokenize src = .ok tokens) {t u : Token}
    (ht : t ∈ tokens)
    (hu : u ∈ tokens) (hkind : t.kind ≠ .endOfInput) (hkind' : u.kind ≠ .endOfInput)
    (hlt : t.start.offset < u.stop) :
    trim (slice src t.start.offset u.stop) = slice src t.start.offset u.stop := by
  obtain rfl | ⟨front, l, hruns, hne, hgap, -, rfl⟩ := mem_tokensFrom h t ht
  · exact absurd rfl hkind
  obtain rfl | ⟨front', l', hruns', hne', -, hl', rfl⟩ := mem_tokensFrom h u hu
  · exact absurd rfl hkind'
  obtain ⟨r, taken, htaken⟩ := List.exists_cons_of_ne_nil hne
  obtain ⟨r', taken', htaken'⟩ := List.exists_cons_of_ne_nil hne'
  rw [htaken', List.cons_append] at hl'
  have hread' := readable_runes src
  rw [hruns', htaken', List.cons_append] at hread'
  obtain ⟨w, x, hlast, hx⟩ := (faithful_lexeme hread'.right hl').dark
  rw [htaken, List.cons_append] at hgap hruns
  simp only [Position.after_offset] at hlt ⊢
  -- the code points from the start of the first token to the end of the last
  obtain ⟨between, hbetween⟩ : front <+: front' ++ l'.taken := by
    have hfront : front <+: runes src := ⟨_, hruns.symm⟩
    have hback : front' ++ l'.taken <+: runes src := ⟨l'.rest, by rw [hruns', List.append_assoc]⟩
    refine (List.prefix_or_prefix_of_prefix hfront hback).resolve_right ?_
    rintro ⟨more, rfl⟩
    rw [ofRunes_append, List.length_append] at hlt
    omega
  have hsplit : runes src = front ++ (between ++ l'.rest) := by
    rw [← List.append_assoc, hbetween, hruns', List.append_assoc]
  have hstop : (ofRunes (front' ++ l'.taken)).length =
      (ofRunes front).length + (ofRunes between).length := by
    rw [← hbetween, ofRunes_append, List.length_append]
  obtain ⟨w', x', rfl⟩ : ∃ w' x', between = w' ++ [x'] := by
    refine (List.eq_nil_or_concat' between).resolve_left ?_
    rintro rfl
    rw [hstop, ofRunes_nil, List.length_nil] at hlt
    omega
  have hread : Readable (w' ++ [x']) := (hsplit ▸ readable_runes src : Readable _).right.left
  obtain ⟨rs, hfirst⟩ : ∃ rs, w' ++ [x'] = r :: rs := by
    have hsame := List.append_cancel_left (hruns.symm.trans hsplit)
    cases w' with
    | nil => exact ⟨[], by rw [(List.cons.inj hsame).1]; rfl⟩
    | cons y w' => exact ⟨w' ++ [x'], by rw [(List.cons.inj hsame).1]; rfl⟩
  have hend : x' = x := by
    rw [hlast, ← List.append_assoc, ← List.append_assoc] at hbetween
    exact List.singleton_inj.1 (List.append_inj' hbetween rfl).2
  rw [show Position.start.offset = 0 from rfl, Nat.zero_add, Nat.zero_add, hstop,
    (slice_of_runes hsplit rfl rfl).1]
  exact trim_eq_self (hread.trans hfirst) (gap_cons_eq_none.1 hgap).1 hread (hend ▸ hx)

/-- The tokens of a statement are tokens of the source, and their brackets match. -/
theorem tokens_of_mem_passages {s : Passage} (hs : s ∈ passages src) :
    WellNested s.span.tokens ∧
      ∃ tokens, tokenize s.src = .ok tokens ∧ ∀ t ∈ s.span.tokens, t ∈ tokens ∧
        t.kind ≠ .endOfInput := by
  obtain ⟨src, span⟩ := s
  obtain ⟨spans, h, hspan⟩ := exists_of_mem_passages hs
  obtain ⟨own, e, pieces, p, htokens, hkinds, -, hpieces, hp, -, rfl⟩ := exists_piece_of_mem h hspan
  refine ⟨hpieces.wellNested p hp, _, htokens, fun t ht => ?_⟩
  have hmem := (hpieces.run_infix p hp).subset ht
  exact ⟨List.mem_append_left _ hmem, hkinds t hmem⟩

/-- The source text of some tokens of a statement is the source from the first one to the last. -/
theorem Passage.text_eq {s : Passage} (hs : s ∈ passages src) {i j : Nat} (hij : i < j)
    (hj : j ≤ s.length) :
    s.text i (j - 1) = slice s.src (s.token i).start.offset (s.token (j - 1)).stop := by
  obtain ⟨-, tokens, htokens, hmem⟩ := tokens_of_mem_passages hs
  have htoken : ∀ k, k < s.length → s.token k ∈ tokens ∧ (s.token k).kind ≠ .endOfInput := by
    intro k hk
    rw [← s.getElem_eq_token hk]
    exact hmem _ (List.getElem_mem hk)
  obtain ⟨hi, hkind⟩ := htoken i (by omega)
  obtain ⟨hlast, hkind'⟩ := htoken (j - 1) (by omega)
  have hj' : j - 1 < s.span.tokens.length := by unfold length at hj; omega
  obtain ⟨spans, h, hspan⟩ := exists_of_mem_passages hs
  have hlt := (sound_of_mem h hspan).1.order.start_lt_stop (i := i) (by omega) hj'
  simp only [getElem_eq_token] at hlt
  exact tokenize_trim htokens hi hlast hkind hkind' hlt.1

/-! ## Expressions by their tokens -/

/-- The text is the source from token `m` to token `n`, and the brackets of these tokens match. -/
def Passage.IsSource (s : Passage) (raw : Bytes) (m n : Nat) : Prop :=
  raw = slice s.src (s.token m).start.offset (s.token (n - 1)).stop ∧ WellNested (s.run m n)

namespace Value

mutual

/-- The expression starts with token `m` and ends before token `n`. What it keeps as text is the
source of these tokens, unless it is a single token that is kept by its literal: a simple literal, a
record that says so, or a name. -/
def Stands (s : Passage) : Value → Nat → Nat → Prop
  | literal pos kind raw elems, m, n =>
    pos = (s.token m).start.offset ∧ AllStand s elems m n ∧ (s.IsSource raw m n ∨
      n = m + 1 ∧ raw = (s.token m).literal ∧ kind ∉ [.array, .object] ∧
        (kind = .record → (s.token m).kind = .recordId))
  | param pos name, m, n => pos = (s.token m).start.offset ∧ n = m + 1 ∧ name = (s.token m).literal
  | call pos _ _ args, m, n => pos = (s.token m).start.offset ∧ AllStand s args m n
  | binary pos left _ right, m, n =>
    pos = (s.token m).start.offset ∧ ∃ i j, i < j ∧ Stands s left m i ∧ Stands s right j n
  | other pos kind raw, m, n =>
    pos = (s.token m).start.offset ∧
      (s.IsSource raw m n ∨ n = m + 1 ∧ raw = (s.token m).literal ∧ kind = .idiom)

/-- The expressions stand one after the other between the tokens `m` and `n`. -/
def AllStand (s : Passage) : List Value → Nat → Nat → Prop
  | [], m, n => m ≤ n
  | v :: vs, m, n => ∃ i j, m ≤ i ∧ Stands s v i j ∧ AllStand s vs j n

end

theorem AllStand.mono {s : Passage} {vs : List Value} {m m' n n' : Nat} (h : AllStand s vs m n)
    (hm : m' ≤ m) (hn : n ≤ n') : AllStand s vs m' n' := by
  induction vs generalizing m m' with
  | nil => exact (hm.trans h).trans hn
  | cons v vs ih =>
    obtain ⟨i, j, hmi, hv, hvs⟩ := h
    exact ⟨i, j, hm.trans hmi, hv, ih hvs le_rfl⟩

end Value

section

variable {s : Passage}

theorem isSource_text (hs : s ∈ passages src) {i j : Nat} (hij : i < j) (hj : j ≤ s.length)
    (hw : s.Whole i j) : s.IsSource (s.text i (j - 1)) i j :=
  ⟨Passage.text_eq hs hij hj, hw.2 (tokens_of_mem_passages hs).1⟩

mutual

theorem Layout.stands_value (hs : s ∈ passages src) (e : Layout) {m n : Nat} (h : s.Fits e m n)
    (hw : e.Whole s) : (e.value s).Stands s m n := by
  cases h with
  | token => exact ⟨rfl, Nat.le_succ _, .inr ⟨rfl, rfl, hw⟩⟩
  | flat hij hj => exact ⟨rfl, hij.le, .inl (isSource_text hs hij hj hw.1)⟩
  | array _ h _ hj =>
    have := h.le
    refine ⟨rfl, (allStand_values hs _ h hw.2).mono (by omega) (by omega), .inl ?_⟩
    exact isSource_text hs (by omega) hj hw.1
  | object _ h _ hj =>
    have := h.le
    refine ⟨rfl, (allStand_values hs _ h hw.2).mono (by omega) (by omega), .inl ?_⟩
    exact isSource_text hs (by omega) hj hw.1
  | param => exact ⟨rfl, rfl, rfl⟩
  | call _ _ h => exact ⟨rfl, (allStand_values hs _ h hw).mono (by omega) (by omega)⟩
  | script _ _ h _ _ hbj => exact ⟨rfl, (allStand_values hs _ h hw).mono (by omega) (by omega)⟩
  | cast _ hio h => exact ⟨rfl, _, _, hio.le, stands_value hs _ h hw, le_rfl⟩
  | @binary _ i _ _ _ op hleft hop hright =>
    have hpos := (Likeness.at?_kind hop).1
    refine ⟨by rw [hleft.first_eq], i, i + op.width, by omega, ?_, ?_⟩
    · exact stands_value hs _ hleft hw.1
    · exact stands_value hs _ hright hw.2
  | name => exact ⟨rfl, .inr ⟨rfl, rfl, rfl⟩⟩
  | source hij hj => exact ⟨rfl, .inl (isSource_text hs hij hj hw)⟩
termination_by structural e

theorem Layout.allStand_values (hs : s ∈ passages src) (es : List Layout) {k m n : Nat}
    (h : s.FitsAll k es m n) (hw : AllWhole s es) : Value.AllStand s (values s es) m n := by
  cases h with
  | nil => exact Nat.le_refl _
  | last h => exact ⟨_, _, Nat.le_add_right _ _, stands_value hs _ h hw.1, le_rfl⟩
  | cons h _ hes =>
    have hrest := allStand_values hs _ hes hw.2
    exact ⟨_, _, Nat.le_add_right _ _, stands_value hs _ h hw.1, hrest.mono (Nat.le_succ _) le_rfl⟩
termination_by structural es

end

end

/-! ## Statements -/

namespace Passage

/-- What readers that count brackets, and those of types and expressions, take from a statement. -/
structure Bracketed (s : Passage) : Prop where
  /-- Behind an opening bracket, a group is skipped up to and with the bracket that closes it. -/
  group : ∀ i, i < s.length → (s.token i).kind.isOpener = true →
    ∃ j, i < j ∧ j < s.length ∧ (s.token i).kind.closer? = some (s.token j).kind ∧
      WellNested (s.run (i + 1) j) ∧
      Reader.skipBalanced (s.cursor (i + 1)) = .ok (⟨⟩, s.cursor (j + 1))
  /-- An embedded statement is skipped up to the first bracket that closes none of its own, or to
  the end. -/
  statement : ∀ i, i ≤ s.length →
    ∃ j, i ≤ j ∧ j ≤ s.length ∧ WellNested (s.run i j) ∧
      (j < s.length → (s.token j).kind.isCloser = true) ∧
      Reader.skipStatement (s.cursor i) = .ok (⟨⟩, s.cursor j)
  /-- A type takes tokens whose brackets match. -/
  kind : ∀ i k c, i ≤ s.length → kind (s.cursor i) = .ok (k, c) →
    ∃ j, i < j ∧ j ≤ s.length ∧ c = s.cursor j ∧ WellNested (s.run i j)
  /-- So does an expression. It starts with the first of them, and its texts are where their tokens
  are. -/
  value : ∀ i v c, i ≤ s.length → value (s.cursor i) = .ok (v, c) →
    ∃ j, i < j ∧ j ≤ s.length ∧ c = s.cursor j ∧ WellNested (s.run i j) ∧
      v.pos = (s.token i).start.offset ∧ v.Stands s i j

end Passage

theorem Value.Stands.pos_eq {s : Passage} {v : Value} {m n : Nat} (h : v.Stands s m n) :
    v.pos = (s.token m).start.offset := by
  cases v <;> exact h.1

open Likeness.Track in
/-- Brackets are taken whole from every statement of every text. -/
theorem brackets_whole {s : Passage} (hs : s ∈ passages src) : s.Bracketed := by
  have hnested := (tokens_of_mem_passages hs).1
  obtain ⟨spans, h, hspan⟩ := exists_of_mem_passages hs
  let L := Likeness.refl (Passage.sound_of_mem h hspan).1
  refine ⟨?group, ?statement, ?kind, ?value⟩
  case group =>
    intro i hi ho
    obtain ⟨j, hij, hj, hclose, hbody, hend⟩ := Passage.exists_group hnested hi ho
    exact ⟨j, hij, hj, hclose, hbody, hend ▸ Passage.skipBalanced_ok hi⟩
  case statement =>
    intro i hi
    obtain ⟨j, hij, hj, hbody, hclose, hend⟩ := Passage.exists_statement hnested hi
    exact ⟨j, hij, hj, hbody, hclose, hend ▸ Passage.skipStatement_ok (hend ▸ hj)⟩
  case kind =>
    intro i k c hi hk
    obtain ⟨k', -, j, hk', -, hj, ⟨-, hij, hw⟩, -⟩ | ⟨e, he, -⟩ := reads_kind (T := L.alone) hi
    · cases hk.symm.trans hk'
      exact ⟨j, hij, hj, rfl, hw.2 hnested⟩
    · cases hk.symm.trans he
  case value =>
    intro i v c hi hv
    obtain ⟨v', -, j, hv', -, hj, ⟨e, hstands, rfl, -⟩, -⟩ | ⟨e, he, -⟩ :=
      carries_value (T := L.alone) hi
    · cases hv.symm.trans hv'
      have hvalue := e.stands_value hs hstands.fits hstands.whole
      exact ⟨j, hstands.fits.lt, hj, rfl, hstands.run.2 hnested, hvalue.pos_eq, hvalue⟩
    · cases hv.symm.trans he

/-- An array of objects, records and subqueries, with a field of it taken. -/
theorem brackets_whole_nested :
    ∃ s ∈ passages "DEFINE FIELD a ON b VALUE [\x7b c: d:[1, '['] \x7d, (SELECT * FROM e)].f; x",
      ∃ v c,
      value (s.cursor 6) = .ok (v, c) ∧ s.Bracketed := by
  have h :
      (passages "DEFINE FIELD a ON b VALUE [\x7b c: d:[1, '['] \x7d, (SELECT * FROM e)].f; x").any
      (fun s => (value (s.cursor 6)).isOk) = true := by
    decide +kernel
  obtain ⟨s, hs, hv⟩ := List.any_eq_true.1 h
  cases hread : value (s.cursor 6) with
  | ok r => exact ⟨s, hs, r.1, r.2, hread, brackets_whole hs⟩
  | error e => rw [hread] at hv; cases hv

end AccessLayer.Surql
