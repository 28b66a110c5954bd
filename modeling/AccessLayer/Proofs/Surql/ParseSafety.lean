import AccessLayer.Proofs.Surql.Likeness.Statements

/-!
# Reading always comes to an end

Every text is read as statements or has a fault. No reader runs out of fuel, so every recursion and
every loop ends within as many steps as there are tokens, and none asks for a token or a piece of
the source that is not there. A statement is alike itself, so that all of this follows from how
readers go through statements that are alike.

* `Passage.Progress`: a reader stays inside the statement and reads at least one token.
* `Passage.Safe`: what holds of the readers in one statement.
* `parse_never_aborts`: every text is read as statements or has a fault.
-/

namespace AccessLayer.Surql

variable {e : ParseError} {src : Bytes}

namespace Passage

/-- A reader that is started after `m` tokens reports a fault of the text, or it ends further on in
the same statement. -/
def Progress (s : Passage) {α : Type} (r : Reader α) (m : Nat) : Prop :=
  match r (s.cursor m) with
  | .ok (_, c) => ∃ n, m < n ∧ n ≤ s.length ∧ c = s.cursor n
  | .error e => e.fault.isAbort = false

/-- What the readers do in one statement, wherever they are started. `fuel` is what they are given
where at most that many tokens are left. -/
structure Safe (s : Passage) : Prop where
  read : s.Progress Statement.read 0
  value : ∀ m, m ≤ s.length → s.Progress value m
  unary : ∀ m fuel, m ≤ s.length → s.length ≤ m + fuel →
    s.Progress (Value.unary (Value.withTail (Value.primary (exprFuel fuel 1) fuel) fuel)
      (kindFuel fuel) (fuel + 1)) m
  primary : ∀ m fuel, m ≤ s.length → s.length ≤ m + fuel →
    s.Progress (Value.primary (exprFuel fuel 1) fuel) m
  single : ∀ m fuel, m ≤ s.length → s.length ≤ m + fuel →
    s.Progress (Kind.single (kindFuel fuel) fuel) m
  /-- An operator that is jumped over has all its tokens. -/
  jump : ∀ m op, BinaryOp.at? (s.cursor m) = some op → m + op.width ≤ s.length
  /-- The source text from a token that was read to the last one read is there. -/
  raw : ∀ i n, i < n → n ≤ s.length →
    (s.token i).start.offset ≤ (s.token (n - 1)).stop ∧ (s.token (n - 1)).stop ≤ s.src.length

end Passage

/-- A statement is alike itself. -/
def Likeness.refl {s : Passage} (hs : s.Sound) : Likeness s s where
  left := ⟨id, id⟩
  right := ⟨id, id⟩
  sound := hs
  sound' := hs
  length_eq := rfl
  kind_eq _ := rfl
  keyword_eq _ _ := rfl
  literal_eq _ _ := rfl
  upper_eq _ := rfl
  lower_eq _ := rfl
  part_eq _ := rfl
  name_eq _ := rfl
  text_eq _ := rfl
  start_eq _ _ := rfl
  adjacent_eq _ _ := rfl
  slice_eq _ _ _ _ := rfl

namespace Passage

variable {s : Passage}

open Likeness.Track

/-- A reader that reads alike and takes a token makes progress. -/
theorem progress_of_carries {L : Likeness s s} {α : Type} {r : Reader α} {m : Nat} {ok : α → Prop}
    {P : α → α → Nat → Prop} (h : L.alone.Carries ok r r m P) (hP : ∀ a b n, P a b n → m < n) :
    s.Progress r m := by
  unfold Progress
  obtain ⟨x, y, n, hr, -, hn, h, -⟩ | ⟨e, hr, hr'⟩ := h
  · rw [hr]
    exact ⟨n, hP x y n h, hn, rfl⟩
  · obtain ⟨-, -, fault, i, hf, -, rfl, -⟩ := hr' ⟨rfl, rfl⟩
    rw [hr]
    exact (fault.isAbort_about _).trans hf

theorem Sound.safe (hs : s.Sound) (hpos : 0 < s.length) : s.Safe := by
  let L := Likeness.refl hs
  have hprimary : ∀ m fuel, m ≤ s.length → s.length ≤ m + fuel →
      L.alone.Carries (fun v => v.isPlain = true) (Value.primary (exprFuel fuel 1) fuel)
        (Value.primary (exprFuel fuel 1) fuel) m (L.ValueFrom m) :=
    fun m fuel hm hf => carries_primary (carriesValue_exprFuel le_rfl 1) hf hf le_rfl hm
  refine ⟨?read, ?value, ?unary, ?primary, ?single, ?jump, ?raw⟩
  case read => exact progress_of_carries (L := L) (Likeness.reads_statement hpos) fun _ _ _ h => h.1
  case value =>
    intro m hm
    exact progress_of_carries (L := L) (carries_value hm) fun _ _ _ h => h.lt
  case unary =>
    intro m fuel hm hf
    refine progress_of_carries (L := L)
      (carries_unary ?_ (readsKind_kindFuel le_rfl) hm hf (by omega) le_rfl)
      fun _ _ _ h => h.lt
    exact carriesValue_withTail (fun m hm hd => hprimary m fuel hm (by omega)) le_rfl le_rfl
  case primary =>
    intro m fuel hm hf
    exact progress_of_carries (hprimary m fuel hm hf) fun _ _ _ h => h.lt
  case single =>
    intro m fuel hm hf
    exact progress_of_carries (L := L) (reads_single (readsKind_kindFuel le_rfl) hm hf hf le_rfl)
      fun _ _ _ h => h.2.1
  case jump => exact fun m op h => (L.at?_width h).2
  case raw =>
    intro i n hi hn
    have hn' : n - 1 < s.span.tokens.length := by
      unfold Passage.length at hn
      omega
    have hlt := hs.order.start_lt_stop (i := i) (j := n - 1) (by omega) hn'
    simp only [getElem_eq_token] at hlt
    exact ⟨hlt.1.le, hlt.2⟩

end Passage

/-! ## Texts -/

/-- A text without tokens has a fault of its own. -/
theorem isAbort_tokensFrom {p : Position} {rs : List Rune} (h : tokensFrom p rs = .error e) :
    e.fault.isAbort = false := by
  obtain ⟨-, -, f, -, -, rfl⟩ := tokensFrom_eq_error h
  rfl

theorem isAbort_spansOf (h : spansOf src = .error e) : e.fault.isAbort = false := by
  obtain h | ⟨tokens, -, h⟩ := bind_eq_error.1 h
  · exact isAbort_tokensFrom h
  · exact Span.isAbort_cut h

/-- A text that is not read has no spans, or reading one of them fails. -/
theorem fails_of_parse (h : parse src = .error e) :
    spansOf src = .error e ∨ ∃ spans span, spansOf src = .ok spans ∧ span ∈ spans ∧
      ∃ (hs : Passage.Sound ⟨src, span⟩) (e' : ParseError), (Likeness.refl hs).Fails e e' := by
  rw [parse_eq] at h
  obtain h | ⟨spans, hs, h⟩ := bind_eq_error.1 h
  · exact .inl h
  obtain ⟨before, span, after, -, hspans, -, hspan⟩ := mapM_eq_error.1 h
  have hmem : span ∈ spans := by simp [hspans]
  obtain ⟨hsound, hpos⟩ := Passage.sound_of_mem hs hmem
  -- a statement is alike itself, and alike statements fail at a token
  obtain ⟨st, -, hok, -⟩ | ⟨_, e', herror, -, hfails⟩ := (Likeness.refl hsound).ofSpan_related hpos
  · rw [hspan] at hok
    cases hok
  · rw [hspan] at herror
    cases herror
    exact .inr ⟨spans, span, hs, hmem, hsound, e', hfails⟩

/-- The statements of a text, cut but not yet read. -/
def passages (src : Bytes) : List Passage :=
  match spansOf src with
  | .ok spans => spans.map (Passage.mk src)
  | .error _ => []

theorem exists_of_mem_passages {s : Passage} (h : s ∈ passages src) :
    ∃ spans, spansOf s.src = .ok spans ∧ s.span ∈ spans := by
  unfold passages at h
  split at h
  · next spans hs =>
    obtain ⟨span, hspan, rfl⟩ := List.mem_map.1 h
    exact ⟨spans, hs, hspan⟩
  · cases h

theorem safe_of_mem_passages {s : Passage} (h : s ∈ passages src) : s.Safe := by
  obtain ⟨spans, hs, hspan⟩ := exists_of_mem_passages h
  obtain ⟨hsound, hpos⟩ := Passage.sound_of_mem hs hspan
  exact hsound.safe hpos

/-- Every text is read as statements or has a fault, and every reader stays inside its statement. -/
theorem parse_never_aborts (src : Bytes) :
    ((∃ statements, parse src = .ok statements) ∨
      ∃ e, parse src = .error e ∧ e.fault.isAbort = false) ∧
    ∀ s ∈ passages src, s.Safe := by
  refine ⟨?_, fun s hs => safe_of_mem_passages hs⟩
  cases h : parse src with
  | ok statements => exact .inl ⟨statements, rfl⟩
  | error e =>
    refine .inr ⟨e, rfl, ?_⟩
    obtain h | ⟨-, -, -, -, -, -, fault, i, hf, -, rfl, -⟩ := fails_of_parse h
    · exact isAbort_spansOf h
    · exact (fault.isAbort_about _).trans hf

/-- An operator of two words at the end of a statement is jumped over to its operand. -/
theorem parse_never_aborts_twoWords :
    ∃ s ∈ passages "DEFINE FIELD a ON b VALUE 1 IS NOT 2; c NOT IN", s.length = 10 ∧ s.Safe := by
  have h : (passages "DEFINE FIELD a ON b VALUE 1 IS NOT 2; c NOT IN").any (·.length == 10) =
      true := by
    decide +kernel
  obtain ⟨s, hs, hlen⟩ := List.any_eq_true.1 h
  exact ⟨s, hs, beq_iff_eq.1 hlen, (parse_never_aborts _).2 s hs⟩

end AccessLayer.Surql
