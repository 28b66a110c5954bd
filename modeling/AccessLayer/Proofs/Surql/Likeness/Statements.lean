import AccessLayer.Proofs.Surql.Likeness.Values

/-!
# Definitions of alike statements

Statements that are alike are read as statements of one layout, which look the same, or fail at the
same token.

* `Likeness.reads_untilEnd`: clauses are read until all tokens are used up.
* `Likeness.reads_statement`: a whole statement.
* `Likeness.ofSpan_related`: statements of two alike spans look the same.
-/

namespace AccessLayer.Surql

namespace Likeness

open Definition
open Track

variable {s s' : Passage} {L : Likeness s s'} {m n fuel : Nat}

/-! ## Parts shared by definitions -/

theorem reads_modifiers (hm : m ≤ s.length) :
    L.alone.Reads modifiers modifiers m fun _ _ _ => True := by
  unfold modifiers
  refine L.alone.carries_accept (alone_sees _) hm (fun _ hlt => carries_pure hlt trivial) ?_
  refine L.alone.carries_accept (alone_sees _) hm (fun _ hlt => ?_) (carries_pure hm trivial)
  refine L.alone.carries_expectKeyword hlt (fun _ hlt => ?_)
  exact carries_last (L.alone.carries_expectKeyword hlt fun _ hlt => carries_pure hlt trivial)

/-- Two names that are the same token of two statements, the last one before `n` tokens. -/
def NameFrom (_ : Likeness s s') (m : Nat) (x x' : Bytes) (n : Nat) : Prop :=
  ∃ i, m ≤ i ∧ n = i + 1 ∧ x = (s.token i).literal ∧ x' = (s'.token i).literal

theorem reads_name {what : Bytes} (hm : m ≤ s.length) :
    L.alone.Reads (Definition.name what) (Definition.name what) m (L.NameFrom m) := by
  unfold Definition.name
  refine reads_peek ?_
  rw [L.kind_eq]
  split
  · next hk =>
    have hlt : m < s.length := by
      rw [Bool.or_eq_true_iff, beq_iff_eq, beq_iff_eq] at hk
      obtain hk | hk := hk
      all_goals exact L.sound.lt_of_kind_eq hk (by decide)
    refine L.alone.carries_skip hlt ?_
    exact carries_pure hlt ⟨m, le_rfl, rfl, rfl, rfl⟩
  · exact carries_error (.expectedName what (s.token m)) rfl hm rfl rfl

theorem reads_tableName (hm : m ≤ s.length) :
    L.alone.Reads tableName tableName m (L.NameFrom m) := by
  unfold tableName
  refine carries_discard (L.alone.carries_accept (alone_sees _) hm (fun _ hlt => ?_)
    (reads_name hm))
  refine (reads_name hlt).mono ?_
  rintro x x' n hn _ ⟨i, hi, hx⟩
  exact ⟨i, by omega, hx⟩

/-- A step that keeps a relation and reads at least one token keeps it until the end. -/
theorem reads_untilEnd {σ : Type} {step : σ → Reader σ} {R : σ → σ → Prop}
    (hstep : ∀ a b m, m < s.length → R a b →
      L.alone.Reads (step a) (step b) m fun a b n => m < n ∧ R a b)
    {a b : σ} (hR : R a b) (hm : m ≤ s.length) (hf : s.length < m + fuel) :
    L.alone.Reads (untilEnd step fuel a) (untilEnd step fuel b) m fun a b _ =>
      R a b := by
  induction fuel generalizing m a b with
  | zero => omega
  | succ fuel ih =>
    rw [untilEnd, untilEnd]
    refine reads_get ?_
    rw [s.atEnd_cursor, s'.atEnd_cursor, L.length_eq]
    split
    · exact carries_pure hm hR
    · next hend =>
      have hlt : m < s.length := by
        rw [decide_eq_true_iff] at hend
        omega
      refine (hstep a b m hlt hR).bind ?_
      rintro a b n hmn hn ⟨hlt, hR⟩
      exact ih hR hn (by omega)

/-! ## Tables -/

theorem endsFlags_eq (L : Likeness s s') (i : Nat) :
    endsFlags (s'.token i) = endsFlags (s.token i) := by
  simp only [endsFlags, L.keyword_eq]

/-- The same flags stand before the words that end them. -/
theorem any_flags_eq (L : Likeness s s') (m : Nat) (w : Bytes) :
    ((s.cursor m).rest.takeWhile fun t => !Definition.endsFlags t).any (·.isKeyword w) =
      ((s'.cursor m).rest.takeWhile fun t => !Definition.endsFlags t).any (·.isKeyword w) := by
  have h := L.map_rest_eq (g := fun t => (endsFlags t, t.isKeyword w))
    (fun i => by rw [L.endsFlags_eq, L.keyword_eq]) m
  have hmap : ∀ ts : List Token,
      (ts.takeWhile fun t => !Definition.endsFlags t).any (·.isKeyword w) =
        ((ts.map fun t => (endsFlags t, t.isKeyword w)).takeWhile (!·.1)).any (·.2) := by
    intro ts
    rw [List.takeWhile_map, List.any_map]
    rfl
  rw [hmap, hmap, h]

/-- Two statements of one layout. -/
def StatementFrom (_ : Likeness s s') (st st' : Statement) : Prop :=
  ∃ l : StatementLayout, l.Fits s ∧ st = l.statement s ∧ st' = l.statement s'

theorem reads_table (hm : m ≤ s.length) :
    L.alone.Reads (Definition.table (s.token 0).start.offset)
      (Definition.table (s'.token 0).start.offset) m
      fun d d' _ => L.StatementFrom (.table d) (.table d') := by
  unfold Definition.table
  refine (reads_modifiers hm).bind ?_
  intro _ _ n hmn hn _
  refine (reads_name hn).bind ?_
  rintro _ _ _ _ h ⟨i, _, rfl, rfl, rfl⟩
  refine reads_get ?_
  dsimp only
  rw [L.any_flags_eq, L.any_flags_eq]
  exact reads_skipToEnd h (carries_pure le_rfl ⟨.table i _ _, h, rfl, rfl⟩)

/-! ## Fields -/

def nameTokens (s : Passage) (m : Nat) : List Token :=
  (s.cursor m).rest.takeWhile fun t => !t.isKeyword "ON"

theorem length_nameTokens_le (m : Nat) : (nameTokens s m).length ≤ s.length - m := by
  rw [← s.length_rest m]
  exact (List.takeWhile_sublist _).length_le

theorem length_nameTokens_eq (L : Likeness s s') (m : Nat) :
    (nameTokens s' m).length = (nameTokens s m).length := by
  have h := L.map_rest_eq (g := fun t => !t.isKeyword "ON") (fun i => by rw [L.keyword_eq]) m
  have hmap : ∀ ts : List Token, (ts.takeWhile fun t => !t.isKeyword "ON").length =
      ((ts.map fun t => !t.isKeyword "ON").takeWhile id).length := by
    intro ts
    rw [List.takeWhile_map, List.length_map]
    rfl
  rw [nameTokens, nameTokens, hmap, hmap, h]

/-- The name of a field starts at the first token that is left, unless that is `ON`. -/
theorem nameTokens_eq (hm : m < s.length) : nameTokens s m =
    if (s.token m).isKeyword "ON" then [] else s.token m :: nameTokens s (m + 1) := by
  simp only [nameTokens, Passage.cursor, s.drop_eq_cons hm, List.takeWhile_cons, Bool.not_eq_true']
  split_ifs with h1 h2
  · rw [h2] at h1
    cases h1
  all_goals simp_all

theorem reads_fieldName (hm : m ≤ s.length) :
    L.alone.Reads fieldName fieldName m fun x x' _ =>
      ∃ l : NameLayout, l.Fits s ∧ x = l.name s ∧ x' = l.name s' := by
  unfold fieldName
  refine reads_get ?_
  have hfold : ∀ s : Passage, (s.cursor m).rest.takeWhile (fun t => !t.isKeyword "ON") =
    nameTokens s m := fun _ => rfl
  have hle := length_nameTokens_le (s := s) m
  dsimp only
  rw [hfold, hfold, s.length_rest, s'.length_rest, L.length_eq, L.length_nameTokens_eq]
  split
  · rw [s.cursor_stop, s'.cursor_stop, ← s.token_of_le le_rfl, ← s'.token_of_le L.length_eq.le]
    exact carries_error (.expectedOn (s.token s.length)) rfl le_rfl rfl rfl
  · next hon =>
    rw [beq_iff_eq] at hon
    have hlt : m < s.length := by omega
    refine carries_step (n := m + (nameTokens s m).length) (x := ⟨⟩) (y := ⟨⟩) ?_ ?_ (by omega)
      (by omega) ?_
    · rw [s.skip_cursor (by omega)]
      rfl
    · rw [s'.skip_cursor (by rw [L.length_eq]; omega), alone_cursor, alone_cursor]
      rfl
    have hown := nameTokens_eq hlt
    have hown' := nameTokens_eq (s := s') (L.length_eq ▸ hlt)
    rw [L.keyword_eq] at hown'
    -- a name of several tokens is their source text, so the shapes have to agree
    by_cases hon' : (s.token m).isKeyword "ON" = true
    · rw [if_pos hon'] at hown hown'
      rw [hown, hown', s.peek_cursor, s'.peek_cursor]
      exact carries_error (.expectedName "field" (s.token m)) rfl hm rfl rfl
    · rw [if_neg hon'] at hown hown'
      have htail := L.length_nameTokens_eq (m + 1)
      rw [hown] at hle ⊢
      rw [hown']
      cases hts : nameTokens s (m + 1) with
      | nil =>
        rw [hts, List.length_nil, List.length_eq_zero_iff] at htail
        rw [htail]
        exact carries_pure hlt ⟨.token m, hlt, rfl, rfl⟩
      | cons t ts =>
        rw [hts, List.length_cons] at htail
        obtain ⟨t', ts', hts'⟩ := List.exists_cons_of_length_eq_add_one htail
        rw [hts, List.length_cons, List.length_cons] at hle
        rw [hts', List.length_cons, List.length_cons]
        have hlast : m + (ts.length + 1 + 1) ≤ s.length := by omega
        exact carries_last (L.alone.carries_raw (by omega) hlast
          (carries_pure hlast ⟨.text m _, ⟨by omega, hlast⟩, rfl, rfl⟩))

/-- Two field definitions of one layout. -/
def FieldFrom (_ : Likeness s s') (d d' : FieldDef) : Prop :=
  ∃ l : FieldLayout, l.Fits s ∧ d = l.definition s ∧ d' = l.definition s'

/-- An expression of a clause is what the reader makes of the tokens from `m` on. -/
theorem reads_clauseValue (hm : m ≤ s.length) : L.alone.Reads value value m fun v v' n =>
    m < n ∧ ∃ e : Layout, s.ReadsAs e m n ∧ v = e.value s ∧ v' = e.value s' := by
  refine (carries_value hm).reads.run.mono ?_
  rintro _ _ n _ _ ⟨hread, e, he, rfl, rfl⟩
  exact ⟨he.fits.lt, e, ⟨he.fits, hread⟩, rfl, rfl⟩

theorem reads_fieldClause {d d' : FieldDef} (hd : L.FieldFrom d d') (hm : m < s.length) :
    L.alone.Reads (fieldClause d) (fieldClause d') m fun d d' n =>
      m < n ∧ L.FieldFrom d d' := by
  obtain ⟨l, hl, rfl, rfl⟩ := hd
  unfold fieldClause
  refine L.alone.carries_accept (alone_sees _) hm.le (fun _ hlt => ?flexible) ?_
  case flexible =>
    exact carries_pure hlt ⟨by omega, { l with flexible := true }, { hl with }, rfl, rfl⟩
  refine L.alone.carries_accept (alone_sees _) hm.le (fun _ hlt => ?readonly) ?_
  case readonly =>
    exact carries_pure hlt ⟨by omega, { l with readonly := true }, { hl with }, rfl, rfl⟩
  refine L.alone.carries_accept (alone_sees _) hm.le (fun _ hlt => ?type) ?_
  case type =>
    refine (reads_kind hlt).bind ?_
    rintro k _ n hmn hn ⟨rfl, _⟩
    exact carries_pure hn ⟨by omega, { l with kind := some k }, { hl with }, rfl, rfl⟩
  refine L.alone.carries_accept (alone_sees _) hm.le (fun _ hlt => ?default) ?_
  case default =>
    have hdefault : ∀ k, m ≤ k → k ≤ s.length → L.alone.Reads
        (value >>= fun v => pure { l.definition s with default := some v })
        (value >>= fun v => pure { l.definition s' with default := some v }) k
        fun d d' n => m < n ∧ L.FieldFrom d d' := by
      intro k hmk hk
      refine (reads_clauseValue hk).bind ?_
      rintro _ _ n _ hn ⟨_, e, he, rfl, rfl⟩
      refine carries_pure hn ⟨by omega, { l with default := some e }, { hl with default := ?_ },
        rfl, rfl⟩
      rintro _ ⟨⟩
      exact ⟨k, n, he⟩
    refine carries_discard (L.alone.carries_accept (alone_sees _) hlt (fun _ hlt' => ?_) ?_)
    · exact hdefault _ (by omega) hlt'
    · exact hdefault _ (by omega) hlt
  refine L.alone.carries_accept (alone_sees _) hm.le (fun hkey hlt => ?value) ?_
  case value =>
    refine (reads_clauseValue hlt).bind ?_
    rintro _ _ n _ hn ⟨_, e, he, rfl, rfl⟩
    refine carries_pure hn ⟨by omega, { l with value := some e }, { hl with value := ?_ }, rfl, rfl⟩
    rintro _ ⟨⟩
    exact ⟨m, n, hkey, he⟩
  refine L.alone.carries_accept (alone_sees _) hm.le (fun _ hlt => ?assert) ?_
  case assert =>
    refine (reads_clauseValue hlt).bind ?_
    rintro _ _ n _ hn ⟨_, e, he, rfl, rfl⟩
    refine carries_pure hn ⟨by omega, { l with assert := some e }, { hl with assert := ?_ },
      rfl, rfl⟩
    rintro _ ⟨⟩
    exact ⟨m + 1, n, he⟩
  refine L.alone.carries_accept (alone_sees _) hm.le (fun _ hlt => ?comment) ?_
  case comment =>
    refine carries_discard (reads_advance_any hlt fun n hn hstep => ?_)
    exact carries_pure hn ⟨by omega, l, hl, rfl, rfl⟩
  exact reads_skipToEnd hm.le (carries_pure le_rfl ⟨hm, l, hl, rfl, rfl⟩)

theorem reads_field (hm : m ≤ s.length) :
    L.alone.Reads (Definition.field (s.token 0).start.offset)
      (Definition.field (s'.token 0).start.offset) m
      fun d d' _ => L.FieldFrom d d' := by
  unfold Definition.field
  refine (reads_modifiers hm).bind ?_
  intro _ _ n hmn hn _
  refine (reads_fieldName hn).bind ?_
  rintro _ _ n' hn' h ⟨name, hname, rfl, rfl⟩
  refine carries_discard (reads_advance_any h fun k hk _ => ?_)
  refine (reads_tableName hk).bind ?_
  rintro _ _ _ _ hi ⟨i, _, rfl, rfl, rfl⟩
  refine reads_get ?_
  rw [s.length_rest, s'.length_rest, L.length_eq]
  refine reads_untilEnd (fun d d' m hm hd => reads_fieldClause hd hm) ?_ hi (by omega)
  exact ⟨{ name, table := i }, ⟨hname, hi, nofun, nofun, nofun⟩, rfl, rfl⟩

/-! ## Events -/

theorem reads_values (hm : m ≤ s.length) (hf : s.length < m + fuel) :
    L.alone.Reads (values fuel) (values fuel) m fun vs vs' n => m < n ∧
      ∃ es : List Layout, (∀ e ∈ es, ∃ m n, s.ReadsAs e m n) ∧ vs = es.map (Layout.value s) ∧
        vs' = es.map (Layout.value s') := by
  induction fuel generalizing m with
  | zero => omega
  | succ fuel ih =>
    rw [values]
    refine (reads_clauseValue hm).bind ?_
    rintro _ _ n hmn hn ⟨hlt, e, he, rfl, rfl⟩
    refine L.alone.carries_check hn (by decide) (fun _ hn' => ?_) (fun _ => ?_)
    · refine L.alone.carries_skip hn' ?_
      refine (ih hn' (by omega)).bind ?_
      rintro _ _ k _ hk ⟨_, es, hes, rfl, rfl⟩
      exact carries_pure hk ⟨by omega, e :: es, List.forall_mem_cons.2 ⟨⟨m, n, he⟩, hes⟩, rfl, rfl⟩
    · exact carries_pure hn ⟨hlt, [e], List.forall_mem_singleton.2 ⟨m, n, he⟩, rfl, rfl⟩

/-- Two event definitions of one layout. -/
def EventFrom (_ : Likeness s s') (d d' : EventDef) : Prop :=
  ∃ l : EventLayout, l.Fits s ∧ d = l.definition s ∧ d' = l.definition s'

theorem reads_eventClause {d d' : EventDef} (hd : L.EventFrom d d') (hm : m < s.length) :
    L.alone.Reads (eventClause d) (eventClause d') m fun d d' n =>
      m < n ∧ L.EventFrom d d' := by
  obtain ⟨l, hl, rfl, rfl⟩ := hd
  have hactions : ∀ (s : Passage) (es : List Layout),
      { l.definition s with actions := (l.definition s).actions ++ es.map (Layout.value s) } =
        EventLayout.definition s { l with actions := l.actions ++ es } := by
    intro s es
    simp only [EventLayout.definition, List.map_append]
  unfold eventClause
  refine L.alone.carries_accept (alone_sees _) hm.le (fun _ hlt => ?condition) ?_
  case condition =>
    refine (reads_clauseValue hlt).bind ?_
    rintro _ _ n _ hn ⟨_, e, he, rfl, rfl⟩
    refine carries_pure hn ⟨by omega, { l with when? := some e }, { hl with when? := ?_ }, rfl, rfl⟩
    rintro _ ⟨⟩
    exact ⟨m + 1, n, he⟩
  refine L.alone.carries_accept (alone_sees _) hm.le (fun _ hlt => ?actions) ?_
  case actions =>
    refine reads_get ?_
    rw [s.length_rest, s'.length_rest, L.length_eq]
    refine (reads_values hlt (by omega)).bind ?_
    rintro _ _ n _ hn ⟨_, es, hes, rfl, rfl⟩
    refine carries_pure hn ⟨by omega, { l with actions := l.actions ++ es },
      { hl with actions := ?_ }, hactions s es, hactions s' es⟩
    exact List.forall_mem_append.2 ⟨hl.actions, hes⟩
  refine L.alone.carries_accept (alone_sees _) hm.le (fun _ hlt => ?comment) ?_
  case comment =>
    refine carries_discard (reads_advance_any hlt fun n hn hstep => ?_)
    exact carries_pure hn ⟨by omega, l, hl, rfl, rfl⟩
  exact reads_skipToEnd hm.le (carries_pure le_rfl ⟨hm, l, hl, rfl, rfl⟩)

theorem reads_event (hm : m ≤ s.length) :
    L.alone.Reads (Definition.event (s.token 0).start.offset)
      (Definition.event (s'.token 0).start.offset) m
      fun d d' _ => L.EventFrom d d' := by
  unfold Definition.event
  refine (reads_modifiers hm).bind ?_
  intro _ _ n hmn hn _
  refine (reads_name hn).bind ?_
  rintro _ _ _ _ hi ⟨i, _, rfl, rfl, rfl⟩
  refine L.alone.carries_expectKeyword hi (fun _ hlt => ?_)
  refine (reads_tableName hlt).bind ?_
  rintro _ _ _ _ hj ⟨j, _, rfl, rfl, rfl⟩
  refine reads_get ?_
  rw [s.length_rest, s'.length_rest, L.length_eq]
  refine reads_untilEnd (fun d d' m hm hd => reads_eventClause hd hm) ?_ hj (by omega)
  exact ⟨{ name := i, table := j }, ⟨hi, hj, nofun, nofun⟩, rfl, rfl⟩

/-! ## All statements -/

theorem reads_definition (hm : m ≤ s.length) (hpos : 0 < m) :
    L.alone.Reads (any (s.token 0).start.offset) (any (s'.token 0).start.offset) m
      fun st st' _ => L.StatementFrom st st' := by
  unfold any
  refine reads_advance_any hm fun n hn hstep => ?_
  rw [L.kind_eq, L.upper_eq]
  split
  · exact carries_error (.expectedDefinitionKind (s.token m)) rfl hm rfl rfl
  dsimp only
  split
  · refine (reads_table hn).bind ?_
    intro _ _ k _ hk h
    exact carries_pure hk h
  split
  · refine (reads_field hn).bind ?_
    rintro _ _ k _ hk ⟨l, hl, rfl, rfl⟩
    exact carries_pure hk ⟨.field l, hl, rfl, rfl⟩
  split
  · refine (reads_event hn).bind ?_
    rintro _ _ k _ hk ⟨l, hl, rfl, rfl⟩
    exact carries_pure hk ⟨.event l, hl, rfl, rfl⟩
  · refine reads_skipToEnd hn (L.alone.carries_raw (by omega) le_rfl (carries_pure le_rfl ?_))
    exact ⟨.define (Bytes.toUpper (s.token m).literal), trivial,
      rfl, by rw [StatementLayout.statement, L.length_eq]⟩

/-- Whole statements are read alike. -/
theorem reads_statement (hs : 0 < s.length) :
    L.alone.Reads Statement.read Statement.read 0 fun st st' n =>
      0 < n ∧ L.StatementFrom st st' := by
  unfold Statement.read
  refine reads_peek ?_
  dsimp only
  rw [L.keyword_eq, L.upper_eq]
  split
  · refine L.alone.carries_skip hs ?_
    exact (reads_definition hs Nat.one_pos).mono fun _ _ _ hn _ h => ⟨hn, h⟩
  · refine reads_skipToEnd hs.le (L.alone.carries_raw hs le_rfl (carries_pure le_rfl ⟨hs, ?_⟩))
    exact ⟨.raw (Bytes.toUpper (s.token 0).literal), trivial,
      rfl, by rw [StatementLayout.statement, L.length_eq]⟩

/-- The statements of two alike spans have one layout, or both spans fail at the same token. -/
theorem ofSpan_layout (L : Likeness s s') (hs : 0 < s.length) :
    (∃ l : StatementLayout, l.Fits s ∧ Statement.ofSpan s.src s.span = .ok (l.statement s) ∧
      Statement.ofSpan s'.src s'.span = .ok (l.statement s')) ∨
    ∃ e e', Statement.ofSpan s.src s.span = .error e ∧ Statement.ofSpan s'.src s'.span = .error e' ∧
      L.Fails e e' := by
  have hspan : ∀ t : Passage,
      Statement.ofSpan t.src t.span = Prod.fst <$> Statement.read (t.cursor 0) := by
    intro t
    rw [t.cursor_zero]
    rfl
  obtain ⟨_, _, n, hr, -, -, ⟨-, l, hl, rfl, rfl⟩, hr'⟩ | ⟨e, hr, hr'⟩ :=
    reads_statement (L := L) hs
  · replace hr' := hr' fun _ => .inr trivial
    rw [alone_cursor] at hr'
    exact .inl ⟨l, hl, by rw [hspan, hr]; rfl, by rw [hspan, hr']; rfl⟩
  · obtain ⟨e', hr', hfails⟩ := hr' ⟨rfl, rfl⟩
    rw [alone_cursor] at hr'
    exact .inr ⟨e, e', by rw [hspan, hr]; rfl, by rw [hspan, hr']; rfl, hfails⟩

/-! ## Statements of one layout -/

theorem view_name {l : NameLayout} (h : l.Fits s) :
    L.left.text (l.name s) = L.right.text (l.name s') := by
  cases l with
  | token i => exact L.name_eq i
  | text i j => exact L.text_view h.1 h.2

/-- Statements of one layout look the same. -/
theorem view_statement {l : StatementLayout} (hs : 0 < s.length) (h : l.Fits s) :
    (l.statement s).view L.left = (l.statement s').view L.right := by
  have hstart := L.start_eq 0 hs
  have htext := L.text_view hs le_rfl
  have hread : ∀ e : Layout, (∃ m n, s.ReadsAs e m n) →
      (e.value s).view L.left = (e.value s').view L.right := by
    rintro e ⟨m, n, he⟩
    exact L.view_value e he.fits
  have hopt : ∀ e? : Option Layout, (∀ e ∈ e?, ∃ m n, s.ReadsAs e m n) →
      (e?.map (Layout.value s)).map (Value.view L.left) =
        (e?.map (Layout.value s')).map (Value.view L.right) := by
    intro e? he
    cases e? with
    | none => rfl
    | some e => exact congrArg some (hread e (he e rfl))
  cases l with
  | table => simp only [StatementLayout.statement, Statement.view, TableDef.view, hstart, L.name_eq]
  | field l =>
    have hvalue := hopt l.value fun e he => by
      obtain ⟨m, n, -, h⟩ := h.value e he
      exact ⟨m + 1, n, h⟩
    simp only [StatementLayout.statement, Statement.view, FieldLayout.definition, FieldDef.view,
      hstart, L.view_name h.name, L.name_eq, hvalue, hopt _ h.default, hopt _ h.assert]
  | event l =>
    have hactions : (l.actions.map (Layout.value s)).map (Value.view L.left) =
        (l.actions.map (Layout.value s')).map (Value.view L.right) := by
      rw [List.map_map, List.map_map]
      exact List.map_congr_left fun e he => hread e (h.actions e he)
    simp only [StatementLayout.statement, Statement.view, EventLayout.definition, EventDef.view,
      hstart, L.name_eq, hopt _ h.when?, hactions]
  | define | raw =>
    simp only [StatementLayout.statement, Statement.view, hstart, htext, L.length_eq]

theorem ofSpan_related (L : Likeness s s') (hs : 0 < s.length) :
    (∃ st st', Statement.ofSpan s.src s.span = .ok st ∧ Statement.ofSpan s'.src s'.span = .ok st' ∧
      st.view L.left = st'.view L.right) ∨
    ∃ e e', Statement.ofSpan s.src s.span = .error e ∧ Statement.ofSpan s'.src s'.span = .error e' ∧
      L.Fails e e' := by
  obtain ⟨l, hl, h, h'⟩ | h := L.ofSpan_layout hs
  · exact .inl ⟨_, _, h, h', L.view_statement hs hl⟩
  · exact .inr h

end Likeness

end AccessLayer.Surql
