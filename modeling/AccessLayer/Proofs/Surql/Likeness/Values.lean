import AccessLayer.Proofs.Surql.Layout
import AccessLayer.Proofs.Surql.Likeness.Kinds
import AccessLayer.Proofs.Surql.Precedence

/-!
# Expressions of alike statements

Expressions are read alike from statements that are alike: what is read has the same layout in both,
which starts with the first token that was left and closes all brackets. So it takes at least that
token and looks the same in both statements. Where the second statement is part of a definition,
this is not so of names and of embedded statements at its end, which look at the next word or take
the rest of the definition.

* `Likeness.view_value`: expressions of one layout look the same.
* `Likeness.Track.at?_eq`, `Likeness.at?_kind`, `Likeness.at?_width`: the same operators stand in
  both statements, and an operator has all its tokens.
* `Likeness.Track.carriesValue_exprFuel`: expressions are read alike with a unit of fuel for each
  token that is left.
-/

namespace AccessLayer.Surql

namespace Value

mutual

/-- Whether an expression is made of literals, parameters, calls, operators and parentheses. -/
def isPlain : Value → Bool
  | literal _ _ _ elems => allPlain elems
  | param _ _ => true
  | call _ _ _ args => allPlain args
  | binary _ left _ right => left.isPlain && right.isPlain
  | other _ kind _ => kind == .subquery

/-- The same of each of several expressions. -/
def allPlain : List Value → Bool
  | [] => true
  | v :: vs => v.isPlain && allPlain vs

end

end Value

/-- A word with a colon in it starts no statement. -/
theorem contains_toUpper_of_colon {w : Bytes} (h : Bytes.byte ':' ∈ w) :
    statementKeywords.contains (Bytes.toUpper w) = false := by
  have hcolon : ∀ w ∈ statementKeywords, Bytes.byte ':' ∉ w := by decide
  rw [List.contains_eq_mem, decide_eq_false_iff_not]
  exact fun hmem => Bytes.toUpper_ne_of_colon h (hcolon _ hmem) rfl

namespace Likeness

variable {s s' : Passage} (L : Likeness s s')

/-! ## Tokens that decide -/

theorem isKey_eq (L : Likeness s s') (i : Nat) :
    Value.isKey (s'.token i) = Value.isKey (s.token i) := by
  simp only [Value.isKey, L.kind_eq]

/-- An operator takes one or two tokens, which are symbols or words. -/
theorem at?_kind {m : Nat} {op : BinaryOp} (h : BinaryOp.at? (s.cursor m) = some op) :
    0 < op.width ∧ ∀ k, m ≤ k → k < m + op.width →
      (s.token k).kind ∈ [.lt, .gt, .operator, .ident] := by
  obtain ⟨-, hfirst, hwidth⟩ := BinaryOp.at?_name h
  rw [Passage.peek_cursor] at hfirst
  rw [Passage.peekAt_cursor] at hwidth
  obtain ⟨hone, -⟩ | ⟨htwo, hnext, -⟩ := hwidth
  · refine ⟨by omega, fun k hmk hkm => ?_⟩
    obtain rfl : k = m := by omega
    exact hfirst
  · refine ⟨by omega, fun k hmk hkm => ?_⟩
    obtain rfl | rfl : k = m ∨ k = m + 1 := by omega
    · exact hfirst
    · rw [hnext]
      decide

theorem at?_width (L : Likeness s s') {m : Nat} {op : BinaryOp}
    (h : BinaryOp.at? (s.cursor m) = some op) : 0 < op.width ∧ m + op.width ≤ s.length := by
  obtain ⟨hpos, hkind⟩ := at?_kind h
  have hlast := hkind (m + op.width - 1) (by omega) (by omega)
  have := L.sound.lt_of_kind (i := m + op.width - 1) fun hk => by simp [hk] at hlast
  omega

/-! ## Expressions of one layout -/

/-- Two expressions of one layout, which takes the tokens from `m` up to `n`. -/
def ValueFrom (_ : Likeness s s') (m : Nat) (v v' : Value) (n : Nat) : Prop :=
  ∃ e : Layout, s.Stands e m n ∧ v = e.value s ∧ v' = e.value s'

/-- Two lists of expressions of the same layouts, each after `k` tokens of its own. -/
def ListFrom (_ : Likeness s s') (k m : Nat) (vs vs' : List Value) (n : Nat) : Prop :=
  ∃ es : List Layout, s.StandAll k es m n ∧ vs = Layout.values s es ∧ vs' = Layout.values s' es

/-- The start of a token looks the same. -/
theorem start_view {i j : Nat} (hij : i < j) (hj : j ≤ s.length) :
    L.left.offset (s.token i).start.offset = L.right.offset (s'.token i).start.offset :=
  L.start_eq i (by omega)

/-- The source text of the tokens from `i` up to `j` looks the same. -/
theorem text_view {i j : Nat} (hij : i < j) (hj : j ≤ s.length) :
    L.left.text (s.text i (j - 1)) = L.right.text (s'.text i (j - 1)) := by
  rw [L.slice_eq i (j - 1) (by omega) (by omega), L.text_eq]

mutual

theorem view_value (e : Layout) {m n : Nat} (h : s.Fits e m n) :
    (e.value s).view L.left = (e.value s').view L.right := by
  have hstart := L.start_view h.lt h.le
  have htext := L.text_view h.lt h.le
  cases h with
  | token | param | name => simp only [Layout.value, Value.view, Value.viewAll, ← L.name_eq, hstart]
  | flat | source =>
    simp only [Layout.value, Layout.values, Value.view, Value.viewAll, hstart, htext]
  | array _ h | object _ h =>
    simp only [Layout.value, Value.view, hstart, htext, viewAll_values _ h]
  | call _ _ h => simp only [Layout.value, Value.view, ← L.name_eq, hstart, viewAll_values _ h]
  | script _ _ h => simp only [Layout.value, Value.view, L.text_eq, hstart, viewAll_values _ h]
  | cast _ _ h =>
    simp only [Layout.value, Value.view, Value.viewAll, L.text_eq, hstart, view_value _ h]
  | binary hleft _ hright =>
    simp only [Layout.value, Value.view, hleft.first_eq, hstart, view_value _ hleft,
      view_value _ hright]
termination_by structural e

theorem viewAll_values (es : List Layout) {k m n : Nat} (h : s.FitsAll k es m n) :
    Value.viewAll L.left (Layout.values s es) = Value.viewAll L.right (Layout.values s' es) := by
  cases h with
  | nil => simp only [Layout.values, Value.viewAll]
  | last h => simp only [Layout.values, Value.viewAll, view_value _ h]
  | cons h _ hes => simp only [Layout.values, Value.viewAll, view_value _ h, viewAll_values _ hes]
termination_by structural es

end

variable {L} {d m n : Nat} {kind : LiteralKind} {op : BinaryOp} {w : Bytes} {k : TokenKind}

namespace ValueFrom

variable {v v' : Value}

theorem lt (h : L.ValueFrom m v v' n) : m < n := by
  obtain ⟨e, he, -, -⟩ := h
  exact he.fits.lt

theorem run (h : L.ValueFrom m v v' n) : s.Whole m n := by
  obtain ⟨e, he, -, -⟩ := h
  exact he.run

theorem pos (h : L.ValueFrom m v v' n) :
    v.pos = (s.token m).start.offset ∧ v'.pos = (s'.token m).start.offset := by
  obtain ⟨e, he, rfl, rfl⟩ := h
  rw [e.pos_value, e.pos_value, he.fits.first_eq]
  exact ⟨rfl, rfl⟩

end ValueFrom

theorem valueFrom_token (hm : m < s.length) (hk : (s.token m).kind ≠ .param)
    (hrun : s.Whole m (m + 1))
    (hkind : kind ∉ [.array, .object] ∧ (kind = .record → (s.token m).kind = .recordId)) :
    L.ValueFrom m (.literal (s.token m).start.offset kind (s.token m).literal [])
      (.literal (s'.token m).start.offset kind (s'.token m).literal []) (m + 1) :=
  ⟨.token m kind, ⟨.token hm hk, hkind, hrun⟩, rfl, rfl⟩

/-- The source text of some tokens, as a literal or as anything else. -/
theorem stands_flat (hmn : m < n) (hn : n ≤ s.length) (hw : s.Whole m n) :
    s.Stands (.text m n kind []) m n :=
  ⟨.flat hmn hn, ⟨hw, trivial⟩, hw⟩

theorem stands_source {kind : OpaqueKind} (hmn : m < n) (hn : n ≤ s.length) (hw : s.Whole m n) :
    s.Stands (.source m n kind) m n :=
  ⟨.source hmn hn, hw, hw⟩

/-- The words of an operator are no brackets. -/
theorem whole_op (h : BinaryOp.at? (s.cursor m) = some op) : s.Whole m (m + op.width) := by
  obtain ⟨-, hkind⟩ := at?_kind h
  have hall : ∀ k, k ≤ op.width → s.Whole m (m + k) := by
    intro k hk
    induction k with
    | zero => exact .refl m
    | succ k ih =>
      have hplain : ∀ k ∈ [TokenKind.lt, .gt, .operator, .ident],
          (k.isOpener || k.isCloser) = false := by decide
      exact (ih (by omega)).trans (.plain (hplain _ (hkind (m + k) (by omega) (by omega))))
  exact hall op.width le_rfl

theorem kind_of_isArrow {t : Token} (h : Value.isArrow t) : t.kind = .operator := by
  unfold Value.isArrow at h
  rw [Bool.or_eq_true_iff, Bool.or_eq_true_iff] at h
  obtain (h | h) | h := h
  all_goals exact Passage.kind_of_isOperator h

theorem kind_of_isSign {t : Token} (h : Value.isSign t) : t.kind = .operator := by
  unfold Value.isSign at h
  obtain h | h := Bool.or_eq_true_iff.1 h
  all_goals exact Passage.kind_of_isOperator h

/-- Words and symbols are no brackets. -/
theorem whole_keyword (h : (s.token m).isKeyword w) : s.Whole m (m + 1) :=
  .plain (by rw [Passage.kind_of_isKeyword h]; rfl)

theorem whole_operator (h : (s.token m).kind = .operator) : s.Whole m (m + 1) :=
  .plain (by rw [h]; rfl)

/-- A literal that is a word is neither an array nor an object nor a record. -/
theorem wordLiteral?_kind (h : Value.wordLiteral? w = some kind) :
    kind ∉ [.array, .object] ∧ (kind = .record → k = .recordId) := by
  unfold Value.wordLiteral? at h
  split_ifs at h <;> cases h <;> exact ⟨by decide, fun hrecord => by cases hrecord⟩

/-- A token that is a literal by its class is no bracket, and a record only if it says so. -/
theorem tokenLiteral?_kind (h : Value.tokenLiteral? k = some kind) :
    (k.isOpener || k.isCloser) = false ∧ kind ∉ [.array, .object] ∧
      (kind = .record → k = .recordId) := by
  cases k <;> cases h <;> decide

theorem wordBranches_end (L : Likeness s s') {nested : Reader Value} {fuel : Nat} {y : Unit}
    {c : Cursor} : Value.wordBranches nested fuel (s.cursor s.length) ≠ .ok (y, c) := by
  intro h
  cases fuel with
  | zero => cases h
  | succ fuel =>
    have hno : ∀ w, (s.token s.length).isKeyword w = false := fun w => L.sound.isKeyword_end le_rfl
    rw [Value.wordBranches, Reader.bind_ok (Passage.acceptKeyword_false (hno _)), if_neg (by simp),
      Reader.bind_ok (Passage.acceptKeyword_false (hno _)), if_neg (by simp),
        Reader.bind_ok Passage.peek_ok] at h
    cases h

/-- Where the statement ends, nothing is added to a left operand. -/
theorem climb_end (L : Likeness s s') {fuel : Nat} {expr : Nat → Reader Value} {least : Nat}
    {left v : Value} {c : Cursor}
    (h : Value.climb expr least fuel left (s.cursor s.length) = .ok (v, c)) : v = left := by
  cases fuel with
  | zero => cases h
  | succ fuel =>
    rw [Value.climb, Reader.bind_ok (Reader.get_ok _), BinaryOp.at?, Passage.peek_cursor,
      L.sound.kind_end le_rfl] at h
    cases h
    rfl

namespace Track

variable (T : L.Track) {ok : Value → Prop}

theorem isSign_eq (hm : m ≤ s.length) : Value.isSign (T.token m) = Value.isSign (s.token m) := by
  rw [Value.isSign, Value.isSign, T.isOperator_eq hm, T.isOperator_eq hm]

theorem isArrow_eq (hm : m ≤ s.length) : Value.isArrow (T.token m) = Value.isArrow (s.token m) := by
  rw [Value.isArrow, Value.isArrow, T.isOperator_eq hm, T.isOperator_eq hm, T.isOperator_eq hm]

/-- Whether a statement starts is seen at two tokens. -/
theorem startsStatement_eq (hm : T.token m = s'.token m)
    (hnext : T.token (m + 1) = s'.token (m + 1) ∨ (s.token m).kind ≠ .ident) :
    startsStatement (T.cursor m) = startsStatement (s.cursor m) := by
  simp only [startsStatement, peek_cursor, peekAt_cursor, Passage.peek_cursor,
    Passage.peekAt_cursor, hm, L.kind_eq, L.upper_eq, L.keyword_eq]
  obtain hnext | hk := hnext
  · rw [hnext, L.kind_eq]
    by_cases hk : (s.token (m + 1)).kind = .ident
    · simp only [hk]
    · rw [L.literal_eq _ hk]
  · simp only [beq_eq_false_iff_ne.2 hk, Bool.false_and]

/-- The same operators stand in both statements: none stands where a part of a definition ends, and
none of two words begins there. -/
theorem at?_eq (hm : m ≤ s.length) : BinaryOp.at? (T.cursor m) = BinaryOp.at? (s.cursor m) := by
  obtain hlt | rfl := Nat.lt_or_eq_of_le hm
  · have hword : ∀ w ∈ (["NOT", "IN", "INSIDE"] : List Bytes),
        (T.token (m + 1)).isKeyword w = (s.token (m + 1)).isKeyword w := by
      have hfree : ∀ w ∈ (["NOT", "IN", "INSIDE"] : List Bytes), ∀ w' ∈ clauseWords,
          Token.sameWord w' w = false := by
        decide
      exact fun w hw => Sees.isKeyword_eq (.inr (hfree w hw)) hlt
    simp only [List.forall_mem_cons] at hword
    have hnext : (s.token (m + 1)).isKeyword "IN" = true ∨
        (s.token (m + 1)).isKeyword "INSIDE" = true →
        Bytes.toUpper (T.token (m + 1)).literal = Bytes.toUpper (s.token (m + 1)).literal := by
      intro h
      rw [token, T.token_eq (h.elim L.sound.lt_of_isKeyword L.sound.lt_of_isKeyword), L.upper_eq]
    have htoken : T.token m = s'.token m := T.token_eq hlt
    simp only [BinaryOp.at?, BinaryOp.ofWord?, peek_cursor, peekAt_cursor, Passage.peek_cursor,
      Passage.peekAt_cursor, htoken, L.kind_eq, L.upper_eq, hword.1, hword.2.1, hword.2.2.1]
    by_cases hk : (s.token m).kind = .ident
    · by_cases hin : ((s.token (m + 1)).isKeyword "IN" || (s.token (m + 1)).isKeyword "INSIDE") =
        true
      · simp only [hk, hnext (Bool.or_eq_true_iff.1 hin)]
      · simp only [hk, if_neg hin]
    · rw [L.literal_eq _ hk]
      split <;> first | rfl | contradiction
  · have hnone : BinaryOp.at? (s.cursor s.length) = none := by
      rw [BinaryOp.at?, Passage.peek_cursor, L.sound.kind_end le_rfl]
    rw [hnone, BinaryOp.at?, peek_cursor, token]
    obtain h | ⟨w, hw, h⟩ := T.next
    · rw [h]
    · have hwords : ∀ w ∈ clauseWords, Bytes.toUpper w = w ∧
          w ∉ (["OR", "AND", "IS", "NOT"] : List Bytes) ∧
          BinaryOp.wordOps.contains w = false := by
        decide
      obtain ⟨hupper, hplain, hop⟩ := hwords w hw
      obtain ⟨hk, hword⟩ := Token.toUpper_of_isKeyword h hupper
      simp only [List.mem_cons, List.not_mem_nil, or_false, not_or] at hplain
      rw [hk, hword]
      simp only [BinaryOp.ofWord?, beq_eq_false_iff_ne.2 hplain.1, beq_eq_false_iff_ne.2 hplain.2.1,
        beq_eq_false_iff_ne.2 hplain.2.2.1, beq_eq_false_iff_ne.2 hplain.2.2.2, hop,
          Bool.false_eq_true, if_false]

/-- Whether a sign stands directly before a number is the same in both statements. -/
theorem signedNumber_eq (hm : m ≤ s.length) :
    (Value.isSign (T.token m) && (T.token (m + 1)).kind == .number &&
        (T.token (m + 1)).start.offset == (T.token m).stop) =
      (Value.isSign (s.token m) && (s.token (m + 1)).kind == .number &&
        (s.token (m + 1)).start.offset == (s.token m).stop) := by
  rw [T.isSign_eq hm]
  cases hsign : Value.isSign (s.token m) with
  | false => rfl
  | true =>
    have hlt := L.sound.lt_of_kind_eq (kind_of_isSign hsign) (by decide)
    rw [T.kind_beq hlt (by decide)]
    by_cases hk : (s.token (m + 1)).kind = .number
    · have hlt' := L.sound.lt_of_kind_eq hk (by decide)
      rw [token, token, T.token_eq hlt, T.token_eq hlt', L.adjacent_eq m hlt']
    · rw [beq_eq_false_iff_ne.2 hk]
      rfl

/-- Two readers of expressions that read alike where fewer than `d` tokens are left. -/
def CarriesValue (d : Nat) (r r' : Reader Value) : Prop :=
  ∀ m, m ≤ s.length → s.length < m + d →
    T.Carries (fun v => v.isPlain = true) r r' m (L.ValueFrom m)

/-- The same of readers that take `k` tokens before an expression. -/
def CarriesPart (k d : Nat) (r r' : Reader Value) : Prop :=
  ∀ m, m ≤ s.length → s.length < m + d → T.Carries (fun v => v.isPlain = true) r r' m
    fun v v' n => s.Whole m (m + k) ∧ L.ValueFrom (m + k) v v' n

section Rules

variable {α β γ δ : Type} {r : Reader α} {r' : Reader β} {ok : α → Prop} {ok' : γ → Prop}
  {P : α → β → Nat → Prop} {Q : γ → δ → Nat → Prop} {T}

/-- Nothing is expected where the statement ends. -/
theorem Carries.bind_expect (hk : k ≠ .endOfInput) {f : α → Reader γ} {f' : β → Reader δ}
    (h : T.Carries ok r r' m P)
    (hf : ∀ x y n, m ≤ n → P x y n → (s.token n).kind = k → n < s.length →
      T.Carries ok' (f x) (f' y) (n + 1) Q) :
    T.Carries ok' (r >>= fun x => Reader.expect k >>= fun _ => f x)
      (r' >>= fun y => Reader.expect k >>= fun _ => f' y) m Q := by
  refine h.bind (fun x y c hend => ?_) fun x y n hmn hn hP =>
    T.carries_expect hk hn fun hkind hlt => hf x y n hmn hP hkind hlt
  rw [Reader.bind_error (Passage.expect_error
    (by rw [L.sound.kind_end le_rfl]; exact hk.symm))] at hend
  cases hend

theorem Carries.bind_expectKeyword {f : α → Reader γ} {f' : β → Reader δ}
    (h : T.Carries ok r r' m P)
    (hf : ∀ x y n, m ≤ n → P x y n → (s.token n).isKeyword w → n < s.length →
      T.Carries ok' (f x) (f' y) (n + 1) Q) :
    T.Carries ok' (r >>= fun x => Reader.expectKeyword w >>= fun _ => f x)
      (r' >>= fun y => Reader.expectKeyword w >>= fun _ => f' y) m Q := by
  refine h.bind (fun x y c hend => ?_) fun x y n hmn hn hP =>
    T.carries_expectKeyword hn fun hkey hlt => hf x y n hmn hP hkey hlt
  rw [Reader.bind_error (Passage.expectKeyword_error (L.sound.isKeyword_end le_rfl))] at hend
  cases hend

end Rules

variable {T} {fuel fuel' : Nat} {nested nested' : Reader Value}

theorem CarriesValue.part (h : T.CarriesValue d nested nested') :
    T.CarriesPart 0 d nested nested' :=
  fun m hm hd => (h m hm hd).mono fun _ _ _ _ _ hv => ⟨.refl m, hv⟩

/-- An expression that is kept as the source text since its first token. -/
theorem carries_source {kind : OpaqueKind} (hm : m < n) (hn : n ≤ s.length) (hw : s.Whole m n) :
    T.Carries ok
      (Reader.raw (s.token m).start.offset >>= fun x =>
        pure (Value.other (s.token m).start.offset kind x))
      (Reader.raw (s'.token m).start.offset >>= fun x =>
        pure (Value.other (s'.token m).start.offset kind x)) n
      (L.ValueFrom m) :=
  T.carries_raw hm hn (carries_pure hn ⟨.source m n kind, stands_source hm hn hw, rfl, rfl⟩)

/-! ## Lists, words and branches -/

theorem carries_elements {k : Nat} (hr : T.CarriesPart k d nested nested') {closer : TokenKind}
    (hc : closer ∉ [.endOfInput, .ident]) (hm : m ≤ s.length) (hd : s.length < m + d)
    (hf : s.length < m + fuel) (hle : fuel ≤ fuel') :
    T.Carries (fun vs => Value.allPlain vs = true) (Value.elements nested closer fuel)
      (Value.elements nested' closer fuel') m (L.ListFrom k m) := by
  induction fuel generalizing fuel' m with
  | zero => omega
  | succ fuel ih =>
    obtain _ | fuel' := fuel'
    · omega
    refine T.carries_check hm hc (fun _ _ =>
      carries_pure hm ⟨[], ⟨.nil, trivial, .refl m⟩, rfl, rfl⟩) (fun _ => ?_)
    refine (hr m hm hd).bind ?_ ?_
    · intro v vs c hvs hplain
      rw [Reader.bind_ok (Passage.check_ok .comma), L.sound.kind_end le_rfl] at hvs
      cases hvs
      rw [Value.allPlain, Bool.and_eq_true] at hplain
      exact hplain.1
    rintro _ _ n hmn hn ⟨hk, e, he, rfl, rfl⟩
    have hlt := he.fits.lt
    have hw := hk.trans he.run
    refine T.carries_check hn (by decide) (fun hcomma hn' => ?_)
      (fun _ => carries_pure hn ⟨[e], ⟨.last he.fits, ⟨he.whole, trivial⟩, hw⟩, rfl, rfl⟩)
    refine T.carries_skip hn' ?_
    refine (ih hn' (by omega) (by omega) (by omega)).bind ?_ ?_
    · intro vs ws c hws hplain
      cases hws
      rw [Value.allPlain, Bool.and_eq_true] at hplain
      exact hplain.2
    rintro _ _ n' _ hn' ⟨es, hes, rfl, rfl⟩
    refine carries_pure hn' ⟨e :: es, ⟨.cons he.fits hcomma hes.fits, ⟨he.whole, hes.whole⟩, ?_⟩,
      rfl, rfl⟩
    exact (hw.trans (.plain (by rw [hcomma]; rfl))).trans hes.run

/-- The words that divide the branches of a conditional are no clauses. -/
theorem sees_branchWords : ∀ w ∈ (["ELSE", "IF", "END"] : List Bytes), T.Sees w := by
  have hwords : ∀ w ∈ (["ELSE", "IF", "END"] : List Bytes), ∀ w' ∈ clauseWords,
      Token.sameWord w' w = false := by
    decide
  exact fun w hw => .inr (hwords w hw)

theorem reads_recordKey (hm : m ≤ s.length) :
    T.Reads Value.recordKey Value.recordKey m fun _ _ n => s.Whole m n := by
  refine T.carries_advance_or_fail hm (.expectedRecordId (s.token m)) rfl
    (fun t ht => by simp only [ht]; exact ⟨rfl, rfl⟩) fun hlt => ?_
  rw [L.kind_eq]
  split
  iterate 3
    next hk => exact carries_pure hlt (.plain (by rw [hk]; rfl))
  iterate 3
    next hk => exact T.reads_skipBalanced (by rw [hk]; rfl)
  exact carries_error (.expectedRecordId (s.token m)) rfl hm rfl rfl

/-- A word whose next token is not seen in the definition as it is in the statement is the last one,
and what it is alone is no plain expression. -/
theorem carries_lastWord (hk : (s.token m).kind = .ident)
    (hliteral : Value.wordLiteral? (Bytes.toUpper (s.token m).literal) = none)
    (hif : (Bytes.toUpper (s.token m).literal == "IF") = false)
    (hdiffer : startsStatement (T.cursor m) ≠ startsStatement (s.cursor m)) {r' : Reader Value} :
    T.Carries (fun v => v.isPlain = true) (Value.wordValue nested fuel) r' m (L.ValueFrom m) := by
  have hm := L.sound.lt_of_kind_eq hk (by decide)
  have hpart : ¬ T.IsAlone := fun h =>
    hdiffer (T.startsStatement_eq (h.token_eq _) (.inl (h.token_eq _)))
  have hlast : m + 1 = s.length := by
    by_contra hne
    exact hdiffer (T.startsStatement_eq (T.token_eq hm) (.inl (T.token_eq (by omega))))
  refine carries_void hpart fun v c hv => ?_
  rw [Value.wordValue, Reader.bind_ok (Reader.get_ok _)] at hv
  simp only [Passage.peek_cursor, Passage.peekAt_cursor, hliteral, hif, Bool.false_eq_true,
    if_false] at hv
  cases hstarts : startsStatement (s.cursor m) with
  | true =>
    obtain ⟨hpos, hlen⟩ := Passage.statementLength_bounds hm hk
    rw [hstarts, if_pos rfl, Reader.bind_ok (Passage.skipStatement_ok hlen),
      show m + _ = s.length by omega, Reader.bind_ok (Passage.raw_cursor L.sound hm le_rfl)] at hv
    cases hv
    have hw := Passage.whole_statement (s := s) hm.le
    rw [show m + _ = s.length by omega] at hw
    exact ⟨hm.le, rfl, Bool.false_ne_true, _, .source m s.length .statement,
      stands_source hm le_rfl hw, rfl, rfl⟩
  | false =>
    have hcolons : Bytes.hasPart "::" (s.token m).literal = false := by
      by_contra hpart
      have hno := contains_toUpper_of_colon (Bytes.mem_of_hasPart _ (Bool.not_eq_false _ ▸ hpart))
      refine hdiffer ?_
      have htoken : T.token m = s'.token m := T.token_eq hm
      simp only [startsStatement, peek_cursor, Passage.peek_cursor, htoken, L.upper_eq, hno,
        Bool.and_false, Bool.false_and]
    have hend : ∀ k, k ≠ .endOfInput → ((s.token (m + 1)).kind == k) = false := fun k hk => by
      rw [L.sound.kind_end hlast.ge, beq_eq_false_iff_ne]
      exact hk.symm
    rw [hstarts, if_neg (by simp), hend _ (by decide), hend _ (by decide), hcolons,
      Bool.and_false] at hv
    simp only [Bool.false_eq_true, if_false] at hv
    rw [Reader.bind_ok (Passage.discard_ok (Passage.advance_ok hm)), hlast] at hv
    cases hv
    refine ⟨hm.le, rfl, Bool.false_ne_true, _, .name m, hlast ▸ ⟨.name hm, trivial, .plain ?_⟩,
      rfl, rfl⟩
    rw [hk]
    rfl

/-! ## Primary expressions -/

section Nested

variable (hr : T.CarriesValue d nested nested')
include hr

/-- The value of an entry comes after its key and colon. -/
theorem carriesPart_entry : T.CarriesPart 2 d (Value.entry nested) (Value.entry nested') := by
  intro m hm hd
  refine T.carries_advance_or_fail hm (.expectedObjectKey (s.token m)) rfl
    (fun t ht => by simp only [Value.isKey, ht]; exact ⟨rfl, rfl⟩) fun hlt => ?_
  rw [L.isKey_eq]
  split
  · next hkey =>
    refine T.carries_expect (by decide) hlt fun hcolon hlt' => (hr (m + 2) hlt' (by omega)).mono ?_
    refine fun _ _ _ _ _ hv => ⟨Passage.Whole.trans (.plain ?_) (.plain (by rw [hcolon]; rfl)), hv⟩
    have hkeys : (s.token m).kind ∈ [.ident, .string, .number] := by
      simpa [Value.isKey, or_assoc] using hkey
    exact (by decide : ∀ k ∈ [TokenKind.ident, .string, .number],
      (k.isOpener || k.isCloser) = false) _ hkeys
  · exact carries_error (.expectedObjectKey (s.token m)) rfl hm rfl rfl

theorem carries_paren (hk : (s.token m).kind = .lparen) (hd : s.length ≤ m + d) :
    T.Carries ok (Value.paren nested) (Value.paren nested') m (L.ValueFrom m) := by
  have hm := L.sound.lt_of_kind_eq hk (by decide)
  have ho : (s.token m).kind.isOpener = true := by rw [hk]; rfl
  have hstarts : startsStatement (T.cursor (m + 1)) = startsStatement (s.cursor (m + 1)) := by
    obtain halone | hclosed := T.closed
    · exact T.startsStatement_eq (IsAlone.token_eq halone _) (.inl (IsAlone.token_eq halone _))
    · -- a word that is closed by the next token is followed by it
      obtain ⟨hlt, hcloser⟩ := hclosed ho
      have hlen := (Passage.groupEnd_bounds hm).2
      refine T.startsStatement_eq (T.token_eq (by omega)) ?_
      by_cases hlast : s.groupEnd m = m + 2
      · rw [hlast] at hcloser
        exact .inr fun hident => by
          rw [show m + 2 - 1 = m + 1 by omega, hident] at hcloser; cases hcloser
      · exact .inl (T.token_eq (by omega))
  refine T.carries_advance hm (T.carries_get ?_)
  rw [hstarts]
  split
  · exact T.carries_skipBalanced ho fun n hmn hn hw => carries_source hmn hn hw
  · refine carries_discard ((hr (m + 1) hm (by omega)).bind_expect (by decide) ?_)
    exact fun _ _ n hmn hv hc hlt =>
      carries_source (by omega) hlt (.between (by rw [hk, hc]; rfl) hv.run hlt)

theorem reads_braceBranches (hm : m ≤ s.length) (hd : s.length < m + d)
    (hf : s.length < m + fuel) (hle : fuel ≤ fuel') :
    T.Reads (Value.braceBranches nested fuel) (Value.braceBranches nested' fuel') m fun _ _ n =>
      s.Whole m n := by
  induction fuel generalizing fuel' m with
  | zero => omega
  | succ fuel ih =>
    obtain _ | fuel' := fuel'
    · omega
    have hbody : ∀ n, m < n → s.Whole m n → (s.token n).kind = .lbrace →
        T.Reads (Reader.skipBalanced >>= fun _ => Value.braceBranches nested fuel)
          (Reader.skipBalanced >>= fun _ => Value.braceBranches nested' fuel') (n + 1) fun _ _ n =>
            s.Whole m n := by
      intro n hmn hw hk
      refine T.carries_skipBalanced (by rw [hk]; rfl) fun n' _ h hw' => ?_
      exact (ih h (by omega) (by omega) (by omega)).mono fun _ _ _ _ _ => (hw.trans hw').trans
    refine T.carries_accept (sees_branchWords "ELSE" (by simp)) hm (fun helse hlt => ?_)
      (carries_pure hm (.refl m))
    refine T.carries_accept (sees_branchWords "IF" (by simp)) hlt (fun hif hlt' => ?_) ?_
    · refine carries_discard ((hr _ hlt' (by omega)).bind_expect (by decide) ?_)
      intro _ _ n hmn hv hk _
      exact hbody n (by omega) (((whole_keyword helse).trans (whole_keyword hif)).trans hv.run) hk
    · exact T.carries_expect (by decide) hlt fun hk _ =>
        hbody _ (Nat.lt_succ_self m) (whole_keyword helse) hk

theorem reads_wordBranches (hm : m ≤ s.length) (hd : s.length < m + d)
    (hf : s.length < m + fuel) (hle : fuel ≤ fuel') :
    T.Reads (Value.wordBranches nested fuel) (Value.wordBranches nested' fuel') m fun _ _ n =>
      s.Whole m n := by
  induction fuel generalizing fuel' m with
  | zero => omega
  | succ fuel ih =>
    obtain _ | fuel' := fuel'
    · omega
    have hbody : ∀ n, m < n → n ≤ s.length → s.Whole m n →
        T.Reads (discard nested >>= fun _ => Value.wordBranches nested fuel)
          (discard nested' >>= fun _ => Value.wordBranches nested' fuel') n fun _ _ n =>
            s.Whole m n := by
      intro n hmn hn hw
      refine carries_discard ((hr n hn (by omega)).bind (fun _ _ _ h =>
        absurd h L.wordBranches_end) ?_)
      intro _ _ n' hnn' hn' hv
      exact (ih hn' (by omega) (by omega) (by omega)).mono fun _ _ _ _ _ => (hw.trans hv.run).trans
    refine T.carries_accept (sees_branchWords "END" (by simp)) hm
      (fun hend hlt => carries_pure hlt (whole_keyword hend)) ?_
    refine T.carries_accept (sees_branchWords "ELSE" (by simp)) hm (fun helse hlt => ?_) ?_
    · refine T.carries_accept (sees_branchWords "IF" (by simp)) hlt (fun hif hlt' => ?_)
        (hbody _ (by omega) hlt (whole_keyword helse))
      refine carries_discard ((hr _ hlt' (by omega)).bind_expectKeyword ?_)
      intro _ _ n hmn hv hthen hlt
      refine hbody _ (by omega) hlt ?_
      exact (((whole_keyword helse).trans (whole_keyword hif)).trans hv.run).trans
        (whole_keyword hthen)
    · exact T.carries_peek (T.carries_fail (.expectedElseOrEnd (s.token m)) rfl hm)

variable (hd : s.length ≤ m + d) (hf : s.length ≤ m + fuel) (hle : fuel ≤ fuel')
include hd hf hle

/-- Arguments stand between an opening parenthesis and a closing one, the last token read. -/
theorem reads_callArgs (hm : m ≤ s.length) :
    T.Reads (Value.callArgs nested fuel) (Value.callArgs nested' fuel') m fun vs vs' n =>
      ∃ j, n = j + 1 ∧ (s.token m).kind = .lparen ∧ L.ListFrom 0 (m + 1) vs vs' j ∧
        (s.token j).kind = .rparen := by
  refine T.carries_expect (by decide) hm fun ho hlt => ?_
  refine (carries_elements hr.part (by decide) hlt (by omega) (by omega) hle).bind_expect
    (by decide) ?_
  exact fun vs vs' n _ hvs hc hlt => carries_pure hlt ⟨n, rfl, ho, hvs, hc⟩

theorem carries_array (ho : (s.token m).kind = .lbracket) :
    T.Carries ok (Value.array nested fuel) (Value.array nested' fuel') m (L.ValueFrom m) := by
  have hm := L.sound.lt_of_kind_eq ho (by decide)
  refine T.carries_advance hm ?_
  refine (carries_elements hr.part (by decide) hm (by omega) (by omega) hle).bind_expect
    (by decide) ?_
  rintro _ _ n hmn ⟨es, hes, rfl, rfl⟩ hc hlt
  have hw : s.Whole m (n + 1) := .between (by rw [ho, hc]; rfl) hes.run hlt
  refine T.carries_raw (by omega) hlt (carries_pure hlt ?_)
  exact ⟨.text m (n + 1) .array es, ⟨.array ho hes.fits hc hlt, ⟨hw, hes.whole⟩, hw⟩, rfl, rfl⟩

theorem carries_objectOrBlock (hk : (s.token m).kind = .lbrace) :
    T.Carries ok (Value.objectOrBlock nested fuel) (Value.objectOrBlock nested' fuel') m
      (L.ValueFrom m) := by
  have hm := L.sound.lt_of_kind_eq hk (by decide)
  have ho : (s.token m).kind.isOpener = true := by rw [hk]; rfl
  have hahead : T.token (m + 1) = s'.token (m + 1) ∧
      ((T.token (m + 2)).kind == .colon) = ((s.token (m + 2)).kind == .colon) := by
    obtain halone | hclosed := T.closed
    · rw [IsAlone.token_eq halone, IsAlone.token_eq halone, L.kind_eq]
      exact ⟨rfl, rfl⟩
    · have hlt := (hclosed ho).1
      have hlen := (Passage.groupEnd_bounds hm).2
      exact ⟨T.token_eq (by omega), T.kind_beq (by omega) (by decide)⟩
  refine T.carries_get ?_
  simp only [peekAt_cursor, Passage.peekAt_cursor, hahead.1, hahead.2, L.kind_eq, L.isKey_eq]
  refine T.carries_advance hm ?_
  split
  · refine (carries_elements (carriesPart_entry hr) (by decide) hm (by omega) (by omega)
      hle).bind_expect
      (by decide) ?_
    rintro _ _ n hmn ⟨es, hes, rfl, rfl⟩ hc hlt
    have hw : s.Whole m (n + 1) := .between (by rw [hk, hc]; rfl) hes.run hlt
    refine T.carries_raw (by omega) hlt (carries_pure hlt ?_)
    exact ⟨.text m (n + 1) .object es, ⟨.object hk hes.fits hc hlt, ⟨hw, hes.whole⟩, hw⟩, rfl, rfl⟩
  · exact T.carries_skipBalanced ho fun n hmn hn hw => carries_source hmn hn hw

theorem carries_conditional (hk : (s.token m).kind = .ident) :
    T.Carries ok (Value.conditional nested fuel) (Value.conditional nested' fuel') m
      (L.ValueFrom m) := by
  have hm := L.sound.lt_of_kind_eq hk (by decide)
  refine T.carries_advance hm
    (carries_discard ((hr _ hm (by omega)).bind ?_ fun _ _ n hmn hn hv => ?_))
  · intro v w c h
    rw [Reader.bind_ok (Passage.check_ok .lbrace), L.sound.kind_end le_rfl] at h
    replace h := h.symm.trans
      (Reader.bind_error (Passage.expectKeyword_error (L.sound.isKeyword_end le_rfl)) _)
    cases h
  have hw : s.Whole m n := .trans (.plain (by rw [hk]; rfl)) hv.run
  refine T.carries_check hn (by decide) (fun hk hlt => ?_) (fun _ => ?_)
  · refine T.carries_skip hlt ?_
    refine T.carries_skipBalanced (by rw [hk]; rfl) fun n' hn' h hw' => ?_
    refine (reads_braceBranches hr h (by omega) (by omega) hle).bind ?_
    exact fun _ _ n'' _ hn'' hw'' => carries_source (by omega) hn'' ((hw.trans hw').trans hw'')
  · refine T.carries_expectKeyword hn fun hthen hlt => ?_
    refine carries_discard ((hr _ hlt (by omega)).bind ?_ ?_)
    · intro v w c h
      obtain ⟨_, _, h, -⟩ := Reader.bind_eq_ok.1 h
      exact absurd h L.wordBranches_end
    intro _ _ n' hnn' hn' hv'
    refine (reads_wordBranches hr hn' (by omega) (by omega) hle).bind ?_
    intro _ _ n'' _ hn'' hw''
    exact carries_source (by omega) hn''
      (((hw.trans (whole_keyword hthen)).trans hv'.run).trans hw'')

theorem carries_wordValue (hk : (s.token m).kind = .ident) :
    T.Carries (fun v => v.isPlain = true) (Value.wordValue nested fuel)
      (Value.wordValue nested' fuel') m
      (L.ValueFrom m) := by
  have hm := L.sound.lt_of_kind_eq hk (by decide)
  have hparam : (s.token m).kind ≠ .param := by
    rw [hk]
    decide
  have htoken : T.token m = s'.token m := T.token_eq hm
  have hword : s.Whole m (m + 1) := .plain (by rw [hk]; rfl)
  by_cases hdiffer : Value.wordLiteral? (Bytes.toUpper (s.token m).literal) = none ∧
      (Bytes.toUpper (s.token m).literal == "IF") = false ∧
      startsStatement (T.cursor m) ≠ startsStatement (s.cursor m)
  · exact carries_lastWord hk hdiffer.1 hdiffer.2.1 hdiffer.2.2
  refine T.carries_get ?_
  simp only [peek_cursor, peekAt_cursor, Passage.peek_cursor, Passage.peekAt_cursor, htoken,
    T.kind_beq hm
    (show TokenKind.lparen ∉ [.endOfInput, .ident] by decide), T.kind_beq hm
    (show TokenKind.colon ∉ [.endOfInput, .ident] by decide), L.upper_eq, L.lower_eq, L.part_eq]
  split
  · next hliteral =>
    refine T.carries_skip hm ?_
    exact carries_pure hm (valueFrom_token hm hparam hword (wordLiteral?_kind hliteral))
  next hliteral =>
  split
  · exact carries_conditional hr hd hf hle hk
  next hif =>
  have hsame : startsStatement (T.cursor m) = startsStatement (s.cursor m) := by
    by_contra hne
    exact hdiffer ⟨hliteral, Bool.eq_false_iff.2 hif, hne⟩
  rw [hsame]
  split
  · refine T.carries_skipStatement hm hk (fun y c h hplain => ?_) fun n hmn hn hw =>
      carries_source hmn hn hw
    obtain ⟨x, c', -, h⟩ := Reader.bind_eq_ok.1 h
    cases h
    cases hplain
  split
  · refine T.carries_skip hm ?_
    refine (reads_callArgs hr (by omega) (by omega) hle hm).bind ?_
    rintro _ _ _ hmn hn ⟨j, rfl, ho, ⟨es, hes, rfl, rfl⟩, hc⟩
    have hargs : s.Whole (m + 1) (j + 1) := .between (by rw [ho, hc]; rfl) hes.run hn
    refine T.carries_expect (by decide) hn fun hb hlt => ?_
    refine T.carries_skipBalanced (by rw [hb]; rfl) fun n hn' h hw => carries_pure h ?_
    refine ⟨.script m (j + 1) n es, ⟨.script hk ho hes.fits hc hb hn' h, hes.whole, ?_⟩, rfl, rfl⟩
    exact (hword.trans hargs).trans hw
  split
  · refine T.carries_skip hm ?_
    refine (reads_callArgs hr (by omega) (by omega) hle hm).bind ?_
    rintro _ _ _ hmn hn ⟨j, rfl, ho, ⟨es, hes, rfl, rfl⟩, hc⟩
    refine carries_pure hn ⟨.call m _ es, ⟨.call hk ho hes.fits hc hn, hes.whole, hword.trans ?_⟩,
      rfl, rfl⟩
    exact .between (by rw [ho, hc]; rfl) hes.run hn
  split
  · next hrecord =>
    have hcolon := L.sound.lt_of_kind_eq (beq_iff_eq.1 hrecord) (by decide)
    refine T.carries_skip hm ?_
    refine T.carries_skip hcolon ?_
    refine (reads_recordKey hcolon).bind ?_
    intro _ _ n hmn hn hw
    have hall : s.Whole m n := (hword.trans (.plain (by rw [beq_iff_eq.1 hrecord]; rfl))).trans hw
    exact T.carries_raw (by omega) hn
      (carries_pure hn ⟨.text m n .record [], stands_flat (by omega) hn hall, rfl, rfl⟩)
  split
  · refine T.carries_skip hm ?_
    exact carries_pure hm (valueFrom_token hm hparam hword ⟨by decide, fun hrecord =>
      by cases hrecord⟩)
  · refine T.carries_skip hm ?_
    exact carries_pure hm ⟨.name m, ⟨.name hm, trivial, hword⟩, rfl, rfl⟩

theorem carries_primary (hm : m ≤ s.length) :
    T.Carries (fun v => v.isPlain = true) (Value.primary nested fuel)
      (Value.primary nested' fuel') m
      (L.ValueFrom m) := by
  obtain hlt | rfl := Nat.lt_or_eq_of_le hm
  · have htoken : T.token m = s'.token m := T.token_eq hlt
    refine T.carries_peek ?_
    rw [htoken, L.kind_eq]
    split
    · next kind hlit =>
      have hparam : (s.token m).kind ≠ .param := fun hk => by
        rw [hk] at hlit
        cases hlit
      obtain ⟨hplain, hkind⟩ := tokenLiteral?_kind hlit
      refine T.carries_skip hlt ?_
      exact carries_pure hlt (valueFrom_token hlt hparam (.plain hplain) hkind)
    split
    · next hk =>
      refine T.carries_skip hlt ?_
      exact carries_pure hlt ⟨.param m, ⟨.param hlt hk, trivial, .plain (by rw [hk]; rfl)⟩,
        rfl, rfl⟩
    · next hk => exact carries_array hr hd hf hle hk
    · next hk => exact carries_objectOrBlock hr hd hf hle hk
    · next hk => exact carries_paren hr hk hd
    · next hk => exact carries_wordValue hr hd hf hle hk
    · exact carries_error (.unexpectedInExpression (s.token m)) rfl hm rfl rfl
  · have hend : ∀ (t : Passage) (x : Reader Value) (k : Nat), t.Sound → t.length ≤ s.length →
        Value.primary x k (t.cursor s.length) =
          .error ⟨.unexpectedInExpression (t.token s.length), (t.token s.length).start⟩ := by
      intro t x k ht hle
      rw [Value.primary, Reader.bind_ok Passage.peek_ok, ht.kind_end hle]
      rfl
    exact carries_error (.unexpectedInExpression (s.token s.length)) rfl le_rfl
      (hend s _ _ L.sound le_rfl)
      (hend s' _ _ L.sound' L.length_eq.le)

end Nested

/-! ## Tails -/

theorem reads_afterDot (hm : m ≤ s.length) :
    T.Reads Value.afterDot Value.afterDot m fun _ _ n => s.Whole m n := by
  refine T.carries_advance_or_fail hm (.unexpectedAfterDot (s.token m)) rfl
    (fun t ht => by simp only [ht, Token.isOperator]; exact ⟨rfl, rfl⟩) fun hlt => ?_
  rw [L.kind_eq, L.operator_eq]
  split
  · next hname =>
    have hw : s.Whole m (m + 1) := .plain (by rw [hname]; rfl)
    refine T.carries_check hlt (by decide) (fun hk hlt' => ?_) (fun _ => carries_pure hlt hw)
    exact T.carries_skip hlt' ((T.reads_skipBalanced (by rw [hk]; rfl)).mono fun _ _ _ _ _ =>
      hw.trans)
  · next hk => exact T.reads_skipBalanced (by rw [hk]; rfl)
  · next hk => exact T.reads_skipBalanced (by rw [hk]; rfl)
  · split
    · next hop => exact carries_pure hlt (whole_operator (Passage.kind_of_isOperator hop))
    · exact carries_error (.unexpectedAfterDot (s.token m)) rfl hm rfl rfl

theorem reads_afterArrow (hm : m ≤ s.length) :
    T.Reads Value.afterArrow Value.afterArrow m fun _ _ n => s.Whole m n := by
  refine T.carries_advance_or_fail hm (.unexpectedInTraversal (s.token m)) rfl
    (fun t ht => by simp only [ht, Token.isOperator]; exact ⟨rfl, rfl⟩) fun hlt => ?_
  rw [L.kind_eq, L.operator_eq]
  split
  · next hk => exact carries_pure hlt (.plain (by rw [hk]; rfl))
  · next hk => exact T.reads_skipBalanced (by rw [hk]; rfl)
  · next hk => exact T.reads_skipBalanced (by rw [hk]; rfl)
  · split
    · next hop => exact carries_pure hlt (whole_operator (Passage.kind_of_isOperator hop))
    · exact carries_error (.unexpectedInTraversal (s.token m)) rfl hm rfl rfl

/-- A step of a tail is read in both statements or in none, and takes at least one token if it is
read. -/
theorem reads_tailStep (hm : m ≤ s.length) :
    T.Reads Value.tailStep Value.tailStep m fun b b' n =>
      b = b' ∧ (b → m < n) ∧ (b = false → n = m) ∧ s.Whole m n := by
  refine T.carries_peek ?_
  rw [T.kind_beq hm (by decide), T.kind_beq hm (by decide), T.isArrow_eq hm]
  split
  · next hk =>
    have hlt := L.sound.lt_of_kind_eq (beq_iff_eq.1 hk) (by decide)
    refine T.carries_skip hlt ((reads_afterDot hlt).bind fun _ _ n hmn hn hw => ?_)
    exact carries_pure hn ⟨rfl, fun _ => hmn, nofun,
      .trans (.plain (by rw [beq_iff_eq.1 hk]; rfl)) hw⟩
  split
  · next hk =>
    have hlt := L.sound.lt_of_kind_eq (beq_iff_eq.1 hk) (by decide)
    refine T.carries_skip hlt ?_
    exact T.carries_skipBalanced (by rw [beq_iff_eq.1 hk]; rfl) fun n hmn hn hw =>
      carries_pure hn ⟨rfl, fun _ => hmn, nofun, hw⟩
  split
  · next harrow =>
    have hk := kind_of_isArrow harrow
    have hlt := L.sound.lt_of_kind_eq hk (by decide)
    refine T.carries_skip hlt ((reads_afterArrow hlt).bind fun _ _ n hmn hn hw => ?_)
    exact carries_pure hn ⟨rfl, fun _ => hmn, nofun, (whole_operator hk).trans hw⟩
  · exact carries_pure hm ⟨rfl, nofun, fun _ => rfl, .refl m⟩

theorem reads_tailSteps (hm : m ≤ s.length) (hf : s.length < m + fuel) (hle : fuel ≤ fuel') :
    T.Reads (Value.tailSteps fuel) (Value.tailSteps fuel') m fun _ _ n => s.Whole m n := by
  induction fuel generalizing fuel' m with
  | zero => omega
  | succ fuel ih =>
    obtain _ | fuel' := fuel'
    · omega
    refine (reads_tailStep hm).bind ?_
    rintro b _ n hmn hn ⟨rfl, hlt, -, hw⟩
    cases b with
    | true => exact (ih hn (by have := hlt rfl; omega) (by omega)).mono fun _ _ _ _ _ => hw.trans
    | false => exact carries_pure hn hw

theorem carriesValue_withTail {one one' : Reader Value} (hr : T.CarriesValue d one one')
    (hf : d ≤ fuel + 1) (hle : fuel ≤ fuel') :
    T.CarriesValue d (Value.withTail one fuel) (Value.withTail one' fuel') := by
  intro m hm hd
  refine (hr m hm hd).bind ?_ fun v v' n hmn hn hv => ?_
  · -- no tail starts where the statement ends
    intro v w c hw hplain
    obtain ⟨b, _, n, hstep, _, hn, ⟨-, hlt, -⟩, -⟩ | ⟨e, he, -⟩ := reads_tailStep (T := T) le_rfl
    · rw [Reader.bind_ok hstep] at hw
      cases b with
      | true => exact absurd (hlt rfl) (by omega)
      | false =>
        cases hw
        exact hplain
    · rw [Reader.bind_error he] at hw
      cases hw
  have hmn := hv.lt
  refine (reads_tailStep hn).bind ?_
  rintro b _ n' hn' h ⟨rfl, hlt, hstay, hw⟩
  cases b with
  | true =>
    refine (reads_tailSteps h (by have := hlt rfl; omega) hle).bind ?_
    intro _ _ n'' _ hn'' hw'
    rw [hv.pos.1, hv.pos.2]
    exact carries_source (by omega) hn'' ((hv.run.trans hw).trans hw')
  | false =>
    obtain rfl := hstay rfl
    exact carries_pure h hv

/-! ## Operators -/

theorem carries_unary {operand operand' : Reader Value} {type type' : Reader Kind}
    (ho : T.CarriesValue (d + 1) operand operand') (ht : T.ReadsKind d type type')
    (hm : m ≤ s.length) (hd : s.length ≤ m + d) (hf : s.length < m + fuel) (hle : fuel ≤ fuel') :
    T.Carries (fun v => v.isPlain = true) (Value.unary operand type fuel)
      (Value.unary operand' type' fuel') m
      (L.ValueFrom m) := by
  induction fuel generalizing fuel' m with
  | zero => omega
  | succ fuel ih =>
    obtain _ | fuel' := fuel'
    · omega
    refine T.carries_get ?_
    simp only [peek_cursor, peekAt_cursor, Passage.peek_cursor, Passage.peekAt_cursor,
      T.signedNumber_eq hm]
    rw [T.isSign_eq hm, T.isOperator_eq hm, T.kind_beq hm (by decide)]
    split
    · next hnum =>
      rw [Bool.and_eq_true_iff, Bool.and_eq_true_iff, beq_iff_eq] at hnum
      have hlt := L.sound.lt_of_kind_eq hnum.1.2 (by decide)
      have hlt' : m < s.length := by omega
      rw [token, T.token_eq hlt']
      refine T.carries_skip hlt' (T.carries_skip hlt ?_)
      have hw : s.Whole m (m + 2) :=
        .trans (whole_operator (kind_of_isSign hnum.1.1)) (.plain (by rw [hnum.1.2]; rfl))
      exact T.carries_raw (by omega) hlt
        (carries_pure hlt ⟨.text m (m + 2) .number [], stands_flat (by omega) hlt hw, rfl, rfl⟩)
    split
    · next hsign =>
      have hk := (Bool.or_eq_true_iff.1 hsign).elim kind_of_isSign Passage.kind_of_isOperator
      have hlt := L.sound.lt_of_kind_eq hk (by decide)
      rw [token, T.token_eq hlt]
      refine T.carries_skip hlt ?_
      refine carries_discard ((ih hlt (by omega) (by omega) (by omega)).bind ?_ ?_)
      · intro v w c hw hplain
        obtain ⟨x, c', -, hw⟩ := Reader.bind_eq_ok.1 hw
        cases hw
        cases hplain
      · exact fun _ _ n hmn hn hv => carries_source hmn hn ((whole_operator hk).trans hv.run)
    split
    · next hk =>
      have hlt := L.sound.lt_of_kind_eq (beq_iff_eq.1 hk) (by decide)
      rw [token, T.token_eq hlt]
      refine T.carries_skip hlt ((ht _ hlt (by omega)).bind ?_)
      rintro k _ n hmn hn ⟨rfl, _, hw⟩
      refine T.carries_expect (by decide) hn fun hgt hlt' => ?_
      refine (ih hlt' (by omega) (by omega) (by omega)).bind ?_ ?_
      · intro v w c hw hplain
        cases hw
        rw [Value.isPlain, Value.allPlain, Bool.and_eq_true] at hplain
        exact hplain.1
      rintro _ _ n' hn' h ⟨e, he, rfl, rfl⟩
      have htype : s.Whole m (n + 1) :=
        (Passage.Whole.trans (.plain (by rw [beq_iff_eq.1 hk]; rfl)) hw).trans
          (.plain (by rw [hgt]; rfl))
      exact carries_pure h ⟨.cast m (n + 1) k e,
        ⟨.cast (beq_iff_eq.1 hk) (by omega) he.fits, he.whole, htype.trans he.run⟩, rfl, rfl⟩
    · exact ho m hm (by omega)

theorem carries_climb {expr expr' : Nat → Reader Value}
    (he : ∀ least, T.CarriesValue d (expr least) (expr' least))
    {least i : Nat} {v v' : Value} (hv : L.ValueFrom i v v' m) (hm : m ≤ s.length)
    (hd : s.length ≤ m + d) (hf : s.length < m + fuel) (hle : fuel ≤ fuel') :
    T.Carries (fun v => v.isPlain = true) (Value.climb expr least fuel v)
      (Value.climb expr' least fuel' v') m
      (L.ValueFrom i) := by
  induction fuel generalizing fuel' m v v' with
  | zero => omega
  | succ fuel ih =>
    obtain _ | fuel' := fuel'
    · omega
    refine T.carries_get ?_
    rw [T.at?_eq hm]
    split
    · exact carries_pure hm hv
    next op hop =>
    obtain ⟨hpos, hlen⟩ := L.at?_width hop
    split
    · exact carries_pure hm hv
    refine T.carries_jump hlen ((he _ _ hlen (by omega)).bind ?_ ?_)
    · intro right w c hw hplain
      rw [L.climb_end hw, Value.isPlain, Bool.and_eq_true] at hplain
      exact hplain.2
    rintro _ _ n hmn hn ⟨right, hright, rfl, rfl⟩
    obtain ⟨left, hleft, rfl, rfl⟩ := hv
    have hrun := (hleft.run.trans (whole_op hop)).trans hright.run
    have hstands : s.Stands (.binary left op right) i n :=
      ⟨.binary hleft.fits hop hright.fits, ⟨hleft.whole, hright.whole⟩, hrun⟩
    refine ih ⟨.binary left op right, hstands, ?_, ?_⟩ hn (by omega) (by omega) (by omega)
    all_goals rw [Layout.pos_value, Layout.value]

theorem carriesValue_exprFuel (hle : fuel ≤ fuel') (least : Nat) :
    T.CarriesValue fuel (exprFuel fuel least) (exprFuel fuel' least) := by
  induction fuel generalizing fuel' least with
  | zero =>
    intro m hm hd
    omega
  | succ fuel ih =>
    obtain _ | fuel' := fuel'
    · omega
    have hle' : fuel ≤ fuel' := by omega
    have hoperand : T.CarriesValue (fuel + 1)
        (Value.withTail (Value.primary (exprFuel fuel 1) fuel) fuel)
        (Value.withTail (Value.primary (exprFuel fuel' 1) fuel') fuel') :=
      carriesValue_withTail (fun m hm hd =>
        carries_primary (ih hle' 1) (by omega) (by omega) hle' hm) le_rfl hle'
    intro m hm hd
    refine (carries_unary hoperand (readsKind_kindFuel hle') hm (by omega) (by omega)
      hle).bind ?_ ?_
    · intro v w c hw hplain
      rwa [L.climb_end hw] at hplain
    intro v v' n hmn hn hv
    have := hv.lt
    exact carries_climb (fun least => ih hle' least) hv hn (by omega) (by omega) hle'

theorem carries_value (hm : m ≤ s.length) :
    T.Carries (fun v => v.isPlain = true) value value m (L.ValueFrom m) := by
  have hle := T.le
  refine T.carries_get ?_
  rw [s.length_rest, cursor, Passage.length_rest]
  exact carriesValue_exprFuel (by omega) 1 m hm (by omega)

end Track

end Likeness

end AccessLayer.Surql
