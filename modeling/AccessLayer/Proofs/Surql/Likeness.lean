import AccessLayer.Proofs.Surql.Groups
import AccessLayer.Proofs.Surql.WordCase

/-!
# Statements that read alike

Two statements are alike when their tokens agree one by one in all that the readers look at: the
class, the keyword or operator that a token is, and the source text between two tokens. Readers then
take the same way through both. They read as many tokens of the one as of the other, fail at the
same token, and give results that look the same when each is seen through its own view, which
forgets where the statements differ.

The second statement may also be a part of a definition, where the first word of a clause or the end
comes next. Readers look at most two tokens ahead, and a bracket of the part is closed in it, so
what is read from the first statement is read from the part too, unless it ends there and depends on
what comes next.

* `View`: how offsets and texts of a result are seen.
* `Likeness`: two statements with a view of each.
* `Likeness.Track.carries_raw`, `Likeness.Track.carries_jump`: the steps that could leave the
  statement never do.
-/

namespace AccessLayer.Surql

open Reader

/-! ## Views -/

/-- How the offsets and the texts of a result are seen. -/
structure View where
  offset : Nat → Nat
  text : Bytes → Bytes

namespace Value

mutual

/-- An expression as it is seen. -/
def view (w : View) : Value → Value
  | literal pos kind raw elems => literal (w.offset pos) kind (w.text raw) (viewAll w elems)
  | param pos name => param (w.offset pos) (w.text name)
  | call pos kind name args => call (w.offset pos) kind (w.text name) (viewAll w args)
  | binary pos left op right => binary (w.offset pos) (view w left) op (view w right)
  | other pos kind raw => other (w.offset pos) kind (w.text raw)

def viewAll (w : View) : List Value → List Value
  | [] => []
  | v :: vs => view w v :: viewAll w vs

end

end Value

/-- A table definition as it is seen. -/
def TableDef.view (w : View) (d : TableDef) : TableDef :=
  { d with pos := w.offset d.pos, name := w.text d.name }

/-- A field definition as it is seen. -/
def FieldDef.view (w : View) (d : FieldDef) : FieldDef where
  pos := w.offset d.pos
  name := w.text d.name
  table := w.text d.table
  kind := d.kind
  value := d.value.map (Value.view w)
  default := d.default.map (Value.view w)
  assert := d.assert.map (Value.view w)
  flexible := d.flexible
  readonly := d.readonly

/-- An event definition as it is seen. -/
def EventDef.view (w : View) (d : EventDef) : EventDef where
  pos := w.offset d.pos
  name := w.text d.name
  table := w.text d.table
  when? := d.when?.map (Value.view w)
  actions := d.actions.map (Value.view w)

def Statement.view (w : View) : Statement → Statement
  | .table d => .table (d.view w)
  | .field d => .field (d.view w)
  | .event d => .event (d.view w)
  | .define pos kind source => .define (w.offset pos) kind (w.text source)
  | .raw pos keyword source => .raw (w.offset pos) keyword (w.text source)

/-! ## Likeness -/

/-- Two statements whose tokens agree in all that the readers look at, each with a view that forgets
where it differs from the other. -/
structure Likeness (s s' : Passage) where
  left : View
  right : View
  sound : s.Sound
  sound' : s'.Sound
  length_eq : s'.length = s.length
  kind_eq : ∀ i, (s'.token i).kind = (s.token i).kind
  keyword_eq : ∀ i w, (s'.token i).isKeyword w = (s.token i).isKeyword w
  literal_eq : ∀ i, (s.token i).kind ≠ .ident → (s'.token i).literal = (s.token i).literal
  upper_eq : ∀ i, Bytes.toUpper (s'.token i).literal = Bytes.toUpper (s.token i).literal
  lower_eq : ∀ i, Bytes.toLower (s'.token i).literal = Bytes.toLower (s.token i).literal
  part_eq : ∀ i, Bytes.hasPart "::" (s'.token i).literal = Bytes.hasPart "::" (s.token i).literal
  name_eq : ∀ i, left.text (s.token i).literal = right.text (s'.token i).literal
  text_eq : ∀ x, left.text x = right.text x
  start_eq : ∀ i, i < s.length →
    left.offset (s.token i).start.offset = right.offset (s'.token i).start.offset
  adjacent_eq : ∀ i, i + 1 < s.length →
    ((s'.token (i + 1)).start.offset == (s'.token i).stop) =
      ((s.token (i + 1)).start.offset == (s.token i).stop)
  slice_eq : ∀ i j, i ≤ j → j < s.length → s'.text i j = s.text i j

/-- The same fault, noticed at another token. -/
def ParseFault.about (t : Token) : ParseFault → ParseFault
  | .expectedKind kind _ => .expectedKind kind t
  | .expectedKeyword word _ => .expectedKeyword word t
  | .expectedDefinitionKind _ => .expectedDefinitionKind t
  | .expectedName what _ => .expectedName what t
  | .expectedOn _ => .expectedOn t
  | .expectedType _ => .expectedType t
  | .expectedObjectKey _ => .expectedObjectKey t
  | .expectedRecordId _ => .expectedRecordId t
  | .expectedElseOrEnd _ => .expectedElseOrEnd t
  | .unexpectedAfterDot _ => .unexpectedAfterDot t
  | .unexpectedInTraversal _ => .unexpectedInTraversal t
  | .unexpectedInExpression _ => .unexpectedInExpression t
  | .lex fault => .lex fault
  | .unclosed kind => .unclosed kind
  | .unexpectedCloser kind => .unexpectedCloser kind
  | .tooDeep => .tooDeep
  | .outOfRange => .outOfRange

theorem ParseFault.isAbort_about (fault : ParseFault) (t : Token) :
    (fault.about t).isAbort = fault.isAbort := by
  cases fault <;> rfl

/-- Messages show of a token what `Token.describe` says, and no more. -/
theorem ParseFault.message_about (fault : ParseFault) {t t' : Token}
    (h : t.describe = t'.describe) : (fault.about t).message = (fault.about t').message := by
  cases fault <;> simp only [about, message, h]

namespace Likeness

variable {s s' : Passage} (L : Likeness s s')

theorem operator_eq (L : Likeness s s') (i : Nat) (w : Bytes) :
    (s'.token i).isOperator w = (s.token i).isOperator w := by
  unfold Token.isOperator
  rw [L.kind_eq]
  by_cases hk : (s.token i).kind = .operator
  · rw [L.literal_eq i (by rw [hk]; decide)]
  · rw [beq_eq_false_iff_ne.2 hk, Bool.false_and, Bool.false_and]

/-- Two errors with the same fault, noticed at the same token. -/
def Fails (_ : Likeness s s') (e e' : ParseError) : Prop :=
  ∃ (fault : ParseFault) (i : Nat), fault.isAbort = false ∧ i ≤ s.length ∧
    e = ⟨fault.about (s.token i), (s.token i).start⟩ ∧
    e' = ⟨fault.about (s'.token i), (s'.token i).start⟩

/-- What is equal for the tokens one by one is equal for the tokens that are left. -/
theorem map_rest_eq (L : Likeness s s') {γ : Type} {g : Token → γ}
    (hg : ∀ i, g (s'.token i) = g (s.token i)) (m : Nat) :
    (s.cursor m).rest.map g = (s'.cursor m).rest.map g := by
  apply List.ext_getElem
  · rw [List.length_map, List.length_map, s.length_rest, s'.length_rest, L.length_eq]
  · intro i h1 h2
    simp only [Passage.cursor, List.getElem_map, List.getElem_drop, Passage.getElem_eq_token]
    exact (hg (m + i)).symm

end Likeness

/-- A token that follows another one without a gap does so at another place too. -/
theorem Passage.Shifted.adjacent_eq {d : Nat} {s s' : Passage} (h : Passage.Shifted d s s')
    {i : Nat} (hi : i + 1 < s.length) :
    ((s'.token (i + 1)).start.offset == (s'.token i).stop) =
      ((s.token (i + 1)).start.offset == (s.token i).stop) := by
  rw [(h.token hi).start, (h.token (i := i) (by omega)).stop, Bool.eq_iff_iff]
  simp

/-- A statement is alike itself at another place, if both are seen without what differs. -/
def Passage.Shifted.likeness {d : Nat} {s s' : Passage} (h : Passage.Shifted d s s')
    (left right : View)
    (hoffset : ∀ p, left.offset p = right.offset (p + d))
    (htext : ∀ x, left.text x = right.text x) : Likeness s s' where
  left := left
  right := right
  sound := h.sound
  sound' := h.sound'
  length_eq := h.length_eq
  kind_eq i := (h.token_eq i).1
  keyword_eq i w := by rw [Token.isKeyword, Token.isKeyword, (h.token_eq i).1, (h.token_eq i).2]
  literal_eq i _ := (h.token_eq i).2
  upper_eq i := by rw [(h.token_eq i).2]
  lower_eq i := by rw [(h.token_eq i).2]
  part_eq i := by rw [(h.token_eq i).2]
  name_eq i := by rw [(h.token_eq i).2, htext]
  text_eq := htext
  start_eq i hi := by rw [(h.token hi).start, hoffset]
  adjacent_eq _ hi := h.adjacent_eq hi
  slice_eq _ _ hij hj := h.text_eq hij hj

/-! ## Tracks -/

/-- The first words of the clauses of a field. -/
def clauseWords : List Bytes :=
  ["FLEXIBLE", "READONLY", "TYPE", "DEFAULT", "VALUE", "ASSERT", "COMMENT"]

/-- A token that ends a part of a definition. -/
def Token.IsBreak (t : Token) : Prop :=
  t.kind = .endOfInput ∨ ∃ w ∈ clauseWords, t.isKeyword w = true

theorem Token.IsBreak.kind {t : Token} (h : t.IsBreak) : t.kind ∈ [.endOfInput, .ident] := by
  obtain h | ⟨w, -, h⟩ := h
  · rw [h]
    decide
  · rw [Passage.kind_of_isKeyword h]
    decide

/-- A word that is no clause is not what ends a part. -/
theorem Token.IsBreak.isKeyword_eq {t : Token} (h : t.IsBreak) {w : Bytes}
    (hw : ∀ w' ∈ clauseWords, Token.sameWord w' w = false) : t.isKeyword w = false := by
  obtain h | ⟨w', hw', h⟩ := h
  · rw [Token.isKeyword, h]
    rfl
  · rw [Token.isKeyword, Bool.and_eq_true] at h
    rw [Token.isKeyword, h.1, Token.sameWord_left h.2, hw w' hw']
    rfl

/-- Where the second of two alike statements is read: alone, or after the first tokens of a
definition, in which a clause or the end comes next. -/
structure Likeness.Track {s s' : Passage} (L : Likeness s s') where
  host : Passage
  first : Nat
  le : first + s.length ≤ host.length
  token_eq : ∀ {i}, i < s.length → host.token (first + i) = s'.token i
  next : (host.token (first + s.length)).IsBreak
  raw?_eq : ∀ {i m}, i < m → m ≤ s.length →
    (host.cursor (first + m)).raw? (s'.token i).start.offset = some (s'.text i (m - 1))
  groupEnd_eq : ∀ {m}, (s.token m).kind.isOpener = true →
    host.groupEnd (first + m) = first + s.groupEnd m
  statementLength_eq : ∀ {m}, m + Cursor.statementLength 0 (s.cursor m).rest < s.length →
    Cursor.statementLength 0 (host.cursor (first + m)).rest =
      Cursor.statementLength 0 (s.cursor m).rest
  /-- The statement is read alone, or its brackets are closed in it. -/
  closed : host = s' ∧ first = 0 ∨ ∀ {m}, (s.token m).kind.isOpener = true →
    m + 1 < s.groupEnd m ∧ (s.token (s.groupEnd m - 1)).kind.isCloser = true

namespace Likeness

variable {s s' : Passage}

/-- The second statement is read alone. -/
def alone (L : Likeness s s') : L.Track where
  host := s'
  first := 0
  le := by rw [Nat.zero_add, L.length_eq]
  token_eq _ := by rw [Nat.zero_add]
  next := by
    rw [Nat.zero_add]
    exact .inl (L.sound'.kind_end L.length_eq.le)
  raw?_eq hi hm := by
    rw [Nat.zero_add]
    exact Passage.raw?_cursor L.sound' hi (L.length_eq ▸ hm)
  groupEnd_eq {m} _ := by
    have := Cursor.balancedLength_congr (L.map_rest_eq L.kind_eq (m + 1)) 1
    rw [Nat.zero_add, Nat.zero_add]
    exact congrArg (m + 1 + ·) this.symm
  statementLength_eq {m} _ := by
    rw [Nat.zero_add]
    exact (Cursor.statementLength_congr (L.map_rest_eq L.kind_eq m) 0).symm
  closed := .inl ⟨rfl, rfl⟩

namespace Track

variable {L : Likeness s s'} (T : L.Track) {m : Nat} {k : TokenKind} {w : Bytes} {i : Nat}

/-- The cursor after `m` tokens of the second statement. -/
def cursor (m : Nat) : Cursor := T.host.cursor (T.first + m)

/-- The token that is seen after `m` tokens of the second statement. -/
def token (m : Nat) : Token := T.host.token (T.first + m)

/-- The second statement is read alone. -/
def IsAlone : Prop := T.host = s' ∧ T.first = 0

@[simp] theorem peek_cursor (m : Nat) : (T.cursor m).peek = T.token m := T.host.peek_cursor _

@[simp] theorem peekAt_cursor (m n : Nat) : (T.cursor m).peekAt n = T.token (m + n) := by
  rw [cursor, Passage.peekAt_cursor, Nat.add_assoc, token]

variable {T}

theorem IsAlone.cursor_eq (h : T.IsAlone) (m : Nat) : T.cursor m = s'.cursor m := by
  rw [cursor, h.1, h.2, Nat.zero_add]

theorem IsAlone.token_eq (h : T.IsAlone) (m : Nat) : T.token m = s'.token m := by
  rw [token, h.1, h.2, Nat.zero_add]

variable (T)

/-- A class that is neither a word nor the end is seen in both statements or in none. -/
theorem kind_beq (hm : m ≤ s.length) (hk : k ∉ [.endOfInput, .ident]) :
    ((T.token m).kind == k) = ((s.token m).kind == k) := by
  obtain hlt | rfl := Nat.lt_or_eq_of_le hm
  · rw [token, T.token_eq hlt, L.kind_eq]
  · have hne : ∀ k' ∈ [TokenKind.endOfInput, .ident], (k' == k) = false := by
      intro k' hk'
      rw [beq_eq_false_iff_ne]
      rintro rfl
      exact hk hk'
    rw [token, hne _ T.next.kind, L.sound.kind_end le_rfl, hne _ (by simp)]

theorem isOperator_eq (hm : m ≤ s.length) (w : Bytes) :
    (T.token m).isOperator w = (s.token m).isOperator w := by
  obtain hlt | rfl := Nat.lt_or_eq_of_le hm
  · rw [token, T.token_eq hlt, L.operator_eq]
  · have := T.kind_beq le_rfl (k := .operator) (by decide)
    rw [L.sound.kind_end le_rfl] at this
    rw [Token.isOperator, Token.isOperator, this, L.sound.kind_end le_rfl]
    rfl

/-- A word that is seen in both statements or in none: any word where the second one is read alone,
or else one that starts no clause. -/
def Sees (w : Bytes) : Prop := T.IsAlone ∨ ∀ w' ∈ clauseWords, Token.sameWord w' w = false

variable {T} in
theorem Sees.isKeyword_eq (h : T.Sees w) (hm : m ≤ s.length) :
    (T.token m).isKeyword w = (s.token m).isKeyword w := by
  obtain hlt | rfl := Nat.lt_or_eq_of_le hm
  · rw [token, T.token_eq hlt, L.keyword_eq]
  · obtain h | h := h
    · rw [h.token_eq, L.keyword_eq]
    · rw [token, T.next.isKeyword_eq h, L.sound.isKeyword_end le_rfl]

/-! ## Carrying -/

/-- Two readers that are started after `m` tokens end alike: what the first reads from the first
statement is related to what the second reads from the second, after as many tokens. Where the
second statement is part of a definition and used up, this is asked of results with `ok` alone.
Where it is read alone, the second reader fails at the same token as the first. -/
def Carries {α β : Type} (ok : α → Prop) (r : Reader α) (r' : Reader β) (m : Nat)
    (P : α → β → Nat → Prop) : Prop :=
  (∃ x y n, r (s.cursor m) = .ok (x, s.cursor n) ∧ m ≤ n ∧ n ≤ s.length ∧ P x y n ∧
    ((n = s.length → T.IsAlone ∨ ok x) → r' (T.cursor m) = .ok (y, T.cursor n))) ∨
  ∃ e, r (s.cursor m) = .error e ∧ (T.IsAlone → ∃ e', r' (T.cursor m) = .error e' ∧ L.Fails e e')

/-- The two readers end alike whatever the result is. -/
abbrev Reads {α β : Type} (r : Reader α) (r' : Reader β) (m : Nat) (P : α → β → Nat → Prop) :
    Prop :=
  T.Carries (fun _ => True) r r' m P

section Rules

variable {T} {α β γ δ : Type} {r : Reader α} {r' : Reader β} {f : α → Reader γ} {f' : β → Reader δ}
  {ok : α → Prop} {ok' : γ → Prop} {P : α → β → Nat → Prop} {Q : γ → δ → Nat → Prop}

theorem Carries.mono {Q : α → β → Nat → Prop} (h : T.Carries ok r r' m P)
    (hp : ∀ x y n, m ≤ n → n ≤ s.length → P x y n → Q x y n) : T.Carries ok r r' m Q := by
  obtain ⟨x, y, n, hr, hmn, hn, h, hr'⟩ | h := h
  · exact .inl ⟨x, y, n, hr, hmn, hn, hp x y n hmn hn h, hr'⟩
  · exact .inr h

/-- What is related is what the first reader gives. -/
theorem Carries.run (h : T.Carries ok r r' m P) :
    T.Carries ok r r' m fun x y n => r (s.cursor m) = .ok (x, s.cursor n) ∧ P x y n := by
  obtain ⟨x, y, n, hr, hmn, hn, h, hr'⟩ | h := h
  · exact .inl ⟨x, y, n, hr, hmn, hn, ⟨hr, h⟩, hr'⟩
  · exact .inr h

/-- Where the second statement is read alone, nothing is asked of the results. -/
theorem Carries.reads (h : L.alone.Carries ok r r' m P) : L.alone.Reads r r' m P := by
  obtain ⟨x, y, n, hr, hmn, hn, h, hr'⟩ | h := h
  · exact .inl ⟨x, y, n, hr, hmn, hn, h, fun _ => hr' fun _ => .inl ⟨rfl, rfl⟩⟩
  · exact .inr h

/-- Readers one after the other: the second pair is started where the first has ended. A result that
ends the statement has to be one with `ok` if the second result is. -/
theorem Carries.bind (h : T.Carries ok r r' m P)
    (hend : ∀ x y c, f x (s.cursor s.length) = .ok (y, c) → ok' y → ok x)
    (hf : ∀ x y n, m ≤ n → n ≤ s.length → P x y n → T.Carries ok' (f x) (f' y) n Q) :
    T.Carries ok' (r >>= f) (r' >>= f') m Q := by
  obtain ⟨x, y, n, hr, hmn, hn, h, hr'⟩ | ⟨e, hr, hr'⟩ := h
  · obtain ⟨z, w, k, hz, hnk, hk, h, hz'⟩ | ⟨e, hz, hz'⟩ := hf x y n hmn hn h
    · refine .inl ⟨z, w, k, (bind_ok hr f).trans hz, by omega, hk, h, fun hok => ?_⟩
      have hokx : n = s.length → T.IsAlone ∨ ok x := by
        rintro rfl
        exact (hok (by omega)).imp id (hend x z _ hz)
      rw [bind_ok (hr' hokx), hz' hok]
    · refine .inr ⟨e, (bind_ok hr f).trans hz, fun halone => ?_⟩
      rw [bind_ok (hr' fun _ => .inl halone)]
      exact hz' halone
  · refine .inr ⟨e, bind_error hr f, fun halone => ?_⟩
    obtain ⟨e', he', hfails⟩ := hr' halone
    exact ⟨e', bind_error he' f', hfails⟩

theorem Reads.bind (h : T.Reads r r' m P)
    (hf : ∀ x y n, m ≤ n → n ≤ s.length → P x y n → T.Carries ok' (f x) (f' y) n Q) :
    T.Carries ok' (r >>= f) (r' >>= f') m Q :=
  Carries.bind h (fun _ _ _ _ _ => trivial) hf

theorem carries_pure {x : α} {y : β} (hm : m ≤ s.length) (h : P x y m) :
    T.Carries ok (pure x) (pure y) m P :=
  .inl ⟨x, y, m, rfl, le_rfl, hm, h, fun _ => rfl⟩

/-- The last reader of a block. -/
theorem carries_last (h : T.Carries ok (r >>= pure) (r' >>= pure) m P) : T.Carries ok r r' m P := by
  rwa [bind_pure, bind_pure] at h

theorem carries_discard {f : PUnit → Reader γ} {f' : PUnit → Reader δ}
    (h : T.Carries ok' (r >>= fun _ => f ⟨⟩) (r' >>= fun _ => f' ⟨⟩) m Q) :
    T.Carries ok' (discard r >>= f) (discard r' >>= f') m Q := by
  have hdiscard : ∀ {ε : Type} (x : Reader ε), discard x = x >>= fun _ => pure PUnit.unit :=
    fun x => rfl
  rwa [hdiscard, hdiscard, bind_assoc, bind_assoc]

/-- A reader that is known by what it does at the two cursors. -/
theorem carries_step {x : α} {y : β} {n : Nat} (hr : r (s.cursor m) = .ok (x, s.cursor n))
    (hr' : r' (T.cursor m) = .ok (y, T.cursor n)) (hmn : m ≤ n) (hn : n ≤ s.length)
    (h : T.Carries ok' (f x) (f' y) n Q) : T.Carries ok' (r >>= f) (r' >>= f') m Q := by
  have hread : T.Reads r r' m fun x' y' n' => x' = x ∧ y' = y ∧ n' = n :=
    .inl ⟨x, y, n, hr, hmn, hn, ⟨rfl, rfl, rfl⟩, fun _ => hr'⟩
  refine hread.bind ?_
  rintro _ _ _ _ _ ⟨rfl, rfl, rfl⟩
  exact h

/-- Readers that fail at the same token. -/
theorem carries_error (fault : ParseFault) (hf : fault.isAbort = false) (hi : i ≤ s.length)
    (hr : r (s.cursor m) = .error ⟨fault.about (s.token i), (s.token i).start⟩)
    (hr' : r' (s'.cursor m) = .error ⟨fault.about (s'.token i), (s'.token i).start⟩) :
    T.Carries ok r r' m P := by
  refine .inr ⟨_, hr, fun halone => ⟨_, ?_, fault, i, hf, hi, rfl, rfl⟩⟩
  rw [halone.cursor_eq, hr']

/-- A reader that always uses up a part of a definition, with a result that nothing is asked of. -/
theorem carries_void (hpart : ¬ T.IsAlone)
    (h : ∀ x c, r (s.cursor m) = .ok (x, c) → m ≤ s.length ∧ c = s.cursor s.length ∧ ¬ ok x ∧
      ∃ y, P x y s.length) :
    T.Carries ok r r' m P := by
  cases hr : r (s.cursor m) with
  | error e => exact .inr ⟨e, hr, fun halone => absurd halone hpart⟩
  | ok p =>
    obtain ⟨x, c⟩ := p
    obtain ⟨hm, rfl, hnot, y, hy⟩ := h x c hr
    exact .inl ⟨x, y, s.length, hr, hm, le_rfl, hy, fun hok =>
      absurd (hok rfl) (not_or.2 ⟨hpart, hnot⟩)⟩

end Rules

/-! ## Looking ahead -/

section Looking

variable {α β : Type} {ok : α → Prop} {P : α → β → Nat → Prop}

theorem carries_get {f : Cursor → Reader α} {f' : Cursor → Reader β}
    (h : T.Carries ok (f (s.cursor m)) (f' (T.cursor m)) m P) :
    T.Carries ok (get >>= f) (get >>= f') m P := h

theorem carries_peek {f : Token → Reader α} {f' : Token → Reader β}
    (h : T.Carries ok (f (s.token m)) (f' (T.token m)) m P) :
    T.Carries ok (peek >>= f) (peek >>= f') m P := by
  rw [← s.peek_cursor, ← T.peek_cursor] at h
  exact h

theorem carries_check (hm : m ≤ s.length) (hk : k ∉ [.endOfInput, .ident]) {f : Bool → Reader α}
    {f' : Bool → Reader β} (hyes : (s.token m).kind = k → m < s.length →
      T.Carries ok (f true) (f' true) m P)
    (hno : (s.token m).kind ≠ k → T.Carries ok (f false) (f' false) m P) :
    T.Carries ok (check k >>= f) (check k >>= f') m P := by
  unfold check
  simp only [bind_assoc, pure_bind]
  refine T.carries_peek ?_
  rw [T.kind_beq hm hk]
  by_cases hkind : (s.token m).kind = k
  · rw [beq_iff_eq.2 hkind]
    refine hyes hkind (L.sound.lt_of_kind_eq hkind ?_)
    rintro rfl
    exact hk (by simp)
  · rw [beq_eq_false_iff_ne.2 hkind]
    exact hno hkind

/-- A failure at a token of both statements. -/
theorem carries_fail (fault : ParseFault) (hf : fault.isAbort = false) (hi : i ≤ s.length) :
    T.Carries ok (failAt (s.token i) (fault.about (s.token i)))
      (failAt (T.token i) (fault.about (T.token i))) m P := by
  refine .inr ⟨_, rfl, fun halone => ⟨_, rfl, fault, i, hf, hi, rfl, ?_⟩⟩
  rw [halone.token_eq]

end Looking

/-! ## Moving -/

section Moving

variable {α β γ δ : Type} {ok : α → Prop} {P : α → β → Nat → Prop} {f' : Unit → Reader β}
  {f : Unit → Reader α}

theorem carries_advance {f : Token → Reader α} {f' : Token → Reader β} (hm : m < s.length)
    (h : T.Carries ok (f (s.token m)) (f' (s'.token m)) (m + 1) P) :
    T.Carries ok (advance >>= f) (advance >>= f') m P := by
  have hle := T.le
  have hr' := Passage.advance_ok (s := T.host) (m := T.first + m) (by omega)
  rw [T.token_eq hm] at hr'
  exact carries_step (Passage.advance_ok hm) hr' (Nat.le_succ m) hm h

theorem carries_skip {f : PUnit → Reader α} {f' : PUnit → Reader β} (hm : m < s.length)
    (h : T.Carries ok (f ⟨⟩) (f' ⟨⟩) (m + 1) P) :
    T.Carries ok (discard advance >>= f) (discard advance >>= f') m P :=
  carries_discard (T.carries_advance hm h)

/-- A token is read that may not be the end of the statement, where both readers fail. -/
theorem carries_advance_or_fail {f : Token → Reader α} {f' : Token → Reader β} (hm : m ≤ s.length)
    (fault : ParseFault) (hf : fault.isAbort = false)
    (hend : ∀ t, t.kind = .endOfInput →
      f t = failAt t (fault.about t) ∧ f' t = failAt t (fault.about t))
    (h : m < s.length → T.Carries ok (f (s.token m)) (f' (s'.token m)) (m + 1) P) :
    T.Carries ok (advance >>= f) (advance >>= f') m P := by
  obtain hlt | rfl := Nat.lt_or_eq_of_le hm
  · exact T.carries_advance hlt (h hlt)
  · have hstop := bind_ok (Passage.advance_end (s := s) le_rfl) f
    have hstop' := bind_ok (Passage.advance_end L.length_eq.le) f'
    rw [(hend _ (L.sound.kind_end le_rfl)).1] at hstop
    rw [(hend _ (L.sound'.kind_end L.length_eq.le)).2] at hstop'
    exact carries_error fault hf le_rfl hstop hstop'

theorem carries_expect (hk : k ≠ .endOfInput) (hm : m ≤ s.length)
    (h : (s.token m).kind = k → m < s.length → T.Carries ok (f ()) (f' ()) (m + 1) P) :
    T.Carries ok (expect k >>= f) (expect k >>= f') m P := by
  by_cases hkind : (s.token m).kind = k
  · have hlt := L.sound.lt_of_kind_eq hkind hk
    have hle := T.le
    have hkind' : (T.host.token (T.first + m)).kind = k := by rw [T.token_eq hlt, L.kind_eq, hkind]
    exact carries_step (Passage.expect_ok hlt hkind) (Passage.expect_ok (by omega) hkind')
      (Nat.le_succ m) hlt
      (h hkind hlt)
  · have hkind' : (s'.token m).kind ≠ k := by rwa [L.kind_eq]
    exact carries_error (.expectedKind k (s.token m)) rfl hm
      (bind_error (Passage.expect_error hkind) f)
      (bind_error (Passage.expect_error hkind') f')

theorem carries_expectKeyword (hm : m ≤ s.length)
    (h : (s.token m).isKeyword w → m < s.length → T.Carries ok (f ()) (f' ()) (m + 1) P) :
    T.Carries ok (expectKeyword w >>= f) (expectKeyword w >>= f') m P := by
  cases hw : (s.token m).isKeyword w with
  | true =>
    have hlt := L.sound.lt_of_isKeyword hw
    have hle := T.le
    have hw' : (T.host.token (T.first + m)).isKeyword w = true := by
      rw [T.token_eq hlt, L.keyword_eq, hw]
    exact carries_step (Passage.expectKeyword_ok hlt hw) (Passage.expectKeyword_ok (by omega) hw')
      (Nat.le_succ m)
      hlt (h hw hlt)
  | false =>
    have hw' : (s'.token m).isKeyword w = false := by rw [L.keyword_eq, hw]
    exact carries_error (.expectedKeyword w (s.token m)) rfl hm
      (bind_error (Passage.expectKeyword_error hw) f)
        (bind_error (Passage.expectKeyword_error hw') f')

theorem carries_accept (hw : T.Sees w) {f : Bool → Reader α} {f' : Bool → Reader β}
    (hm : m ≤ s.length)
    (hyes : (s.token m).isKeyword w → m < s.length → T.Carries ok (f true) (f' true) (m + 1) P)
    (hno : T.Carries ok (f false) (f' false) m P) :
    T.Carries ok (acceptKeyword w >>= f) (acceptKeyword w >>= f') m P := by
  have heq := hw.isKeyword_eq hm
  cases hkey : (s.token m).isKeyword w with
  | true =>
    have hlt := L.sound.lt_of_isKeyword hkey
    have hle := T.le
    exact carries_step (Passage.acceptKeyword_true hlt hkey)
      (Passage.acceptKeyword_true (by omega) (heq.trans hkey))
      (Nat.le_succ m) hlt (hyes hkey hlt)
  | false =>
    exact carries_step (Passage.acceptKeyword_false hkey)
      (Passage.acceptKeyword_false (heq.trans hkey)) le_rfl hm hno

/-- The source text since a token that was read is the same in both statements. -/
theorem carries_raw {f : Bytes → Reader α} {f' : Bytes → Reader β} (hi : i < m) (hm : m ≤ s.length)
    (h : T.Carries ok (f (s.text i (m - 1))) (f' (s'.text i (m - 1))) m P) :
    T.Carries ok (Reader.raw (s.token i).start.offset >>= f)
      (Reader.raw (s'.token i).start.offset >>= f') m P := by
  refine carries_step (Passage.raw_cursor L.sound hi hm) ?_ le_rfl hm h
  rw [Reader.raw, bind_ok (get_ok _), cursor, T.raw?_eq hi hm]
  rfl

theorem carries_jump {k : Nat} (hk : m + k ≤ s.length) (h : T.Carries ok (f ()) (f' ()) (m + k) P) :
    T.Carries ok (jump k >>= f) (jump k >>= f') m P := by
  have hle := T.le
  have hr' := Passage.jump_ok (s := T.host) (m := T.first + m) (k := k) (by omega)
  rw [Nat.add_assoc] at hr'
  exact carries_step (Passage.jump_ok hk) hr' (by omega) hk h

theorem carries_skipBalanced (ho : (s.token m).kind.isOpener)
    (h : ∀ n, m < n → n ≤ s.length → s.Whole m n → T.Carries ok (f ()) (f' ()) n P) :
    T.Carries ok (skipBalanced >>= f) (skipBalanced >>= f') (m + 1) P := by
  have hm : m < s.length := L.sound.lt_of_kind fun hk => by rw [hk] at ho; cases ho
  have hle := T.le
  obtain ⟨hlt, hlen⟩ := Passage.groupEnd_bounds hm
  have hr' := Passage.skipBalanced_ok (s := T.host) (m := T.first + m) (by omega)
  rw [T.groupEnd_eq ho] at hr'
  exact carries_step (Passage.skipBalanced_ok hm) hr' hlt hlen
    (h _ hlt hlen (Passage.whole_groupEnd hm ho))

theorem reads_skipBalanced (ho : (s.token m).kind.isOpener) :
    T.Reads skipBalanced skipBalanced (m + 1) fun _ _ n => s.Whole m n :=
  carries_last (T.carries_skipBalanced ho fun _ _ hn hw => carries_pure hn hw)

/-- An embedded statement starts with a word and ends before a closing bracket, or with the
statement that it stands in. -/
theorem carries_skipStatement (hm : m < s.length) (hk : (s.token m).kind = .ident)
    (hend : ∀ y c, f () (s.cursor s.length) = .ok (y, c) → ¬ ok y)
    (h : ∀ n, m < n → n ≤ s.length → s.Whole m n → T.Carries ok (f ()) (f' ()) n P) :
    T.Carries ok (skipStatement >>= f) (skipStatement >>= f') m P := by
  have hle := T.le
  obtain ⟨hpos, hlen⟩ := Passage.statementLength_bounds hm hk
  have hread : T.Carries (fun _ => False) skipStatement skipStatement m
      fun _ _ n => n = m + Cursor.statementLength 0 (s.cursor m).rest := by
    refine .inl ⟨⟨⟩, ⟨⟩, _, Passage.skipStatement_ok hlen, by omega, hlen, rfl, fun hok => ?_⟩
    have hlength : Cursor.statementLength 0 (T.cursor m).rest =
        Cursor.statementLength 0 (s.cursor m).rest := by
      obtain hlt | hlast := Nat.lt_or_eq_of_le hlen
      · exact T.statementLength_eq hlt
      · obtain halone | hfalse := hok hlast
        · rw [halone.cursor_eq]
          exact (Cursor.statementLength_congr (L.map_rest_eq L.kind_eq m) 0).symm
        · exact hfalse.elim
    have hr' := Passage.skipStatement_ok (s := T.host) (m := T.first + m)
      (by rw [← cursor, hlength]; omega)
    rw [← cursor, hlength, Nat.add_assoc] at hr'
    exact hr'
  refine hread.bind (fun _ => hend) ?_
  rintro _ _ _ _ hn rfl
  exact h _ (by omega) hn (Passage.whole_statement hm.le)

end Moving

/-! ## Reading the second statement alone -/

section Alone

variable {α β : Type} {P : α → β → Nat → Prop} {f : Token → Reader α} {f' : Token → Reader β}

theorem alone_cursor (m : Nat) : L.alone.cursor m = s'.cursor m := IsAlone.cursor_eq ⟨rfl, rfl⟩ m

theorem alone_token (m : Nat) : L.alone.token m = s'.token m := IsAlone.token_eq ⟨rfl, rfl⟩ m

theorem alone_sees (w : Bytes) : L.alone.Sees w := .inl ⟨rfl, rfl⟩

theorem reads_get {f : Cursor → Reader α} {f' : Cursor → Reader β}
    (h : L.alone.Reads (f (s.cursor m)) (f' (s'.cursor m)) m P) :
    L.alone.Reads (get >>= f) (get >>= f') m P :=
  L.alone.carries_get (by rwa [alone_cursor])

theorem reads_peek (h : L.alone.Reads (f (s.token m)) (f' (s'.token m)) m P) :
    L.alone.Reads (peek >>= f) (peek >>= f') m P :=
  L.alone.carries_peek (by rwa [alone_token])

/-- Reading a token that may be the end of input, which stays. -/
theorem reads_advance_any (hm : m ≤ s.length)
    (h : ∀ n, n ≤ s.length → (n = m + 1 ∨ n = m ∧ m = s.length) →
      L.alone.Reads (f (s.token m)) (f' (s'.token m)) n P) :
    L.alone.Reads (advance >>= f) (advance >>= f') m P := by
  by_cases hlt : m < s.length
  · exact L.alone.carries_advance hlt (h _ hlt (.inl rfl))
  · have hend' := Passage.advance_end (s := s') (m := m) (by rw [L.length_eq]; omega)
    rw [← alone_cursor (L := L)] at hend'
    exact carries_step (Passage.advance_end (by omega)) hend' le_rfl hm
      (h m hm (.inr ⟨rfl, by omega⟩))

theorem reads_skipToEnd {f : Unit → Reader α} {f' : Unit → Reader β} (hm : m ≤ s.length)
    (h : L.alone.Reads (f ()) (f' ()) s.length P) :
    L.alone.Reads (skipToEnd >>= f) (skipToEnd >>= f') m P := by
  have hskip : ∀ t : Passage, t.length = s.length →
      skipToEnd (t.cursor m) = .ok (⟨⟩, t.cursor s.length) := by
    intro t ht
    show Except.ok (PUnit.unit, (t.cursor m).skip (t.cursor m).rest.length) = _
    rw [t.length_rest, t.skip_cursor (by omega), ht, Nat.add_sub_cancel' hm]
  refine carries_step (hskip s rfl) ?_ hm le_rfl h
  rw [alone_cursor, alone_cursor]
  exact hskip s' L.length_eq

end Alone

end Track

end Likeness

end AccessLayer.Surql
