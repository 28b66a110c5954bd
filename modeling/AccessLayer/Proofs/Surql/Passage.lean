import AccessLayer.Proofs.Surql.TokenStream
import AccessLayer.Surql.Cursor

/-!
# Statements in their source

A statement is read by a cursor that only ever moves forward over its tokens. So the states of
reading it are numbered by the tokens that were read, and what the readers see there is found by
index.

* `Passage.cursor`: the cursor after a number of tokens.
* `Passage.acceptKeyword_true`, `Passage.expect_ok`, …: the basic readers by the next token.
* `Passage.raw_cursor`: the source text since a token that was read is there.
-/

namespace AccessLayer

/-- A piece of a text is the same piece, further on, of a longer text. -/
theorem Bytes.slice_append (before s after : Bytes) {start stop : Nat} (h : start ≤ stop)
    (hs : stop ≤ s.length) :
    slice (before ++ s ++ after) (start + before.length) (stop + before.length) =
      slice s start stop := by
  rw [slice, slice, Nat.add_sub_add_right, List.append_assoc, Nat.add_comm start, ← List.drop_drop,
    List.drop_left, List.drop_append_of_le_length (by omega),
    List.take_append_of_le_length (by rw [List.length_drop]; omega)]

namespace Surql

variable {k : TokenKind} {α β : Type} {r : Reader α} {c c' : Cursor}

/-- A reader goes on with what the reader before it returned. -/
theorem Reader.bind_ok {a : α} (h : r c = .ok (a, c'))
    (f : α → Reader β) : (r >>= f) c = f a c' := by
  show (r c >>= fun p => f p.1 p.2) = _
  rw [h]
  rfl

theorem Reader.bind_error {e : ParseError} (h : r c = .error e)
    (f : α → Reader β) : (r >>= f) c = .error e := by
  show (r c >>= fun p => f p.1 p.2) = _
  rw [h]
  rfl

theorem Reader.bind_eq_ok {f : α → Reader β} {b : β} :
    (r >>= f) c = .ok (b, c') ↔ ∃ a c₁, r c = .ok (a, c₁) ∧ f a c₁ = .ok (b, c') := by
  show (r c >>= fun p => f p.1 p.2) = _ ↔ _
  cases r c with
  | error e => simp [bind, Except.bind]
  | ok p =>
    obtain ⟨a, c₁⟩ := p
    simp [bind, Except.bind]

theorem Reader.get_ok (c : Cursor) : (get : Reader Cursor) c = .ok (c, c) := rfl

/-- A statement with the source that it stands in. -/
structure Passage where
  src : Bytes
  span : Span

namespace Passage

variable (s : Passage) {m : Nat}

/-- The number of tokens of the statement. -/
def length : Nat := s.span.tokens.length

/-- The token with the given number, the end-of-input token past the last one. -/
def token (i : Nat) : Token := s.span.tokens[i]?.getD s.span.stop

/-- The cursor after `m` tokens. -/
def cursor (m : Nat) : Cursor :=
  ⟨s.src, s.span.tokens.drop m, s.span.stop, (s.span.tokens.take m).getLast?.map (·.stop)⟩

theorem cursor_zero : s.cursor 0 = Cursor.ofSpan s.src s.span := by
  simp [cursor, Cursor.ofSpan]

theorem token_of_le {i : Nat} (h : s.length ≤ i) : s.token i = s.span.stop := by
  rw [token, List.getElem?_eq_none h, Option.getD_none]

theorem getElem_eq_token {i : Nat} (h : i < s.span.tokens.length) :
    s.span.tokens[i] = s.token i := by
  rw [token, List.getElem?_eq_getElem h, Option.getD_some]

/-! ## Looking and moving -/

@[simp] theorem cursor_src (m : Nat) : (s.cursor m).src = s.src := rfl

@[simp] theorem cursor_stop (m : Nat) : (s.cursor m).stop = s.span.stop := rfl

@[simp] theorem length_rest (m : Nat) : (s.cursor m).rest.length = s.length - m := by
  simp [cursor, length]

@[simp] theorem peek_cursor (m : Nat) : (s.cursor m).peek = s.token m := by
  simp only [Cursor.peek, cursor, token, List.headD_eq_head?_getD, List.head?_drop]

@[simp] theorem peekAt_cursor (m n : Nat) : (s.cursor m).peekAt n = s.token (m + n) := by
  simp only [Cursor.peekAt, cursor, token, List.getElem?_drop]

@[simp] theorem atEnd_cursor (m : Nat) : (s.cursor m).atEnd = decide (s.length ≤ m) := by
  rw [Bool.eq_iff_iff, decide_eq_true_iff]
  simp [Cursor.atEnd, cursor, length]

theorem drop_eq_cons (h : m < s.length) :
    s.span.tokens.drop m = s.token m :: s.span.tokens.drop (m + 1) := by
  have h' : m < s.span.tokens.length := h
  rw [List.drop_eq_getElem_cons h', getElem_eq_token]

theorem advance_cursor (h : m < s.length) :
    (s.cursor m).advance = (s.token m, s.cursor (m + 1)) := by
  have h' : m < s.span.tokens.length := h
  simp only [Cursor.advance, cursor, s.drop_eq_cons h, Prod.mk.injEq, Cursor.mk.injEq, true_and]
  rw [List.take_add_one, List.getElem?_eq_getElem h', Option.toList_some, List.getLast?_concat,
    getElem_eq_token, Option.map_some]

theorem advance_cursor_end (h : s.length ≤ m) : (s.cursor m).advance = (s.token m, s.cursor m) := by
  have hd : s.span.tokens.drop m = [] := List.drop_eq_nil_of_le h
  simp only [Cursor.advance, cursor, hd, token_of_le s h]

theorem skip_cursor {n : Nat} (h : m + n ≤ s.length) : (s.cursor m).skip n = s.cursor (m + n) := by
  induction n generalizing m with
  | zero => rfl
  | succ n ih =>
    rw [Cursor.skip, advance_cursor s (by omega), ih (by omega), Nat.add_right_comm, Nat.add_assoc]

end Passage

/-! ## Skipping by depth -/

namespace Cursor

theorem balancedLength_le (depth : Nat) (ts : List Token) :
    balancedLength depth ts ≤ ts.length := by
  induction ts generalizing depth with
  | nil => cases depth <;> simp [balancedLength]
  | cons t ts ih =>
    cases depth with
    | zero => simp [balancedLength]
    | succ depth =>
      have h1 := ih (depth + 2)
      have h2 := ih depth
      have h3 := ih (depth + 1)
      simp only [balancedLength, List.length_cons]
      split_ifs <;> omega

theorem statementLength_le (depth : Nat) (ts : List Token) :
    statementLength depth ts ≤ ts.length := by
  induction ts generalizing depth with
  | nil => simp [statementLength]
  | cons t ts ih =>
    have h1 := ih (depth + 1)
    have h3 := ih depth
    simp only [statementLength, List.length_cons]
    split_ifs
    · omega
    · cases depth with
      | zero => simp
      | succ depth =>
        have h2 := ih depth
        simp only
        omega
    · omega

/-- Only the classes of the tokens count for the depth of brackets. -/
theorem balancedLength_congr {ts us : List Token} (h : ts.map (·.kind) = us.map (·.kind))
    (depth : Nat) : balancedLength depth ts = balancedLength depth us := by
  induction ts generalizing us depth with
  | nil =>
    cases us with
    | nil => rfl
    | cons u us => simp at h
  | cons t ts ih =>
    cases us with
    | nil => simp at h
    | cons u us =>
      simp only [List.map_cons, List.cons.injEq] at h
      cases depth with
      | zero => rfl
      | succ depth => simp only [balancedLength, h.1, ih h.2]

theorem statementLength_congr {ts us : List Token} (h : ts.map (·.kind) = us.map (·.kind))
    (depth : Nat) : statementLength depth ts = statementLength depth us := by
  induction ts generalizing us depth with
  | nil =>
    cases us with
    | nil => rfl
    | cons u us => simp at h
  | cons t ts ih =>
    cases us with
    | nil => simp at h
    | cons u us =>
      simp only [List.map_cons, List.cons.injEq] at h
      simp only [statementLength, h.1, ih h.2]

end Cursor

/-! ## Basic readers -/

namespace Passage

variable {s : Passage} {m : Nat} {w : Bytes}

theorem peek_ok : Reader.peek (s.cursor m) = .ok (s.token m, s.cursor m) := by
  rw [← peek_cursor]
  rfl

theorem advance_ok (h : m < s.length) :
    Reader.advance (s.cursor m) = .ok (s.token m, s.cursor (m + 1)) :=
  congrArg Except.ok (s.advance_cursor h)

theorem advance_end (h : s.length ≤ m) :
    Reader.advance (s.cursor m) = .ok (s.token m, s.cursor m) :=
  congrArg Except.ok (s.advance_cursor_end h)

theorem discard_ok {x : α} (h : r c = .ok (x, c')) :
    (discard r : Reader PUnit) c = .ok (⟨⟩, c') := by
  show (r >>= fun _ => (pure PUnit.unit : Reader PUnit)) c = _
  rw [Reader.bind_ok h]
  rfl

theorem check_ok (k : TokenKind) :
    Reader.check k (s.cursor m) = .ok ((s.token m).kind == k, s.cursor m) :=
  Reader.bind_ok peek_ok _

theorem expect_ok (hm : m < s.length) (h : (s.token m).kind = k) :
    Reader.expect k (s.cursor m) = .ok (⟨⟩, s.cursor (m + 1)) := by
  rw [Reader.expect, Reader.bind_ok peek_ok, h, beq_self_eq_true, if_pos rfl]
  exact discard_ok (advance_ok hm)

theorem expect_error (h : (s.token m).kind ≠ k) :
    Reader.expect k (s.cursor m) = .error ⟨.expectedKind k (s.token m), (s.token m).start⟩ := by
  rw [Reader.expect, Reader.bind_ok peek_ok, beq_eq_false_iff_ne.2 h]
  rfl

theorem expectKeyword_ok (hm : m < s.length) (h : (s.token m).isKeyword w) :
    Reader.expectKeyword w (s.cursor m) = .ok (⟨⟩, s.cursor (m + 1)) := by
  rw [Reader.expectKeyword, Reader.bind_ok peek_ok, h, if_pos rfl]
  exact discard_ok (advance_ok hm)

theorem expectKeyword_error (h : (s.token m).isKeyword w = false) :
    Reader.expectKeyword w (s.cursor m) =
      .error ⟨.expectedKeyword w (s.token m), (s.token m).start⟩ := by
  rw [Reader.expectKeyword, Reader.bind_ok peek_ok, h]
  rfl

theorem acceptKeyword_true (hm : m < s.length) (h : (s.token m).isKeyword w) :
    Reader.acceptKeyword w (s.cursor m) = .ok (true, s.cursor (m + 1)) := by
  rw [Reader.acceptKeyword, Reader.checkKeyword, bind_assoc, Reader.bind_ok peek_ok, pure_bind, h,
    if_pos rfl, Reader.bind_ok (discard_ok (advance_ok hm))]
  rfl

theorem acceptKeyword_false (h : (s.token m).isKeyword w = false) :
    Reader.acceptKeyword w (s.cursor m) = .ok (false, s.cursor m) := by
  rw [Reader.acceptKeyword, Reader.checkKeyword, bind_assoc, Reader.bind_ok peek_ok, pure_bind, h]
  rfl

theorem jump_ok {k : Nat} (h : m + k ≤ s.length) :
    Reader.jump k (s.cursor m) = .ok (⟨⟩, s.cursor (m + k)) := by
  rw [Reader.jump, Reader.bind_ok (Reader.get_ok _),
    length_rest, if_pos (by omega), ← skip_cursor s h]
  rfl

/-- The end of the last token that was read. -/
theorem last_cursor (hm : 0 < m) (hlen : m ≤ s.length) :
    (s.cursor m).last = some (s.token (m - 1)).stop := by
  obtain ⟨k, rfl⟩ : ∃ k, m = k + 1 := ⟨m - 1, by omega⟩
  have hk : k < s.span.tokens.length := hlen
  rw [Nat.add_sub_cancel]
  show (s.span.tokens.take (k + 1)).getLast?.map (·.stop) = _
  rw [List.take_add_one, List.getElem?_eq_getElem hk, Option.toList_some, List.getLast?_concat,
    getElem_eq_token, Option.map_some]

/-- The number of tokens up to and including the bracket that closes the one after `m` tokens. -/
def groupEnd (s : Passage) (m : Nat) : Nat :=
  m + 1 + Cursor.balancedLength 1 (s.span.tokens.drop (m + 1))

theorem groupEnd_bounds (hm : m < s.length) : m < s.groupEnd m ∧ s.groupEnd m ≤ s.length := by
  have hle := Cursor.balancedLength_le 1 (s.span.tokens.drop (m + 1))
  rw [List.length_drop] at hle
  rw [groupEnd]
  unfold length at hm ⊢
  omega

theorem skipBalanced_ok (hm : m < s.length) :
    Reader.skipBalanced (s.cursor (m + 1)) = .ok (⟨⟩, s.cursor (s.groupEnd m)) :=
  congrArg (fun c => Except.ok (PUnit.unit, c)) (skip_cursor s (groupEnd_bounds hm).2)

theorem skipStatement_ok (h : m + Cursor.statementLength 0 (s.cursor m).rest ≤ s.length) :
    Reader.skipStatement (s.cursor m) =
      .ok (⟨⟩, s.cursor (m + Cursor.statementLength 0 (s.cursor m).rest)) :=
  congrArg (fun c => Except.ok (PUnit.unit, c)) (skip_cursor s h)

/-- An embedded statement that starts with a word takes at least that word. -/
theorem statementLength_bounds (hm : m < s.length) (hk : (s.token m).kind = .ident) :
    0 < Cursor.statementLength 0 (s.cursor m).rest ∧
      m + Cursor.statementLength 0 (s.cursor m).rest ≤ s.length := by
  have hle := Cursor.statementLength_le 0 (s.cursor m).rest
  have hpos : 0 < Cursor.statementLength 0 (s.cursor m).rest := by
    simp only [cursor, s.drop_eq_cons hm, Cursor.statementLength, hk, TokenKind.isOpener,
      TokenKind.isCloser, Bool.false_eq_true, if_false]
    omega
  rw [length_rest] at hle
  omega

end Passage

/-! ## Source text -/

theorem InOrder.start_lt_stop {stop lo : Nat} {ts : List Token} (h : InOrder stop lo ts) {i j : Nat}
    (hij : i ≤ j) (hj : j < ts.length) :
    ts[i].start.offset < ts[j].stop ∧ ts[j].stop ≤ stop := by
  refine ⟨?_, h.stop_le _ (List.getElem_mem hj)⟩
  induction ts generalizing lo i j with
  | nil => simp at hj
  | cons t ts ih =>
    cases j with
    | zero =>
      have : i = 0 := by omega
      subst this
      exact h.2.1
    | succ j =>
      cases i with
      | zero =>
        -- the first token ends before the others, and each of those starts before it ends
        have hj' : j < ts.length := by simpa using hj
        have h1 := h.2.1
        have h0 := ih h.2.2 (i := 0) (j := j) (by omega) hj'
        cases ts with
        | nil => simp at hj'
        | cons u us =>
          have h2 := h.2.2.1
          simp only [List.getElem_cons_zero, List.getElem_cons_succ] at h0 ⊢
          omega
      | succ i =>
        simpa using ih h.2.2 (i := i) (j := j) (by omega) (by simpa using hj)

namespace Passage

variable {s : Passage} {a i n : Nat} {w : Bytes}

/-- The tokens are in order and lie in the source, and the end of input follows them. -/
structure Sound (s : Passage) : Prop where
  order : InOrder s.src.length 0 s.span.tokens
  stop : ∃ p, s.span.stop = Token.endAt p

theorem Sound.kind_end (hs : s.Sound) (h : s.length ≤ i) : (s.token i).kind = .endOfInput := by
  obtain ⟨p, hp⟩ := hs.stop
  rw [token_of_le s h, hp]
  rfl

theorem Sound.isKeyword_end (hs : s.Sound) (h : s.length ≤ i) :
    (s.token i).isKeyword w = false := by
  rw [Token.isKeyword, hs.kind_end h]
  rfl

theorem Sound.lt_of_kind (hs : s.Sound) (h : (s.token i).kind ≠ .endOfInput) : i < s.length := by
  by_contra hi
  exact h (hs.kind_end (by omega))

theorem Sound.lt_of_kind_eq (hs : s.Sound) (h : (s.token i).kind = k) (hk : k ≠ .endOfInput) :
    i < s.length :=
  hs.lt_of_kind (h ▸ hk)

theorem kind_of_isKeyword {t : Token} (h : t.isKeyword w) : t.kind = .ident := by
  simp only [Token.isKeyword, Bool.and_eq_true, beq_iff_eq] at h
  exact h.1

theorem kind_of_isOperator {t : Token} (h : t.isOperator w) : t.kind = .operator := by
  simp only [Token.isOperator, Bool.and_eq_true, beq_iff_eq] at h
  exact h.1

theorem Sound.lt_of_isKeyword (hs : s.Sound) (h : (s.token i).isKeyword w) : i < s.length :=
  hs.lt_of_kind_eq (kind_of_isKeyword h) (by decide)

theorem Sound.lt_of_isOperator (hs : s.Sound) (h : (s.token i).isOperator w) : i < s.length :=
  hs.lt_of_kind_eq (kind_of_isOperator h) (by decide)

/-- The source text from one token to another one, without white space at its ends. -/
def text (s : Passage) (i j : Nat) : Bytes :=
  Bytes.trim (Bytes.slice s.src (s.token i).start.offset (s.token j).stop)

/-- The source text since a token that was read is there. -/
theorem raw?_cursor (hs : s.Sound) (hi : i < n) (hn : n ≤ s.length) :
    (s.cursor n).raw? (s.token i).start.offset = some (s.text i (n - 1)) := by
  have hlast := last_cursor (by omega) hn
  have hle := hs.order.start_lt_stop (i := i) (j := n - 1) (by omega)
    (by unfold length at hn; omega)
  simp only [getElem_eq_token] at hle
  simp only [Cursor.raw?, hlast, cursor_src, text, hle.1.le, hle.2, decide_true, Bool.and_self,
    if_true]

theorem raw_cursor (hs : s.Sound) (hi : i < n) (hn : n ≤ s.length) :
    Reader.raw (s.token i).start.offset (s.cursor n) = .ok (s.text i (n - 1), s.cursor n) := by
  rw [Reader.raw, Reader.bind_ok (Reader.get_ok _),
    raw?_cursor hs hi hn]
  rfl

/-! ## Parts of a passage -/

/-- The passage that `n` tokens of another one are, from the token `a` on. -/
def part (s : Passage) (a n : Nat) : Passage := ⟨s.src, (s.span.tokens.drop a).take n, s.span.stop⟩

theorem length_part (s : Passage) (h : a + n ≤ s.length) : (s.part a n).length = n := by
  unfold length at h ⊢
  simp only [part, List.length_take, List.length_drop]
  omega

theorem token_part (s : Passage) (hi : i < n) : (s.part a n).token i = s.token (a + i) := by
  simp only [token, part, List.getElem?_take_of_lt hi, List.getElem?_drop]

theorem text_part (s : Passage) {j : Nat} (hi : i < n) (hj : j < n) :
    (s.part a n).text i j = s.text (a + i) (a + j) := by
  rw [text, text, token_part s hi, token_part s hj]
  rfl

theorem Sound.part (hs : s.Sound) {a n : Nat} : (s.part a n).Sound where
  order := by
    have hall := hs.order
    rw [← List.take_append_drop a s.span.tokens] at hall
    have hrest := InOrder.append_right hall
    rw [← List.take_append_drop n (s.span.tokens.drop a)] at hrest
    exact InOrder.append_left hrest
  stop := hs.stop

end Passage

/-! ## Places further on -/

/-- The token `t'` is the token `t`, `d` bytes further on. -/
structure Token.Shifted (d : Nat) (t t' : Token) : Prop where
  kind : t'.kind = t.kind
  literal : t'.literal = t.literal
  start : t'.start.offset = t.start.offset + d
  stop : t'.stop = t.stop + d

namespace Token.Shifted

variable {d d' : Nat} {t t' t'' : Token}

theorem refl (t : Token) : Shifted 0 t t := ⟨rfl, rfl, rfl, rfl⟩

theorem trans (h : Shifted d t t') (h' : Shifted d' t' t'') : Shifted (d' + d) t t'' where
  kind := h'.kind.trans h.kind
  literal := h'.literal.trans h.literal
  start := by rw [h'.start, h.start]; omega
  stop := by rw [h'.stop, h.stop]; omega

theorem isKeyword_eq (h : Shifted d t t') (w : Bytes) : t'.isKeyword w = t.isKeyword w := by
  rw [isKeyword, isKeyword, h.kind, h.literal]

end Token.Shifted

/-- The passage `s'` has the tokens of the passage `s` and stands with them `d` bytes further on in
a source. -/
structure Passage.Shifted (d : Nat) (s s' : Passage) : Prop where
  sound : s.Sound
  sound' : s'.Sound
  length_eq : s'.length = s.length
  token : ∀ {i}, i < s.length → Token.Shifted d (s.token i) (s'.token i)
  src : ∃ before after, s'.src = before ++ s.src ++ after ∧ before.length = d

namespace Passage.Shifted

variable {d : Nat} {s s' : Passage}

/-- Past the end both passages show an end-of-input token. -/
theorem token_eq (h : Passage.Shifted d s s') (i : Nat) :
    (s'.token i).kind = (s.token i).kind ∧ (s'.token i).literal = (s.token i).literal := by
  by_cases hi : i < s.length
  · exact ⟨(h.token hi).kind, (h.token hi).literal⟩
  · obtain ⟨p, hp⟩ := h.sound.stop
    obtain ⟨p', hp'⟩ := h.sound'.stop
    rw [s.token_of_le (by omega), s'.token_of_le (by rw [h.length_eq]; omega), hp, hp']
    exact ⟨rfl, rfl⟩

theorem text_eq (h : Passage.Shifted d s s') {i j : Nat} (hij : i ≤ j) (hj : j < s.length) :
    s'.text i j = s.text i j := by
  obtain ⟨before, after, hsrc, rfl⟩ := h.src
  have hj' : j < s.span.tokens.length := hj
  have hle := h.sound.order.start_lt_stop hij hj'
  simp only [getElem_eq_token] at hle
  rw [text, text, hsrc, (h.token (lt_of_le_of_lt hij hj)).start, (h.token hj).stop,
    Bytes.slice_append _ _ _ hle.1.le hle.2]

end Passage.Shifted

end Surql

end AccessLayer
