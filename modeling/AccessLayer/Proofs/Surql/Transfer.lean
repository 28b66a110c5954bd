import AccessLayer.Proofs.Surql.ExprReading
import AccessLayer.Proofs.Surql.Fragments

/-!
# Reading a part of a definition

What is read from a text alone is read from it in a definition too, where the first word of a clause
or the end comes next: the tokens of the text, cut out of the definition, are alike the text, and a
bracket of the text is closed at the same token in the definition.

* `Passage.Embeds.groupEnd_eq`: where the bracket is closed that a token opens.
* `Passage.Embeds.likeness`, `Passage.Embeds.track`: a text and the part of a definition that it
  stands in.
* `Fragment.IsType.kind_eq`, `Fragment.IsExpr.value_eq`: types and plain expressions.
-/

namespace AccessLayer.Surql

/-- A statement that ends before the last token ends there whatever follows. -/
theorem Cursor.statementLength_append {depth : Nat} {ts : List Token} (us : List Token)
    (h : statementLength depth ts < ts.length) :
    statementLength depth (ts ++ us) = statementLength depth ts := by
  induction ts generalizing depth with
  | nil => cases h
  | cons t ts ih =>
    rw [List.length_cons] at h
    rw [List.cons_append]
    by_cases ho : t.kind.isOpener = true
    · simp only [statementLength, if_pos ho] at h ⊢
      rw [ih (by omega)]
    · by_cases hc : t.kind.isCloser = true
      · cases depth with
        | zero => simp only [statementLength, if_neg ho, if_pos hc]
        | succ depth =>
          simp only [statementLength, if_neg ho, if_pos hc] at h ⊢
          rw [ih (by omega)]
      · simp only [statementLength, if_neg ho, if_neg hc] at h ⊢
        rw [ih (by omega)]

namespace Passage.Embeds

variable {s s' : Passage} {m a d : Nat}

theorem map_kind (E : s.Embeds s' a d) :
    ((s'.span.tokens.drop a).take s.length).map (·.kind) = s.span.tokens.map (·.kind) := by
  have hle := E.le
  unfold Passage.length at hle
  refine List.ext_getElem ?_ fun i hi hi' => ?_
  · simp [Passage.length]
    omega
  · rw [List.length_map] at hi'
    have := (E.token hi').kind
    rw [← s.getElem_eq_token hi', ← s'.getElem_eq_token (by omega)] at this
    simpa using this

/-- The tokens of the statement from a token of the fragment on. -/
theorem drop_eq_append (E : s.Embeds s' a d) (hm : m ≤ s.length) :
    ∃ own rest, s'.span.tokens.drop (a + m) = own ++ rest ∧
      own.map (·.kind) = (s.span.tokens.drop m).map (·.kind) := by
  refine ⟨((s'.span.tokens.drop a).take s.length).drop m, (s'.span.tokens.drop a).drop s.length,
    ?_, ?_⟩
  · have hle := E.le
    unfold Passage.length at hle hm ⊢
    rw [← List.drop_append_of_le_length (by rw [List.length_take, List.length_drop]; omega),
      List.take_append_drop, List.drop_drop]
  · rw [List.map_drop, E.map_kind, ← List.map_drop]

/-- A bracket of the fragment is closed at the same token in the statement. -/
theorem groupEnd_eq (E : s.Embeds s' a d) (hm : m < s.length) (ho : (s.token m).kind.isOpener) :
    s'.groupEnd (a + m) = a + s.groupEnd m ∧ m + 1 < s.groupEnd m ∧ s.groupEnd m ≤ s.length ∧
      (s.token (s.groupEnd m - 1)).kind.isCloser := by
  have hsplit : s.span.tokens = s.span.tokens.take m ++ s.token m ::
      s.span.tokens.drop (m + 1) := by
    rw [← s.drop_eq_cons hm, List.take_append_drop]
  obtain ⟨inner, c, rest, hpost, hi, hm'⟩ := (hsplit ▸ E.nested).exists_closer ho
  have hc := (TokenKind.brackets hm').2.2.2
  have hlen : Cursor.balancedLength 1 (s.span.tokens.drop (m + 1)) = inner.length + 1 := by
    rw [hpost]
    exact Cursor.balancedLength_enclosed (hi.nesting_eq []) hc rest
  obtain ⟨own, more, hdrop, hkinds⟩ := E.drop_eq_append (m := m + 1) hm
  rw [hpost, List.map_append, List.map_cons] at hkinds
  obtain ⟨inner', rest', hown, hinner, hrest⟩ := List.map_eq_append_iff.1 hkinds
  obtain ⟨c', rest', rfl, hc', -⟩ := List.map_eq_cons_iff.1 hrest
  have hlen' : Cursor.balancedLength 1 (s'.span.tokens.drop (a + m + 1)) = inner'.length + 1 := by
    rw [Nat.add_assoc, hdrop, hown, List.append_assoc, List.cons_append]
    refine Cursor.balancedLength_enclosed ?_ (by rw [hc']; exact hc) _
    rw [hinner]
    exact hi.nesting_eq []
  have hinnerlen : inner'.length = inner.length := by
    have := congrArg List.length hinner
    simpa using this
  have hbound := congrArg List.length hpost
  rw [List.length_drop, List.length_append, List.length_cons] at hbound
  unfold Passage.length at hm ⊢
  refine ⟨by rw [groupEnd, groupEnd, hlen, hlen']; omega, by rw [groupEnd, hlen]; omega,
    by rw [groupEnd, hlen]; omega, ?_⟩
  have hindex : s.span.tokens[m + 1 + inner.length]? = some c := by
    rw [← List.getElem?_drop, hpost, List.getElem?_append_right le_rfl, Nat.sub_self]
    rfl
  rw [groupEnd, hlen, show m + 1 + (inner.length + 1) - 1 = m + 1 +
    inner.length by omega, Passage.token, hindex]
  exact hc

/-- A statement that ends in the fragment ends at the same token in the statement around it. -/
theorem statementLength_eq (E : s.Embeds s' a d) (hm : m ≤ s.length)
    (h : Cursor.statementLength 0 (s.cursor m).rest < (s.cursor m).rest.length) :
    Cursor.statementLength 0 (s'.cursor (a + m)).rest =
      Cursor.statementLength 0 (s.cursor m).rest := by
  obtain ⟨own, more, hdrop, hkinds⟩ := E.drop_eq_append hm
  have hsame := Cursor.statementLength_congr hkinds 0
  have hlength : own.length = (s.cursor m).rest.length := by
    have := congrArg List.length hkinds
    rwa [List.length_map, List.length_map] at this
  show Cursor.statementLength 0 (s'.span.tokens.drop (a + m)) = _
  rw [hdrop, Cursor.statementLength_append, hsame]
  · rfl
  · rw [hsame, hlength]
    exact h

end Passage.Embeds

/-! ## Parts of a definition -/

namespace Passage.Embeds

variable {s s' : Passage} {a d : Nat}

/-- A text is alike the part of a definition that it stands in. -/
def likeness (E : s.Embeds s' a d) : Likeness s (s'.part a s.length) :=
  E.shifted.likeness .unplaced .unplaced (fun _ => rfl) fun _ => rfl

/-- The part is read in the definition, where a clause or the end comes next. -/
def track (E : s.Embeds s' a d) (hbreak : (s'.token (a + s.length)).IsBreak) :
    E.likeness.Track where
  host := s'
  first := a
  le := E.le
  token_eq hi := (s'.token_part hi).symm
  next := hbreak
  raw?_eq {i m} hi hm := by
    have hle := E.le
    have hraw := Passage.raw?_cursor E.sound' (i := a + i) (n := a + m) (by omega) (by omega)
    rw [Nat.add_sub_assoc (by omega)] at hraw
    rw [s'.token_part (by omega), s'.text_part (by omega) (by omega), hraw]
  groupEnd_eq ho := (E.groupEnd_eq (E.sound.lt_of_kind fun hk => by rw [hk] at ho; cases ho) ho).1
  statementLength_eq {m} h := E.statementLength_eq (by omega) (by rw [Passage.length_rest]; omega)
  closed := .inr fun ho => by
    obtain ⟨-, hlt, -, hcloser⟩ :=
      E.groupEnd_eq (E.sound.lt_of_kind fun hk => by rw [hk] at ho; cases ho) ho
    exact ⟨hlt, hcloser⟩

end Passage.Embeds

namespace Fragment

/-- All of the text is read as a type. -/
def IsType (f : Fragment) (k : Kind) : Prop := ∃ c, kind (f.passage.cursor 0) = .ok (k, c) ∧
    c.atEnd = true

/-- All of the text is read as an expression. -/
def IsExpr (f : Fragment) (v : Value) : Prop := ∃ c, value (f.passage.cursor 0) = .ok (v, c) ∧
    c.atEnd = true

variable {f : Fragment} {s : Passage} {a d : Nat}

/-- What all of a text is read as, with a result that does not depend on what comes next, is read
from it in a definition. -/
theorem read_eq (E : f.passage.Embeds s a d) (hbreak : (s.token (a + f.length)).IsBreak)
    {α β : Type} {ok : α → Prop} {r : Reader α} {r' : Reader β} {P : α → β → Nat → Prop}
    (h : (E.track hbreak).Carries ok r r' 0 P) {x : α} {c : Cursor}
    (hread : r (f.passage.cursor 0) = .ok (x, c)) (hc : c.atEnd) (hok : ok x) :
    ∃ y, P x y f.length ∧ r' (s.cursor a) = .ok (y, s.cursor (a + f.length)) := by
  obtain ⟨x', y, n, hr, -, hn, hP, hr'⟩ | ⟨e, hr, -⟩ := h
  · rw [hread] at hr
    cases hr
    have hempty : (f.tokens.drop n).isEmpty = true := hc
    rw [List.isEmpty_iff, List.drop_eq_nil_iff] at hempty
    obtain rfl : n = f.length := Nat.le_antisymm hn hempty
    exact ⟨y, hP, hr' fun _ => .inr hok⟩
  · rw [hread] at hr
    cases hr

/-- A type is read from a definition as it is read alone. -/
theorem IsType.kind_eq {k : Kind} (h : f.IsType k) (E : f.passage.Embeds s a d)
    (hbreak : (s.token (a + f.length)).IsBreak) :
    kind (s.cursor a) = .ok (k, s.cursor (a + f.length)) := by
  obtain ⟨c, hk, hc⟩ := h
  obtain ⟨_, ⟨rfl, -⟩, hread⟩ :=
    read_eq E hbreak (Likeness.Track.reads_kind (Nat.zero_le _)) hk hc trivial
  exact hread

/-- A plain expression is read from a definition as it is read alone, but for its places. -/
theorem IsExpr.value_eq {v : Value} (h : f.IsExpr v) (hv : v.isPlain) (E : f.passage.Embeds s a d)
    (hbreak : (s.token (a + f.length)).IsBreak) :
    ∃ v', v'.view .unplaced = v.view .unplaced ∧
      value (s.cursor a) = .ok (v', s.cursor (a + f.length)) := by
  obtain ⟨c, hk, hc⟩ := h
  obtain ⟨_, ⟨e, he, rfl, rfl⟩, hread⟩ := read_eq E hbreak
    (Likeness.Track.carries_value (Nat.zero_le _)) hk hc hv
  exact ⟨_, (E.likeness.view_value e he.fits).symm, hread⟩

end Fragment

end AccessLayer.Surql
