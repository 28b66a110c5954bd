import AccessLayer.Proofs.Surql.Nesting

/-!
# Reading a written text

Where a reader stands in a written text, some spellings lie ahead of it. The equations of this
module say what the basic readers return there and where they leave the cursor.

* `Passage.Ahead`: the spellings that are not read yet.
* `Passage.Ahead.advance`, `expect`, `jump`, …: the basic readers.
* `Passage.Ahead.groupEnd_eq`: where a bracket is closed.
-/

namespace AccessLayer.Surql

namespace Passage

/-- After `m` tokens of the statement, the spellings `qs` are left to be read. -/
def Ahead (s : Passage) (m : Nat) (qs : List Spelling) : Prop :=
  ∃ before, s = ofSpellings (before ++ qs) ∧ m = before.length

variable {s : Passage} {m : Nat} {q : Spelling} {qs rest : List Spelling}

namespace Ahead

theorem length (h : s.Ahead m qs) : s.length = m + qs.length := by
  obtain ⟨before, rfl, rfl⟩ := h
  rw [length_ofSpellings, List.length_append]

/-- Whoever has a unit of fuel for each token and one more has fuel left. -/
theorem fuel_pos (h : s.Ahead m qs) {fuel : Nat} (hf : s.length < m + fuel) : 0 < fuel := by
  have := h.length
  omega

theorem append (h : s.Ahead m (qs ++ rest)) : s.Ahead (m + qs.length) rest := by
  obtain ⟨before, rfl, rfl⟩ := h
  exact ⟨before ++ qs, by rw [List.append_assoc], by rw [List.length_append]⟩

theorem kind_nil (h : s.Ahead m []) : (s.token m).kind = .endOfInput := by
  have hlen : s.length ≤ m := h.length.le
  obtain ⟨before, rfl, -⟩ := h
  rw [token_of_le _ hlen]
  rfl

theorem text (h : s.Ahead m (qs ++ rest)) (hqs : qs ≠ []) :
    s.text m (m + qs.length - 1) = Bytes.trim (written qs) := by
  obtain ⟨before, rfl, rfl⟩ := h
  rw [← List.append_assoc, text_ofSpellings before hqs rest]

theorem jump (h : s.Ahead m (qs ++ rest)) :
    Reader.jump qs.length (s.cursor m) = .ok (⟨⟩, s.cursor (m + qs.length)) := by
  have hlen := h.length
  rw [List.length_append] at hlen
  exact jump_ok (by omega)

/-! ## The next token -/

section

variable (h : s.Ahead m (q :: rest))
include h

theorem lt : m < s.length := by
  rw [h.length, List.length_cons]
  omega

theorem tail : s.Ahead (m + 1) rest := @append s m [q] rest h

theorem kind : (s.token m).kind = q.kind := by
  obtain ⟨before, rfl, rfl⟩ := h
  rw [token_ofSpellings]

theorem literal : (s.token m).literal = q.literal := by
  obtain ⟨before, rfl, rfl⟩ := h
  rw [token_ofSpellings]

theorem check (k : TokenKind) : Reader.check k (s.cursor m) = .ok (q.kind == k, s.cursor m) := by
  rw [check_ok, h.kind]

theorem check_true (k : TokenKind) (hk : q.kind = k) :
    Reader.check k (s.cursor m) = .ok (true, s.cursor m) := by
  rw [h.check, beq_iff_eq.2 hk]

theorem check_false (k : TokenKind) (hk : q.kind ≠ k) :
    Reader.check k (s.cursor m) = .ok (false, s.cursor m) := by
  rw [h.check, beq_eq_false_iff_ne.2 hk]

theorem advance : Reader.advance (s.cursor m) = .ok (s.token m, s.cursor (m + 1)) := advance_ok h.lt

theorem discard_advance :
    (discard Reader.advance : Reader PUnit) (s.cursor m) = .ok (⟨⟩, s.cursor (m + 1)) :=
  discard_ok h.advance

theorem expect (k : TokenKind) (hk : q.kind = k) :
    Reader.expect k (s.cursor m) = .ok (⟨⟩, s.cursor (m + 1)) :=
  expect_ok h.lt (h.kind.trans hk)

end

/-- The bracket that comes next is closed after the tokens that it encloses. -/
theorem groupEnd_eq {o : Spelling} (h : s.Ahead m (o :: qs ++ q :: rest)) (hqs : Enclosed qs)
    (hq : q.kind.isCloser) : s.groupEnd m = m + (qs.length + 2) := by
  have htokens : ∃ ts t ts', s.span.tokens.drop (m + 1) = ts ++ t :: ts' ∧
      ts.map (·.kind) = qs.map (·.kind) ∧
      t.kind = q.kind := by
    obtain ⟨before, rfl, hm⟩ : s.Ahead (m + 1) (qs ++ q :: rest) := h.tail
    rw [hm, ofSpellings, placed_append, placed_append,
      List.drop_append_of_le_length (by rw [length_placed]),
      List.drop_of_length_le (by rw [length_placed])]
    exact ⟨_, _, _, rfl, kinds_placed _ _, rfl⟩
  obtain ⟨ts, t, ts', hrest, hkinds, ht⟩ := htokens
  have hts : ts.length = qs.length := by
    rw [← List.length_map (f := fun t : Token => t.kind), hkinds, List.length_map]
  have hnesting : nesting true [] (ts.map (·.kind)) = some [] := hkinds ▸ hqs
  rw [groupEnd, hrest, Cursor.balancedLength_enclosed hnesting (ht ▸ hq), hts]
  omega

end Ahead

end Passage

end AccessLayer.Surql
