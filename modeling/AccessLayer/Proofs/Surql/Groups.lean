import AccessLayer.Proofs.Surql.Nesting

/-!
# Groups in brackets

What is left of a stream with matching brackets is a stream of its own up to the first bracket that
was opened before. So whoever skips by counting brackets, without a look at their kinds, stops at
the right one.

* `exists_front`: the rest of a stream up to the first bracket that it does not open.
* `Passage.Whole`: the brackets among some tokens match, if those of the statement do.
* `Passage.exists_group`: a bracket, what stands in it and the bracket that closes it.
-/

namespace AccessLayer.Surql

variable {ts opened : List Token}

/-- A closing bracket that comes next closes the innermost open bracket. -/
theorem exists_next {o : Token} (h : openAfter (o :: opened) ts = some [])
    (hts : ∀ c ∈ ts.head?, c.kind.isCloser) :
    ∃ c rest, ts = c :: rest ∧ o.kind.closer? = some c.kind ∧ openAfter opened rest = some [] := by
  cases ts with
  | nil => cases h
  | cons c rest =>
    have hc := hts c rfl
    rw [openAfter_cons, Option.bind_eq_bind, Option.bind_eq_some_iff] at h
    obtain ⟨next, hstep, h⟩ := h
    obtain ⟨ho, -⟩ | ⟨_, hopened, hm⟩ | ⟨-, hno, -⟩ := openStep_eq_some hstep
    · rw [TokenKind.isCloser_of_isOpener ho] at hc
      cases hc
    · obtain ⟨rfl, rfl⟩ := List.cons.inj hopened
      exact ⟨c, rest, rfl, hm, h⟩
    · rw [hno] at hc
      cases hc

/-- The rest of a stream starts with tokens whose brackets match, up to one that closes a bracket
opened before. -/
theorem exists_front (h : openAfter opened ts = some []) :
    ∃ front rest, ts = front ++ rest ∧ WellNested front ∧ openAfter opened rest = some [] ∧
      ∀ c ∈ rest.head?, c.kind.isCloser := by
  induction hn : ts.length using Nat.strongRecOn generalizing ts opened with
  | ind n ih =>
    cases ts with
    | nil => exact ⟨[], [], rfl, .nil, h, by simp⟩
    | cons t ts =>
      rw [List.length_cons] at hn
      have hall := h
      rw [openAfter_cons, Option.bind_eq_bind, Option.bind_eq_some_iff] at h
      obtain ⟨next, hstep, h⟩ := h
      obtain ⟨-, rfl⟩ | ⟨o, rfl, hm⟩ | ⟨ho, hc, rfl⟩ := openStep_eq_some hstep
      · -- the bracket is closed by the first one that its content does not open
        obtain ⟨inner, rest, rfl, hi, hrest, hcloser⟩ := ih _ (by omega) h rfl
        obtain ⟨c, rest, rfl, hm, hrest⟩ := exists_next hrest hcloser
        rw [List.length_append, List.length_cons] at hn
        obtain ⟨front, rest, rfl, hfront, hrest⟩ := ih _ (by omega) hrest rfl
        exact ⟨t :: inner ++ c :: front, rest, by simp, .group hm hi hfront, hrest⟩
      · exact ⟨[], t :: ts, rfl, .nil, hall, by simpa using (TokenKind.brackets hm).2.2.2⟩
      · obtain ⟨front, rest, rfl, hfront, hrest⟩ := ih _ (by omega) h rfl
        exact ⟨t :: front, rest, rfl, .plain ho hc hfront, hrest⟩

/-- A bracket of a stream whose brackets match is closed after tokens whose brackets match. -/
theorem WellNested.exists_closer {o : Token} {us : List Token} (h : WellNested (ts ++ o :: us))
    (ho : o.kind.isOpener) :
    ∃ inner c rest, us = inner ++ c :: rest ∧ WellNested inner ∧ o.kind.closer? = some c.kind := by
  rw [wellNested_iff, openAfter_append, Option.bind_eq_bind, Option.bind_eq_some_iff] at h
  obtain ⟨opened, -, h⟩ := h
  rw [openAfter_cons, openStep_opener opened ho, Option.bind_eq_bind, Option.bind_some] at h
  obtain ⟨inner, rest, rfl, hi, hrest, hcloser⟩ := exists_front h
  obtain ⟨c, rest, rfl, hm, -⟩ := exists_next hrest hcloser
  exact ⟨inner, c, rest, rfl, hi, hm⟩

theorem Cursor.statementLength_wellNested (h : WellNested ts) (depth : Nat) (rest : List Token) :
    statementLength depth (ts ++ rest) = ts.length + statementLength depth rest := by
  induction h generalizing depth rest with
  | nil => simp
  | @plain t ts ho hc _ ih =>
    simp only [List.cons_append, statementLength, ho, hc, Bool.false_eq_true, if_false, ih,
      List.length_cons]
    omega
  | @group o c inner ts hm _ _ ihi ih =>
    obtain ⟨ho, -, hno, hc⟩ := TokenKind.brackets hm
    simp only [List.cons_append, List.append_assoc, statementLength, ho, hno, hc,
      Bool.false_eq_true, if_true, if_false, ihi, ih, List.length_cons, List.length_append]
    omega

/-- Where what is left starts with an unmatched closing bracket, or is empty, a statement ends. -/
theorem Cursor.statementLength_zero (h : ∀ c ∈ ts.head?, c.kind.isCloser) :
    statementLength 0 ts = 0 := by
  cases ts with
  | nil => rfl
  | cons c ts =>
    have hc := h c rfl
    have ho : c.kind.isOpener = false := Bool.eq_false_iff.2 fun ho => by
      rw [TokenKind.isCloser_of_isOpener ho] at hc
      cases hc
    simp only [statementLength, ho, hc, Bool.false_eq_true, if_true, if_false]

namespace Passage

variable {s : Passage} {m i n : Nat}

def run (s : Passage) (m n : Nat) : List Token := (s.span.tokens.drop m).take (n - m)

theorem run_append (hmi : m ≤ i) (hin : i ≤ n) : s.run m n = s.run m i ++ s.run i n := by
  have hsplit : n - m = (i - m) + (n - i) := by omega
  rw [run, hsplit, List.take_add, List.drop_drop, Nat.add_sub_cancel' hmi, run, run]

theorem run_of_drop {ts rest : List Token} (h : s.span.tokens.drop m = ts ++ rest) :
    s.run m (m + ts.length) = ts := by
  rw [run, h, Nat.add_sub_cancel_left, List.take_left]

/-- The brackets among the tokens from `m` up to `n` match, if those of the statement do. -/
def Whole (s : Passage) (m n : Nat) : Prop :=
  m ≤ n ∧ (WellNested s.span.tokens → WellNested (s.run m n))

namespace Whole

theorem refl (m : Nat) : s.Whole m m := ⟨le_rfl, fun _ => by simpa [run] using WellNested.nil⟩

theorem trans (h : s.Whole m i) (h' : s.Whole i n) : s.Whole m n :=
  ⟨h.1.trans h'.1, fun hs => run_append h.1 h'.1 ▸ (h.2 hs).append (h'.2 hs)⟩

theorem plain (h : ((s.token m).kind.isOpener || (s.token m).kind.isCloser) = false) :
    s.Whole m (m + 1) := by
  rw [Bool.or_eq_false_iff] at h
  refine ⟨Nat.le_succ m, fun _ => ?_⟩
  by_cases hm : m < s.length
  · rw [run, drop_eq_cons s hm, Nat.add_sub_cancel_left]
    exact .plain h.1 h.2 .nil
  · rw [run, List.drop_eq_nil_of_le (by unfold length at hm; omega), List.take_nil]
    exact .nil

theorem between (hm : (s.token m).kind.closer? = some (s.token n).kind) (h : s.Whole (m + 1) n)
    (hn : n < s.length) : s.Whole m (n + 1) := by
  have hone : ∀ j, j < s.length → s.run j (j + 1) = [s.token j] := by
    intro j hj
    rw [run, drop_eq_cons s hj, Nat.add_sub_cancel_left]
    rfl
  have hle := h.1
  refine ⟨by omega, fun hs => ?_⟩
  rw [run_append (Nat.le_succ m) (by omega), run_append hle (Nat.le_succ n), hone m (by omega),
    hone n hn]
  exact (h.2 hs).between hm

end Whole

/-- Skipping from a bracket ends with the bracket that closes it. -/
theorem exists_group (hs : WellNested s.span.tokens) (hm : m < s.length)
    (ho : (s.token m).kind.isOpener) :
    ∃ j, m < j ∧ j < s.length ∧ (s.token m).kind.closer? = some (s.token j).kind ∧
      WellNested (s.run (m + 1) j) ∧
      s.groupEnd m = j + 1 := by
  rw [← List.take_append_drop m s.span.tokens, drop_eq_cons s hm] at hs
  obtain ⟨inner, c, rest, hdrop, hi, hc⟩ := hs.exists_closer ho
  have hlength := congrArg List.length hdrop
  rw [List.length_drop, List.length_append, List.length_cons] at hlength
  have htoken : s.token (m + 1 + inner.length) = c := by
    rw [token, ← List.getElem?_drop, hdrop, List.getElem?_append_right le_rfl, Nat.sub_self]
    rfl
  refine ⟨m + 1 + inner.length, by omega, by unfold length; omega, htoken.symm ▸ hc, ?_, ?_⟩
  · rw [run_of_drop hdrop]
    exact hi
  · rw [groupEnd, hdrop, Cursor.balancedLength_enclosed (hi.nesting_eq [])
      (TokenKind.brackets hc).2.2.2]
    rfl

theorem whole_groupEnd (hm : m < s.length) (ho : (s.token m).kind.isOpener) :
    s.Whole m (s.groupEnd m) := by
  refine ⟨(groupEnd_bounds hm).1.le, fun hs => ?_⟩
  obtain ⟨j, hmj, hj, hcloser, hinner, hend⟩ := exists_group hs hm ho
  have := Whole.between hcloser ⟨hmj, fun _ => hinner⟩ hj
  rw [hend]
  exact this.2 hs

/-- An embedded statement ends with the tokens of the statement around it, or before a bracket that
it does not open. -/
theorem exists_statement (hs : WellNested s.span.tokens) (hm : m ≤ s.length) :
    ∃ j, m ≤ j ∧ j ≤ s.length ∧ WellNested (s.run m j) ∧
      (j < s.length → (s.token j).kind.isCloser) ∧
      m + Cursor.statementLength 0 (s.cursor m).rest = j := by
  rw [wellNested_iff, ← List.take_append_drop m s.span.tokens, openAfter_append,
    Option.bind_eq_bind, Option.bind_eq_some_iff] at hs
  obtain ⟨opened, -, h⟩ := hs
  obtain ⟨front, rest, hdrop, hfront, -, hcloser⟩ := exists_front h
  have hlength := congrArg List.length hdrop
  rw [List.length_drop, List.length_append] at hlength
  refine ⟨m + front.length,
    Nat.le_add_right _ _, by unfold length at hm ⊢; omega, ?_, fun hlt => ?_, ?_⟩
  · rw [run_of_drop hdrop]
    exact hfront
  · refine hcloser _ ?_
    rw [List.head?_eq_getElem?, ← Nat.sub_self front.length, ← List.getElem?_append_right le_rfl,
      ← hdrop, List.getElem?_drop]
    exact (List.getElem?_eq_getElem hlt).trans (congrArg some (getElem_eq_token s hlt))
  · show m + Cursor.statementLength 0 (s.span.tokens.drop m) = _
    rw [hdrop, Cursor.statementLength_wellNested hfront, Cursor.statementLength_zero hcloser,
      Nat.add_zero]

theorem whole_statement (hm : m ≤ s.length) :
    s.Whole m (m + Cursor.statementLength 0 (s.cursor m).rest) := by
  refine ⟨Nat.le_add_right _ _, fun hs => ?_⟩
  obtain ⟨j, -, -, hrun, -, hj⟩ := exists_statement hs hm
  rw [hj]
  exact hrun

end Passage

end AccessLayer.Surql
