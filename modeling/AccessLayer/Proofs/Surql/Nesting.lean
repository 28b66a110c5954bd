import AccessLayer.Proofs.Surql.Spelling
import AccessLayer.Proofs.Surql.Splitting

/-!
# Brackets of written texts

Tokens whose brackets match are kept together: no statement ends among them, and whoever skips to a
closing bracket skips all of them. Whether brackets match is a computation on the classes of tokens.

* `nesting`: the brackets that are open after some tokens.
* `Balanced`, `Enclosed`: every bracket is closed, with no semicolon outside of brackets or with
  any.
* `spansOf_written`: balanced tokens are one statement.
-/

namespace AccessLayer.Surql

variable {ts : List Token} {b : Bool} {opened opened' ks : List TokenKind} {k : TokenKind}

/-- The brackets that are open, innermost first, after one more token. There are none when the token
closes a bracket that is not the innermost one, or when it ends the statement: as a semicolon
outside of all brackets, unless the tokens are `enclosed` by some. -/
def nestingStep (enclosed : Bool) (opened : List TokenKind) (k : TokenKind) :
    Option (List TokenKind) :=
  if k.isOpener then some (k :: opened)
  else if k.isCloser then
    match opened with
    | [] => none
    | o :: outer => if o.closer? = some k then some outer else none
  else if k = .semicolon ∧ opened = [] ∧ enclosed = false then none
  else some opened

/-- The brackets that are open, innermost first, after tokens of the given classes. -/
def nesting (enclosed : Bool) (opened ks : List TokenKind) : Option (List TokenKind) :=
  ks.foldlM (nestingStep enclosed) opened

/-- Every bracket is closed, and no semicolon stands outside of brackets. -/
def Balanced (qs : List Spelling) : Prop := nesting false [] (qs.map (·.kind)) = some []

/-- Every bracket is closed. -/
def Enclosed (qs : List Spelling) : Prop := nesting true [] (qs.map (·.kind)) = some []

instance (qs : List Spelling) : Decidable (Balanced qs) :=
  inferInstanceAs (Decidable (_ = _))

instance (qs : List Spelling) : Decidable (Enclosed qs) :=
  inferInstanceAs (Decidable (_ = _))

/-- A token opens a bracket, closes the innermost one, or is neither and ends no statement. -/
theorem nestingStep_eq_some :
    nestingStep b opened k = some opened' ↔
      (k.isOpener ∧ opened' = k :: opened) ∨
      (k.isOpener = false ∧ k.isCloser ∧ ∃ o, opened = o :: opened' ∧ o.closer? = some k) ∨
      (k.isOpener = false ∧ k.isCloser = false ∧ opened' = opened ∧
        (k = .semicolon → opened ≠ [] ∨ b = true)) := by
  unfold nestingStep
  cases k.isOpener with
  | true => simp [@eq_comm _ opened' (k :: opened)]
  | false =>
    cases k.isCloser with
    | true => cases opened <;> simp [and_comm]
    | false =>
      simp only [Bool.false_eq_true, if_false, false_and, true_and, false_or,
        Option.ite_none_left_eq_some, Option.some.injEq, not_and, Bool.not_eq_false]
      constructor
      · rintro ⟨h, rfl⟩
        exact ⟨rfl, fun hk => or_iff_not_imp_left.2 fun hne => h hk (not_not.1 hne)⟩
      · rintro ⟨rfl, h⟩
        exact ⟨fun hk hnil => (h hk).resolve_left (not_not.2 hnil), rfl⟩

theorem nesting_append (b : Bool) (opened ks ks' : List TokenKind) :
    nesting b opened (ks ++ ks') = nesting b opened ks >>= fun opened => nesting b opened ks' :=
  List.foldlM_append

theorem nesting_cons :
    nesting b opened (k :: ks) = some opened' ↔
      ∃ next, nestingStep b opened k = some next ∧ nesting b next ks = some opened' := by
  rw [nesting, List.foldlM_cons]
  exact Option.bind_eq_some_iff

/-- Brackets that are open already do not count, but that a semicolon may stand inside of them. -/
theorem nesting_outer (b' : Bool) (outer : List TokenKind) (h : b → outer ≠ [] ∨ b')
    (hks : nesting b opened ks = some opened') :
    nesting b' (opened ++ outer) ks = some (opened' ++ outer) := by
  induction ks generalizing opened with
  | nil =>
    obtain rfl : opened = opened' := Option.some.inj hks
    rfl
  | cons k ks ih =>
    obtain ⟨next, hstep, hks⟩ := nesting_cons.1 hks
    refine nesting_cons.2 ⟨next ++ outer, nestingStep_eq_some.2 ?_, ih hks⟩
    obtain ⟨ho, rfl⟩ | ⟨ho, hc, o, rfl, hk⟩ | ⟨ho, hc, rfl, hs⟩ := nestingStep_eq_some.1 hstep
    · exact .inl ⟨ho, rfl⟩
    · exact .inr (.inl ⟨ho, hc, o, rfl, hk⟩)
    · refine .inr (.inr ⟨ho, hc, rfl, fun hk => ?_⟩)
      obtain hne | hb := hs hk
      · exact .inl (by simp [hne])
      · exact (h hb).imp_left fun houter => by simp [houter]

theorem WellNested.nesting_eq (h : WellNested ts) (opened : List TokenKind) :
    nesting true opened (ts.map (·.kind)) = some opened := by
  induction h generalizing opened with
  | nil => rfl
  | plain ho hc _ ih =>
    exact nesting_cons.2 ⟨opened,
      nestingStep_eq_some.2 (.inr (.inr ⟨ho, hc, rfl, fun _ => .inr rfl⟩)), ih opened⟩
  | @group o c inner ts hm _ _ ihi ih =>
    obtain ⟨ho, -, hno, hc⟩ := TokenKind.brackets hm
    rw [List.cons_append, List.map_cons, List.map_append, List.map_cons]
    refine nesting_cons.2 ⟨o.kind :: opened, nestingStep_eq_some.2 (.inl ⟨ho, rfl⟩), ?_⟩
    rw [nesting_append, ihi]
    exact nesting_cons.2 ⟨opened, nestingStep_eq_some.2 (.inr (.inl ⟨hno, hc, o.kind, rfl, hm⟩)),
      ih opened⟩

namespace Balanced

variable {qs : List Spelling}

theorem nil : Balanced [] := rfl

theorem append {qs' : List Spelling} (h : Balanced qs) (h' : Balanced qs') :
    Balanced (qs ++ qs') := by
  rw [Balanced, List.map_append, nesting_append, show nesting false [] _ = _ from h]
  exact h'

theorem enclosed (h : Balanced qs) : Enclosed qs :=
  nesting_outer true [] (fun hb => by cases hb) h

/-- Whatever stands between an opening bracket and its closing one. -/
theorem group {o c : Spelling} (ho : o.kind.closer? = some c.kind) (h : Enclosed qs) :
    Balanced (o :: qs ++ [c]) := by
  obtain ⟨hopener, -, hnot, hcloser⟩ := TokenKind.brackets ho
  have hinner := nesting_outer false [o.kind] (fun _ => .inl (by simp)) h
  rw [List.nil_append] at hinner
  rw [Balanced, List.cons_append, List.map_cons, nesting_cons]
  refine ⟨[o.kind], nestingStep_eq_some.2 (.inl ⟨hopener, rfl⟩), ?_⟩
  rw [List.map_append, nesting_append, hinner]
  refine nesting_cons.2 ⟨[], nestingStep_eq_some.2 (.inr (.inl ?_)), rfl⟩
  exact ⟨hnot, hcloser, o.kind, rfl, ho⟩

end Balanced

/-! ## Statements -/

/-- The brackets that tokens leave open, by their classes. -/
theorem Leaves.nesting {us opened : List Token} (h : Leaves ts opened) (hbreak : NoBreak ts)
    {ks : List TokenKind} (hks : nesting false (opened.map (·.kind)) (us.map (·.kind)) = some ks) :
    ∃ opened', opened'.map (·.kind) = ks ∧ Leaves (ts ++ us) opened' ∧ NoBreak (ts ++ us) := by
  induction us generalizing ts opened with
  | nil =>
    rw [List.append_nil]
    exact ⟨opened, Option.some.inj hks, h, hbreak⟩
  | cons u us ih =>
    rw [List.map_cons] at hks
    obtain ⟨next, hstep, hks⟩ := nesting_cons.1 hks
    have hnext : ∃ opened', opened'.map (·.kind) = next ∧ openStep opened u = some opened' ∧
        (u.kind = .semicolon → opened ≠ []) := by
      obtain ⟨ho, rfl⟩ | ⟨-, -, k, hopened, hk⟩ | ⟨ho, hc, rfl, hs⟩ := nestingStep_eq_some.1 hstep
      · exact ⟨u :: opened, rfl, openStep_opener opened ho, fun hu => by rw [hu] at ho; cases ho⟩
      · obtain ⟨o, outer, rfl, rfl, rfl⟩ := List.map_eq_cons_iff.1 hopened
        exact ⟨outer, rfl, openStep_closer outer hk, fun _ => List.cons_ne_nil o outer⟩
      · exact ⟨opened, rfl, openStep_plain opened ho hc, fun hu => by simpa using hs hu⟩
    obtain ⟨opened', rfl, hopen, hsemi⟩ := hnext
    simpa using ih (h.step hopen) (hbreak.concat h hsemi) hks

theorem kinds_placed (p : Position) (qs : List Spelling) :
    (placed p qs).map (·.kind) = qs.map (·.kind) := by
  induction qs generalizing p with
  | nil => rfl
  | cons q qs ih => rw [placed, List.map_cons, List.map_cons, ih]

/-- A written text whose brackets match is one statement. -/
theorem spansOf_written {qs : List Spelling} (hne : qs ≠ []) (h : Balanced qs) :
    spansOf (written qs) = .ok [(Passage.ofSpellings qs).span] := by
  have hkinds : ∀ t ∈ placed .start qs, t.kind ≠ .endOfInput := by
    intro t ht
    have : t.kind ∈ (placed .start qs).map (·.kind) := List.mem_map_of_mem ht
    rw [kinds_placed, List.mem_map] at this
    obtain ⟨q, -, hq⟩ := this
    exact hq ▸ q.kind_ne
  obtain ⟨opened, ho, hleaves, hbreak⟩ := Leaves.nesting (.nil .nil) noBreak_nil
    (show nesting false [] ((placed .start qs).map (·.kind)) = some [] by rwa [kinds_placed])
  obtain rfl : opened = [] := List.map_eq_nil_iff.1 ho
  have hplaced : placed .start qs ≠ [] := by
    rw [Ne, ← List.length_eq_zero_iff, length_placed, List.length_eq_zero_iff]
    exact hne
  rw [spansOf, tokenize, runes_written, tokensFrom_written]
  exact IsRun.splitSpans_eq ⟨hleaves.wellNested, hbreak⟩ rfl hkinds hplaced

/-! ## Skipping -/

theorem Cursor.balancedLength_nesting (h : nesting b opened (ts.map (·.kind)) = some opened')
    (rest : List Token) : balancedLength (opened.length + 1) (ts ++ rest) =
      ts.length + balancedLength (opened'.length + 1) rest := by
  induction ts generalizing opened with
  | nil =>
    obtain rfl : opened = opened' := Option.some.inj h
    rw [List.nil_append, List.length_nil, Nat.zero_add]
  | cons t ts ih =>
    obtain ⟨next, hstep, h⟩ := nesting_cons.1 h
    have ih := ih h
    rw [List.cons_append, balancedLength, List.length_cons]
    obtain ⟨ho, rfl⟩ | ⟨ho, hc, k, rfl, -⟩ | ⟨ho, hc, rfl, -⟩ := nestingStep_eq_some.1 hstep
    · have ih : balancedLength (opened.length + 2) (ts ++ rest) = _ := ih
      rw [if_pos ho]
      omega
    · rw [ho, hc, if_neg (by simp), if_pos rfl, List.length_cons]
      omega
    · rw [ho, hc, if_neg (by simp), if_neg (by simp)]
      omega

/-- Skipping to a closing bracket skips whatever tokens have their brackets matched. -/
theorem Cursor.balancedLength_enclosed {t : Token} (h : nesting true [] (ts.map (·.kind)) = some [])
    (ht : t.kind.isCloser) (rest : List Token) :
    balancedLength 1 (ts ++ t :: rest) = ts.length + 1 := by
  have hopener : t.kind.isOpener = false := by
    cases hk : t.kind <;> rw [hk] at ht <;> first | rfl | cases ht
  have := balancedLength_nesting h (t :: rest)
  rw [List.length_nil, Nat.zero_add] at this
  rw [this, balancedLength]
  simp [hopener, ht, balancedLength]

end AccessLayer.Surql
