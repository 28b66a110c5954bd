import AccessLayer.Proofs.Surql.Likeness

/-!
# Types of alike statements

Types are read alike from statements that are alike: the same type is read, from at least one token
and with all brackets closed. The readers of nested types need fuel for the tokens that are left,
and have it. More fuel changes nothing.

* `Likeness.Track.reads_single`: one type that is no alternation.
* `Likeness.Track.readsKind_kindFuel`: a type, with a unit of fuel for each token that is left.
-/

namespace AccessLayer.Surql.Likeness.Track

variable {s s' : Passage} {L : Likeness s s'} (T : L.Track)

/-- The same of both statements, and at least one token with all its brackets closed. -/
def Same {α : Type} (_ : L.Track) (m : Nat) (x x' : α) (n : Nat) : Prop :=
  x = x' ∧ m < n ∧ s.Whole m n

/-- Two readers of types that take the same type from both statements, where fewer than `d` tokens
are left. -/
def ReadsKind (d : Nat) (r r' : Reader Kind) : Prop :=
  ∀ m, m ≤ s.length → s.length < m + d → T.Reads r r' m (T.Same m)

variable {T} {d m fuel fuel' : Nat} {nested nested' : Reader Kind}

section Nested

variable (hr : T.ReadsKind d nested nested')
include hr

theorem reads_arguments (hm : m ≤ s.length) (hd : s.length < m + d) (hf : s.length < m + fuel)
    (hle : fuel ≤ fuel') :
    T.Reads (Kind.arguments nested fuel) (Kind.arguments nested' fuel') m (T.Same m) := by
  induction fuel generalizing fuel' m with
  | zero => omega
  | succ fuel ih =>
    obtain _ | fuel' := fuel'
    · omega
    refine (hr m hm hd).bind ?_
    rintro k _ n hmn hn ⟨rfl, hlt, hw⟩
    refine T.carries_check hn (by decide) (fun hk hn' => ?_) (fun _ =>
      carries_pure hn ⟨rfl, hlt, hw⟩)
    refine T.carries_skip hn' ?_
    refine (ih hn' (by omega) (by omega) (by omega)).bind ?_
    rintro ks _ n' _ hn' ⟨rfl, _, hw'⟩
    exact carries_pure hn' ⟨rfl, by omega, (hw.trans (.plain (by rw [hk]; rfl))).trans hw'⟩

theorem reads_single (hm : m ≤ s.length) (hd : s.length ≤ m + d) (hf : s.length ≤ m + fuel)
    (hle : fuel ≤ fuel') :
    T.Reads (Kind.single nested fuel) (Kind.single nested' fuel') m (T.Same m) := by
  refine T.carries_advance_or_fail hm (.expectedType (s.token m)) rfl
    (fun t ht => by simp only [ht]; exact ⟨rfl, rfl⟩) fun hlt => ?_
  have hgroup : (s.token m).kind.isOpener = true →
      T.Reads
        (do Reader.skipBalanced; return Kind.ofLiteral (← Reader.raw (s.token m).start.offset))
        (do Reader.skipBalanced; return Kind.ofLiteral (← Reader.raw (s'.token m).start.offset))
        (m + 1)
        (T.Same m) := by
    intro ho
    refine T.carries_skipBalanced ho fun n hmn hn hw => T.carries_raw hmn hn ?_
    rw [L.slice_eq m (n - 1) (by omega) (by omega)]
    exact carries_pure hn ⟨rfl, hmn, hw⟩
  have hliteral : ∀ g : Bytes → Kind, (s.token m).kind ∈ [.string, .number, .duration] →
      T.Reads (pure (g (s.token m).literal)) (pure (g (s'.token m).literal)) (m + 1)
        (T.Same m) := by
    intro g hk
    have hplain : ∀ k ∈ [TokenKind.string, .number, .duration], k ≠ .ident ∧
        (k.isOpener || k.isCloser) = false := by
      decide
    rw [L.literal_eq m (hplain _ hk).1]
    exact carries_pure hlt ⟨rfl, Nat.lt_succ_self m, .plain (hplain _ hk).2⟩
  rw [L.kind_eq, L.lower_eq]
  split
  · next hk =>
    have hname : s.Whole m (m + 1) := .plain (by rw [hk]; rfl)
    refine T.carries_check hlt (by decide) (fun hk' hlt' => ?_)
      (fun _ => carries_pure hlt ⟨rfl, Nat.lt_succ_self m, hname⟩)
    refine T.carries_skip hlt' ?_
    refine (reads_arguments hr hlt' (by omega) (by omega) hle).bind ?_
    rintro ks _ n hmn hn ⟨rfl, _, hw⟩
    refine T.carries_expect (by decide) hn fun hk'' hlt => carries_pure hlt ⟨rfl, by omega, ?_⟩
    exact ((hname.trans (.plain (by rw [hk']; rfl))).trans hw).trans (.plain (by rw [hk'']; rfl))
  · next hk => exact hliteral (Kind.ofLiteral ∘ Bytes.quote) (by simp [hk])
  · next hk => exact hliteral Kind.ofLiteral (by simp [hk])
  · next hk => exact hliteral Kind.ofLiteral (by simp [hk])
  · next hk => exact hgroup (by rw [hk]; rfl)
  · next hk => exact hgroup (by rw [hk]; rfl)
  · exact carries_error (.expectedType (s.token m)) rfl hm rfl rfl

theorem reads_alternatives (hm : m ≤ s.length) (hd : s.length < m + d) (hf : s.length < m + fuel)
    (hle : fuel ≤ fuel') :
    T.Reads (Kind.alternatives nested fuel) (Kind.alternatives nested' fuel') m
      fun ks ks' n => ks = ks' ∧ s.Whole m n := by
  induction fuel generalizing fuel' m with
  | zero => omega
  | succ fuel ih =>
    obtain _ | fuel' := fuel'
    · omega
    refine T.carries_peek ?_
    rw [T.isOperator_eq hm]
    split
    · next hop =>
      have hlt := L.sound.lt_of_isOperator hop
      refine T.carries_skip hlt ?_
      refine (hr (m + 1) hlt (by omega)).bind ?_
      rintro k _ n hmn hn ⟨rfl, _, hw⟩
      refine (ih hn (by omega) (by omega) (by omega)).bind ?_
      rintro ks _ n _ hn ⟨rfl, hw'⟩
      have hbar : s.Whole m (m + 1) := .plain (by rw [Passage.kind_of_isOperator hop]; rfl)
      exact carries_pure hn ⟨rfl, (hbar.trans hw).trans hw'⟩
    · exact carries_pure hm ⟨rfl, .refl m⟩

theorem readsKind_alternation (hf : d ≤ fuel + 1) (hle : fuel ≤ fuel') :
    T.ReadsKind d (Kind.alternation nested fuel) (Kind.alternation nested' fuel') := by
  intro m hm hd
  refine (hr m hm hd).bind ?_
  rintro k _ n hmn hn ⟨rfl, hlt, hw⟩
  refine (reads_alternatives hr hn (by omega) (by omega) hle).bind ?_
  rintro ks _ n hmn hn ⟨rfl, hw'⟩
  split
  · exact carries_pure hn ⟨rfl, by omega, hw.trans hw'⟩
  · exact carries_pure hn ⟨rfl, by omega, hw.trans hw'⟩

end Nested

/-- Types are read alike where there is a unit of fuel for each token that is left. -/
theorem readsKind_kindFuel (hle : fuel ≤ fuel') :
    T.ReadsKind fuel (kindFuel fuel) (kindFuel fuel') := by
  induction fuel generalizing fuel' with
  | zero =>
    intro m hm hd
    omega
  | succ fuel ih =>
    obtain _ | fuel' := fuel'
    · omega
    refine readsKind_alternation (fun m hm hd => ?_) le_rfl (by omega)
    exact reads_single (ih (by omega)) hm (by omega) (by omega) (by omega)

theorem reads_kind (hm : m ≤ s.length) : T.Reads kind kind m (T.Same m) := by
  have hle := T.le
  refine T.carries_get ?_
  rw [s.length_rest, cursor, Passage.length_rest]
  exact readsKind_kindFuel (by omega) m hm (by omega)

end AccessLayer.Surql.Likeness.Track
