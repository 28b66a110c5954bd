import AccessLayer.Proofs.Surql.ParseSafety
import AccessLayer.Record.ValueUse

/-!
# Where `$value` is seen

A field counts as one that looks at `$value` if the tokens of its `VALUE` clause say so. The check
goes over the expression and not over the tokens, and some tokens do not get into the expression:
those of literals, which are kept as text, of the bodies of scripts and of the types of casts. It
answers by the parameters outside of these, and answers yes where a part of the expression is kept
as source text.

* `Surql.Layout.hides`: the tokens that the check does not get to see.
* `usesValue_iff`: what the check answers for a field of a text.
* `usesValue_overlooks`: lists, objects, keys of records, scripts and casts hide `$value` from the
  check.
-/

namespace AccessLayer

namespace Surql

def Token.isValueParam (t : Token) : Bool := t.kind == .param && t.literal == "value"

theorem Token.isValueParam_of_kind {t : Token} (h : t.kind ≠ .param) : t.isValueParam = false := by
  rw [isValueParam, beq_eq_false_iff_ne.2 h, Bool.false_and]

namespace Layout

mutual

/-- Whether a part of the expression is a name or is kept as source text. -/
def hasSource : Layout → Bool
  | token .. | text .. | param _ => false
  | call _ _ args | script _ _ _ args => anySource args
  | cast _ _ _ operand => hasSource operand
  | binary left _ right => hasSource left || hasSource right
  | name _ | source .. => true

/-- Whether one of several expressions has a part that is kept as source text. -/
def anySource : List Layout → Bool
  | [] => false
  | e :: es => hasSource e || anySource es

end

mutual

/-- Whether the token `k` is inside of a literal, the body of a script or the type of a cast. -/
def hides (k : Nat) : Layout → Bool
  | text i j _ _ => i ≤ k && k < j
  | call _ _ args => anyHides k args
  | script _ b j args => anyHides k args || (b ≤ k && k < j)
  | cast i o _ operand => (i < k && k < o) || hides k operand
  | binary left _ right => hides k left || hides k right
  | token .. | param _ | name _ | source .. => false

/-- Whether one of several expressions hides the token `k`. -/
def anyHides (k : Nat) : List Layout → Bool
  | [] => false
  | e :: es => hides k e || anyHides k es

end

end Layout

namespace Passage

variable {s : Passage} {k : Nat}

mutual

/-- An expression hides only tokens of its own. -/
theorem Fits.hides_bounds (e : Layout) {m n : Nat} (h : s.Fits e m n) (hk : e.hides k) :
    m ≤ k ∧ k < n := by
  have hlt := h.lt
  cases h with
  | token | param | name | source => cases hk
  | flat | array | object => simpa only [Layout.hides, Bool.and_eq_true, decide_eq_true_eq] using hk
  | call _ _ h =>
    have := FitsAll.hides_bounds _ h hk
    omega
  | script _ _ h _ _ hbj =>
    simp only [Layout.hides, Bool.or_eq_true, Bool.and_eq_true, decide_eq_true_eq] at hk
    have hle := h.le
    obtain hk | hk := hk
    · have := FitsAll.hides_bounds _ h hk
      omega
    · omega
  | cast _ _ h =>
    simp only [Layout.hides, Bool.or_eq_true, Bool.and_eq_true, decide_eq_true_eq] at hk
    have := h.lt
    obtain hk | hk := hk
    · omega
    · have := Fits.hides_bounds _ h hk
      omega
  | binary hleft _ hright =>
    have := hleft.lt
    have := hright.lt
    obtain hk | hk := Bool.or_eq_true_iff.1 hk
    · have := Fits.hides_bounds _ hleft hk
      omega
    · have := Fits.hides_bounds _ hright hk
      omega
termination_by structural e

theorem FitsAll.hides_bounds (es : List Layout) {d m n : Nat} (h : s.FitsAll d es m n)
    (hk : Layout.anyHides k es) : m ≤ k ∧ k < n := by
  cases h with
  | nil => cases hk
  | last h =>
    rw [Layout.anyHides, Layout.anyHides, Bool.or_false] at hk
    have := Fits.hides_bounds _ h hk
    omega
  | cons h _ hes =>
    have := h.lt
    have := hes.le
    obtain hk | hk := Bool.or_eq_true_iff.1 hk
    · have := Fits.hides_bounds _ h hk
      omega
    · have := FitsAll.hides_bounds _ hes hk
      omega
termination_by structural es

end

end Passage

end Surql

namespace Record

open Surql

/-! ## Tokens that are seen -/

/-- Some token from `m` up to `n` is `$value` and not hidden. -/
def Shown (s : Passage) (hidden : Nat → Bool) (m n : Nat) : Prop :=
  ∃ k, m ≤ k ∧ k < n ∧ (s.token k).isValueParam = true ∧ hidden k = false

section Shown

variable {s : Passage} {a b : Nat → Bool} {m i j n : Nat}

/-- Tokens before, between and after the parts do not count if they are not `$value`. -/
theorem shown_or (hmi : m ≤ i) (hij : i ≤ j) (hjn : j ≤ n)
    (hgap : ∀ k, i ≤ k → k < j → (s.token k).isValueParam = false)
    (ha : ∀ k, a k → k < i) (hb : ∀ k, b k → j ≤ k) :
    Shown s (fun k => a k || b k) m n ↔ Shown s a m i ∨ Shown s b j n := by
  constructor
  · rintro ⟨k, hm, hn, hv, hk⟩
    obtain ⟨hka, hkb⟩ := Bool.or_eq_false_iff.1 hk
    by_cases hi : k < i
    · exact .inl ⟨k, hm, hi, hv, hka⟩
    by_cases hj : k < j
    · rw [hgap k (by omega) hj] at hv
      cases hv
    · exact .inr ⟨k, by omega, hn, hv, hkb⟩
  · rintro (⟨k, hm, hi, hv, hk⟩ | ⟨k, hj, hn, hv, hk⟩)
    · refine ⟨k, hm, by omega, hv, Bool.or_eq_false_iff.2 ⟨hk, ?_⟩⟩
      exact Bool.eq_false_iff.2 fun h => by have := hb k h; omega
    · refine ⟨k, by omega, hn, hv, Bool.or_eq_false_iff.2 ⟨?_, hk⟩⟩
      exact Bool.eq_false_iff.2 fun h => by have := ha k h; omega

/-- Tokens at both ends do not count if they are not `$value`. -/
theorem shown_inner (hmi : m ≤ i) (hjn : j ≤ n)
    (hbefore : ∀ k, m ≤ k → k < i → (s.token k).isValueParam = false)
    (hafter : ∀ k, j ≤ k → k < n → (s.token k).isValueParam = false) :
    Shown s a m n ↔ Shown s a i j := by
  constructor
  · rintro ⟨k, hm, hn, hv, hk⟩
    refine ⟨k, ?_, ?_, hv, hk⟩
    · by_contra hlt
      rw [hbefore k hm (by omega)] at hv
      cases hv
    · by_contra hlt
      rw [hafter k (by omega) hn] at hv
      cases hv
  · rintro ⟨k, hi, hj, hv, hk⟩
    exact ⟨k, by omega, by omega, hv, hk⟩

/-- Nothing is seen where all tokens are hidden or are not `$value`. -/
theorem not_shown (h : ∀ k, m ≤ k → k < n → (s.token k).isValueParam = false ∨ a k) :
    ¬ Shown s a m n := by
  rintro ⟨k, hm, hn, hv, hk⟩
  obtain h | h := h k hm hn
  · rw [h] at hv
    cases hv
  · rw [h] at hk
    cases hk

end Shown

/-! ## Expressions -/

variable {s : Passage}

theorem isValueParam_at {i : Nat} {kind : TokenKind} (hi : (s.token i).kind = kind)
    (h : kind ≠ .param) : ∀ k, i ≤ k → k < i + 1 → (s.token k).isValueParam = false := by
  intro k hk hk'
  obtain rfl := Nat.le_antisymm hk (Nat.le_of_lt_succ hk')
  exact Token.isValueParam_of_kind (hi ▸ h)

/-- The name of a function and the bracket after it are not `$value`. -/
theorem isValueParam_head {i : Nat} (hi : (s.token i).kind = .ident)
    (ho : (s.token (i + 1)).kind = .lparen) :
    ∀ k, i ≤ k → k < i + 2 → (s.token k).isValueParam = false := by
  intro k hk hk'
  obtain hlt | hle := Nat.lt_or_ge k (i + 1)
  · exact isValueParam_at hi (by decide) k hk hlt
  · exact isValueParam_at ho (by decide) k hle hk'

mutual

/-- The check finds the parameters that are not hidden, and takes source text for one. -/
theorem exprUsesValue_iff (e : Layout) {m n : Nat} (h : s.Fits e m n) :
    exprUsesValue (e.value s) ↔ e.hasSource ∨ Shown s (e.hides ·) m n := by
  cases h with
  | token hi hk =>
    simp only [Layout.value, exprUsesValue, Layout.hasSource, Bool.false_eq_true, false_or,
      false_iff]
    refine not_shown fun k hm hn => .inl ?_
    obtain rfl : k = m := by omega
    exact Token.isValueParam_of_kind hk
  | flat | array | object =>
    simp only [Layout.value, exprUsesValue, Layout.hasSource, Bool.false_eq_true, false_or,
      false_iff]
    refine not_shown fun k hm hn => .inr ?_
    simp only [Layout.hides, Bool.and_eq_true, decide_eq_true_eq]
    exact ⟨hm, hn⟩
  | param hi hk =>
    simp only [Layout.value, exprUsesValue, Layout.hasSource, Bool.false_eq_true, false_or]
    constructor
    · intro hname
      exact ⟨m, le_rfl, Nat.lt_succ_self m, by rw [Token.isValueParam, hk, hname]; rfl, rfl⟩
    · rintro ⟨k, hm, hn, hv, -⟩
      obtain rfl : k = m := by omega
      rw [Token.isValueParam, Bool.and_eq_true] at hv
      exact hv.2
  | call hi ho h hc =>
    simp only [Layout.value, exprUsesValue, Layout.hasSource, Layout.hides]
    rw [anyUsesValue_iff _ h]
    refine or_congr_right (shown_inner (by omega) (by omega) ?_ ?_).symm
    · exact isValueParam_head hi ho
    · exact isValueParam_at hc (by decide)
  | @script _ b _ _ hi ho h hc _ hbj =>
    simp only [Layout.value, exprUsesValue, Layout.hasSource, Layout.hides]
    have hle := h.le
    have hbody : ¬ Shown s (fun k => b + 1 ≤ k && k < n) (b + 1) n :=
      not_shown fun k hk hn => .inr (by simp [hk, hn])
    rw [anyUsesValue_iff _ h, shown_or (i := b) (by omega) (Nat.le_succ b) hbj.le,
      or_iff_left hbody]
    · refine or_congr_right (shown_inner (by omega) le_rfl ?_ fun k hk hn => by omega).symm
      exact isValueParam_head hi ho
    · exact isValueParam_at hc (by decide)
    · exact fun k hk => (h.hides_bounds _ hk).2
    · intro k hk
      rw [Bool.and_eq_true, decide_eq_true_eq] at hk
      exact hk.1
  | @cast _ o _ _ _ hi hio h =>
    simp only [Layout.value, exprUsesValue, anyUsesValue, Bool.or_false, Layout.hasSource,
      Layout.hides]
    have htype : ¬ Shown s (fun k => m < k && k < o) m o := by
      refine not_shown fun k hm ho => ?_
      obtain rfl | hlt := hm.eq_or_lt
      · exact .inl (isValueParam_at hi (by decide) _ le_rfl (Nat.lt_succ_self _))
      · exact .inr (by simp [hlt, ho])
    rw [exprUsesValue_iff _ h, shown_or hio.le le_rfl h.lt.le, or_iff_right htype]
    · exact fun k hk hk' => by omega
    · intro k hk
      rw [Bool.and_eq_true, decide_eq_true_eq, decide_eq_true_eq] at hk
      exact hk.2
    · exact fun k hk => (h.hides_bounds _ hk).1
  | binary hleft hop hright =>
    simp only [Layout.value, exprUsesValue, Bool.or_eq_true, Layout.hasSource, Layout.hides]
    obtain ⟨-, hkind⟩ := Likeness.at?_kind hop
    have hlt := hleft.lt
    have hlt' := hright.lt
    rw [exprUsesValue_iff _ hleft, exprUsesValue_iff _ hright, or_or_or_comm,
      shown_or hlt.le (Nat.le_add_right _ _) hlt'.le]
    · intro k hk hk'
      have := hkind k hk hk'
      exact Token.isValueParam_of_kind fun h => by simp [h] at this
    · exact fun k hk => (hleft.hides_bounds _ hk).2
    · exact fun k hk => (hright.hides_bounds _ hk).1
  | name | source => simp only [Layout.value, exprUsesValue, Layout.hasSource, true_or]
termination_by structural e

theorem anyUsesValue_iff (es : List Layout) {m n : Nat} (h : s.FitsAll 0 es m n) :
    anyUsesValue (Layout.values s es) ↔
      Layout.anySource es ∨ Shown s (Layout.anyHides · es) m n := by
  cases h with
  | nil =>
    simp only [Layout.values, anyUsesValue, Layout.anySource, Bool.false_eq_true, false_or,
      false_iff]
    exact not_shown fun k hm hn => by omega
  | last h =>
    simp only [Layout.values, anyUsesValue, Layout.anySource, Layout.anyHides, Bool.or_false]
    exact exprUsesValue_iff _ h
  | cons h hc hes =>
    simp only [Layout.values, anyUsesValue, Layout.anySource, Layout.anyHides, Bool.or_eq_true]
    have hlt := h.lt
    rw [exprUsesValue_iff _ h, anyUsesValue_iff _ hes, or_or_or_comm,
      shown_or (by omega) (Nat.le_succ _) hes.le]
    · rfl
    · exact isValueParam_at hc (by decide)
    · exact fun k hk => (h.hides_bounds _ hk).2
    · exact fun k hk => (hes.hides_bounds _ hk).1
termination_by structural es

end

/-! ## Fields -/

variable {spans : List Span} {d : FieldDef} {v : Value}

/-- The value of a field was read after the word `VALUE`. -/
theorem exists_valueClause (hspans : spansOf s.src = .ok spans) (hs : s.span ∈ spans)
    (hd : Statement.ofSpan s.src s.span = .ok (.field d)) (hv : d.value = some v) :
    ∃ m n e, (s.token m).isKeyword "VALUE" ∧ s.ReadsAs e (m + 1) n ∧ v = e.value s := by
  obtain ⟨hsound, hpos⟩ := Passage.sound_of_mem hspans hs
  obtain ⟨l, hl, hst, -⟩ | ⟨e, _, he, -⟩ := (Likeness.refl hsound).ofSpan_layout hpos
  · have hst := Except.ok.inj (hst.symm.trans hd)
    cases l with
    | field l =>
      cases hst
      obtain ⟨e, he, rfl⟩ := Option.map_eq_some_iff.1 hv
      obtain ⟨m, n, hkey, hread⟩ := hl.value e he
      exact ⟨m, n, e, hkey, hread, rfl⟩
    | table | event | define | raw => cases hst
  · rw [he] at hd
    cases hd

/-- However the expression of a clause is laid out over its tokens, the field counts as one that
looks at `$value` if and only if a part of the expression is a name or is kept as source text, or
`$value` is among the tokens where it is not hidden. -/
theorem usesValue_iff (hspans : spansOf s.src = .ok spans) (hs : s.span ∈ spans)
    (hd : Statement.ofSpan s.src s.span = .ok (.field d)) (hv : d.value = some v) :
    ∃ m n, (s.token m).isKeyword "VALUE" = true ∧ value (s.cursor (m + 1)) = .ok (v, s.cursor n) ∧
      (∃ e, s.Fits e (m + 1) n ∧ v = e.value s) ∧
      ∀ e, s.Fits e (m + 1) n → v = e.value s →
        (usesValue d.value = true ↔ e.hasSource = true ∨
          ∃ k, m + 1 ≤ k ∧ k < n ∧ (s.token k).isValueParam = true ∧ e.hides k = false) := by
  obtain ⟨m, n, e, hkey, ⟨hfits, hread⟩, he⟩ := exists_valueClause hspans hs hd hv
  refine ⟨m, n, hkey, he ▸ hread, ⟨e, hfits, he⟩, ?_⟩
  rintro e hfits rfl
  rw [hv]
  exact exprUsesValue_iff e hfits

/-- Whether a text is one statement that defines a field with the given property. -/
def checkField (p : Passage → FieldDef → Bool) (src : Bytes) : Bool :=
  match spansOf src with
  | .ok [x] =>
    match Statement.ofSpan src x with
    | .ok (.field d) => p ⟨src, x⟩ d
    | _ => false
  | _ => false

theorem exists_of_checkField {p : Passage → FieldDef → Bool} {src : Bytes} (h : checkField p src) :
    ∃ (s : Passage) (d : FieldDef), s.src = src ∧ spansOf s.src = .ok [s.span] ∧
      Statement.ofSpan s.src s.span = .ok (.field d) ∧ p s d := by
  unfold checkField at h
  split at h
  · next x hx =>
    split at h
    · next d hd => exact ⟨⟨src, x⟩, d, rfl, hx, hd, h⟩
    · cases h
  · cases h

/-- Parameters count in operands, calls and casts, also beside a list that hides one. -/
theorem usesValue_iff_trim : ∃ (s : Passage) (d : FieldDef) (v : Value),
    s.src = "DEFINE FIELD f ON t VALUE [$value] + string::trim(<string> $value)" ∧
    spansOf s.src = .ok [s.span] ∧ Statement.ofSpan s.src s.span = .ok (.field d) ∧
      d.value = some v ∧
    usesValue d.value = true ∧
    ∃ m n, (s.token m).isKeyword "VALUE" = true ∧ value (s.cursor (m + 1)) = .ok (v, s.cursor n) ∧
      (∃ e, s.Fits e (m + 1) n ∧ v = e.value s) ∧
      ∀ e, s.Fits e (m + 1) n → v = e.value s →
        (usesValue d.value = true ↔ e.hasSource = true ∨
          ∃ k, m + 1 ≤ k ∧ k < n ∧ (s.token k).isValueParam = true ∧ e.hides k = false) := by
  have h : checkField (fun _ d => d.value.isSome && usesValue d.value)
      "DEFINE FIELD f ON t VALUE [$value] + string::trim(<string> $value)" = true := by
    decide +kernel
  obtain ⟨s, d, hsrc, hspans, hd, hp⟩ := exists_of_checkField h
  rw [Bool.and_eq_true, Option.isSome_iff_exists] at hp
  obtain ⟨⟨v, hv⟩, huse⟩ := hp
  exact ⟨s, d, v, hsrc, hspans, hd, hv, huse, usesValue_iff hspans (List.mem_singleton.2 rfl) hd hv⟩

/-- Lists, objects, keys of records, scripts and types of casts hide `$value`: the check answers
that the field does not look at it. -/
theorem usesValue_overlooks : List.Forall (fun clause : String =>
      ∃ (s : Passage) (d : FieldDef) (v : Value) (m n k : Nat),
        s.src = Bytes.ofString ("DEFINE FIELD f ON t VALUE " ++ clause) ∧
          spansOf s.src = .ok [s.span] ∧
        Statement.ofSpan s.src s.span = .ok (.field d) ∧ d.value = some v ∧
        (s.token m).isKeyword "VALUE" = true ∧ value (s.cursor (m + 1)) = .ok (v, s.cursor n) ∧
        m < k ∧ k < n ∧ (s.token k).isValueParam = true ∧ usesValue d.value = false)
    ["[$value]", "\x7b a: $value \x7d", "t:[$value]", "function() \x7b return $value; \x7d",
      "<\x7b a: $value \x7d> 1"] := by
  refine List.forall_iff_forall_mem.2 fun clause hclause => ?_
  -- the only word `VALUE` is the token 5, and the clause goes on to the end
  have h : checkField (fun s d => d.value.isSome && !usesValue d.value &&
      (List.range s.length).all (fun m => !(s.token m).isKeyword "VALUE" || m == 5) &&
      (value (s.cursor 6)).toOption.all (·.2.rest.isEmpty) &&
      (List.range s.length).any fun k => 5 < k && (s.token k).isValueParam)
      (Bytes.ofString ("DEFINE FIELD f ON t VALUE " ++ clause)) = true := by
    revert clause
    decide +kernel
  obtain ⟨s, d, hsrc, hspans, hd, hp⟩ := exists_of_checkField h
  simp only [Bool.and_eq_true, Option.isSome_iff_exists, Bool.not_eq_true'] at hp
  obtain ⟨⟨⟨⟨⟨v, hv⟩, huse⟩, honly⟩, hend⟩, hsome⟩ := hp
  obtain ⟨m, n, e, hkey, ⟨hfits, hread⟩, rfl⟩ :=
    exists_valueClause hspans (List.mem_singleton.2 rfl) hd hv
  have hlt := hfits.lt.trans_le hfits.le
  obtain rfl : m = 5 := by
    have := List.all_eq_true.1 honly m (List.mem_range.2 (by omega))
    rwa [hkey, Bool.not_true, Bool.false_or, beq_iff_eq] at this
  have hn : s.length ≤ n := by
    rw [hread] at hend
    have hrest := s.length_rest n
    rw [List.isEmpty_iff.1 hend] at hrest
    exact Nat.le_of_sub_eq_zero hrest.symm
  obtain ⟨k, hk, hvalue⟩ := List.any_eq_true.1 hsome
  rw [List.mem_range] at hk
  rw [Bool.and_eq_true, decide_eq_true_eq] at hvalue
  exact ⟨s, d, _, 5, n, k, hsrc, hspans, hd, hv, hkey, hread, hvalue.1, by omega, hvalue.2, huse⟩

end Record

end AccessLayer
