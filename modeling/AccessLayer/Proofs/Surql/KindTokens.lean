import AccessLayer.Proofs.Surql.Passage
import AccessLayer.Surql.Parse.Kind

/-!
# Types read from tokens

What the readers of types make of the tokens of names, arguments, alternations and literals,
wherever these tokens stand and whatever follows them that does not go on with the type.

* `ReadAs`: the tokens from one place to another are read as a type.
* `DividedBy`: the types from one place to another, with a token between any two of them.
* `readAs_name`, `readAs_angled`, `readAs_number`, `readAs_string`, `readAs_group`: single types.
-/

namespace AccessLayer.Surql

open Reader
open Kind (alternation alternatives arguments single spread)
open Passage

/-- The reader of types, or of types that are no alternations. -/
def kindReader (bars : Bool) (fuel : Nat) : Reader Kind :=
  if bars then kindFuel (fuel + 1) else single (kindFuel fuel) fuel

theorem kindReader_true (fuel : Nat) :
    kindReader true fuel = alternation (kindReader false fuel) fuel := rfl

/-- What may follow a type: no opening angle bracket, and no bar after an alternation. -/
def EndsReading (bars : Bool) (t : Token) : Prop :=
  t.kind ≠ .lt ∧ (bars = true → t.isOperator "|" = false)

/-- A bar ends a type that is no alternation. -/
theorem endsReading_bar {t : Token} (h : t.isOperator "|") : EndsReading false t := by
  refine ⟨fun hlt => ?_, fun hbars => by cases hbars⟩
  rw [Token.isOperator, hlt] at h
  cases h

theorem endsReading_of_kind (bars : Bool) {t : Token} (h : t.kind = .gt ∨ t.kind = .comma) :
    EndsReading bars t := by
  rw [EndsReading, Token.isOperator]
  rcases h with h | h <;> rw [h] <;> exact ⟨by decide, fun _ => rfl⟩

theorem EndsReading.weaken {t : Token} (h : EndsReading true t) : EndsReading false t :=
  ⟨h.1, fun hbars => by cases hbars⟩

/-- The tokens from place `i` to place `j` are read as the type, with a unit of fuel for each. -/
structure ReadAs (s : Passage) (bars : Bool) (k : Kind) (i j : Nat) : Prop where
  lt : i < j
  le : j ≤ s.length
  read (fuel : Nat) (hfuel : j ≤ i + fuel) (hj : EndsReading bars (s.token j)) :
    kindReader bars fuel (s.cursor i) = .ok (k, s.cursor j)

/-- The types from place `i` to place `l`, with a token between any two of them. -/
inductive DividedBy (s : Passage) (sep : Token → Prop) (bars : Bool) :
    List Kind → Nat → Nat → Prop where
  | one {k : Kind} {i j : Nat} (h : ReadAs s bars k i j) : DividedBy s sep bars [k] i j
  | cons {k : Kind} {ks : List Kind} {i j l : Nat} (h : ReadAs s bars k i j) (hj : sep (s.token j))
      (hs : DividedBy s sep bars ks (j + 1) l) : DividedBy s sep bars (k :: ks) i l

theorem DividedBy.bounds {s : Passage} {sep : Token → Prop} {bars : Bool} {ks : List Kind}
    {i l : Nat} (h : DividedBy s sep bars ks i l) : i < l ∧ l ≤ s.length := by
  induction h with
  | one h => exact ⟨h.lt, h.le⟩
  | cons h _ _ ih =>
    have := h.lt
    exact ⟨by omega, ih.2⟩

section Reading

variable {s : Passage} {k : Kind} {ks : List Kind} {i l : Nat}

/-! ## Alternations -/

/-- The alternation of some types, which is the type itself where there is one only. -/
def alternationOf (k : Kind) : List Kind → Kind
  | [] => k
  | ks => .mk Kind.eitherName (k :: ks) []

/-- No members of an alternation follow where no bar does. -/
theorem alternatives_nil (one : Reader Kind) {fuel : Nat} (hfuel : 0 < fuel)
    (h : (s.token l).isOperator "|" = false) :
    alternatives one fuel (s.cursor l) = .ok ([], s.cursor l) := by
  obtain ⟨fuel, rfl⟩ := Nat.exists_eq_add_one.2 hfuel
  rw [alternatives, bind_ok peek_ok, h]
  rfl

/-- The members of an alternation after the first are read up to what ends a type. -/
theorem alternatives_dividedBy (n fuel : Nat)
    (h : DividedBy s (·.isOperator "|" = true) false ks (i + 1) l)
    (hi : (s.token i).isOperator "|") (hn : l ≤ i + 1 + n) (hfuel : l ≤ i + fuel)
    (hl : EndsReading true (s.token l)) :
    alternatives (kindReader false n) fuel (s.cursor i) = .ok (ks, s.cursor l) := by
  have hbounds := h.bounds
  obtain ⟨fuel, rfl⟩ := Nat.exists_eq_add_one.2 (show 0 < fuel by omega)
  generalize hfrom : i + 1 = from' at h
  induction h generalizing i fuel with
  | @one k _ j h =>
    subst hfrom
    have hone := h.read n hn hl.weaken
    rw [alternatives, bind_ok peek_ok, if_pos hi, bind_ok (discard_ok (advance_ok (by omega))),
      bind_ok hone, bind_ok (alternatives_nil _ (by omega) (hl.2 rfl))]
    rfl
  | @cons k ks _ j l h hj hs ih =>
    subst hfrom
    have hlt := h.lt
    have hrest := hs.bounds
    obtain ⟨fuel, rfl⟩ := Nat.exists_eq_add_one.2 (show 0 < fuel by omega)
    have hone := h.read n (by omega) (endsReading_bar hj)
    have hothers := ih hj (by omega) hl (by omega) fuel (by omega) rfl
    rw [alternatives, bind_ok peek_ok, if_pos hi, bind_ok (discard_ok (advance_ok (by omega))),
      bind_ok hone, bind_ok hothers]
    rfl

/-- Types with bars between them are read as their alternation. -/
theorem readAs_alternationOf (h : DividedBy s (·.isOperator "|" = true) false (k :: ks) i l) :
    ReadAs s true (alternationOf k ks) i l := by
  refine ⟨h.bounds.1, h.bounds.2, fun fuel hfuel hl => ?_⟩
  cases h with
  | one h =>
    have hlt := h.lt
    rw [kindReader_true, alternation, bind_ok (h.read fuel hfuel hl.weaken),
      bind_ok (alternatives_nil _ (by omega) (hl.2 rfl))]
    rfl
  | @cons _ _ _ j _ h hj hs =>
    have hlt := h.lt
    have hrest := hs.bounds
    have hone := h.read fuel (by omega) (endsReading_bar hj)
    have hothers := alternatives_dividedBy fuel fuel hs hj (by omega) (by omega) hl
    rw [kindReader_true, alternation, bind_ok hone, bind_ok hothers]
    cases hs <;> rfl

/-! ## Names and arguments -/

/-- Types with commas between them are read as arguments up to the closing angle bracket. -/
theorem arguments_dividedBy (n fuel : Nat) (h : DividedBy s (·.kind = .comma) true ks i l)
    (hn : l ≤ i + n) (hfuel : l ≤ i + fuel) (hl : (s.token l).kind = .gt) :
    arguments (kindReader true n) fuel (s.cursor i) = .ok (ks, s.cursor l) := by
  have hbounds := h.bounds
  obtain ⟨fuel, rfl⟩ := Nat.exists_eq_add_one.2 (show 0 < fuel by omega)
  induction h generalizing fuel with
  | @one k i j h =>
    rw [arguments, bind_ok (h.read n hn (endsReading_of_kind true (.inl hl))),
      bind_ok (check_ok .comma), hl]
    rfl
  | @cons k ks i j l h hj hs ih =>
    have hlt := h.lt
    have hrest := hs.bounds
    obtain ⟨fuel, rfl⟩ := Nat.exists_eq_add_one.2 (show 0 < fuel by omega)
    have hone := h.read n (by omega) (endsReading_of_kind true (.inr hj))
    have hothers := ih (by omega) hl hrest fuel (by omega)
    rw [arguments, bind_ok hone, bind_ok (check_ok .comma), if_pos (beq_iff_eq.2 hj),
      bind_ok (discard_ok (advance_ok (by omega))), bind_ok hothers]
    rfl

/-- A name without arguments. -/
theorem readAs_name {n : Bytes} (hi : i < s.length) (ht : (s.token i).kind = .ident)
    (hn : Bytes.toLower (s.token i).literal = n) : ReadAs s false (.mk n [] []) i (i + 1) := by
  refine ⟨Nat.lt_succ_self i, hi, fun fuel _ hj => ?_⟩
  show single (kindFuel fuel) fuel (s.cursor i) = _
  rw [single, bind_ok (advance_ok hi), ht]
  dsimp only
  rw [bind_ok (check_ok .lt), beq_eq_false_iff_ne.2 hj.1, hn]
  rfl

/-- A name with arguments between angle brackets. -/
theorem readAs_angled {n : Bytes} {args : List Kind} (ht : (s.token i).kind = .ident)
    (hn : Bytes.toLower (s.token i).literal = n) (hlt : (s.token (i + 1)).kind = .lt)
    (h : DividedBy s (·.kind = .comma) true ks (i + 2) l) (hl : l < s.length)
    (hgt : (s.token l).kind = .gt)
    (hargs : spread n ks = args) : ReadAs s false (.mk n args []) i (l + 1) := by
  have hbounds := h.bounds
  refine ⟨by omega, hl, fun fuel hfuel _ => ?_⟩
  obtain ⟨f, rfl⟩ := Nat.exists_eq_add_one.2 (show 0 < fuel by omega)
  have hread := arguments_dividedBy f (f + 1) h (by omega) (by omega) hgt
  show single (kindReader true f) (f + 1) (s.cursor i) = _
  rw [single, bind_ok (advance_ok (by omega)), ht]
  dsimp only
  rw [bind_ok (check_ok .lt), if_pos (beq_iff_eq.2 hlt),
    bind_ok (discard_ok (advance_ok (by omega))),
    bind_ok hread, bind_ok (expect_ok hl hgt), hn, hargs]
  rfl

theorem spread_of_ne {name : Bytes} (h : name ≠ Kind.recordName) (args : List Kind) :
    spread name args = args := by
  simp [spread, beq_eq_false_iff_ne.2 h]

/-- A link takes the members of an alternation as its arguments. -/
theorem spread_alternationOf (hk : k.name ≠ Kind.eitherName) (ks : List Kind) :
    spread Kind.recordName [alternationOf k ks] = k :: ks := by
  cases ks with
  | nil => simp [spread, alternationOf, hk]
  | cons k' ks => simp [spread, alternationOf, Kind.name, Kind.args]

/-! ## Literals -/

theorem readAs_number {w : Bytes} (hi : i < s.length)
    (ht : (s.token i).kind = .number ∨ (s.token i).kind = .duration)
    (hw : (s.token i).literal = w) : ReadAs s false (.ofLiteral w) i (i + 1) := by
  refine ⟨Nat.lt_succ_self i, hi, fun fuel _ _ => ?_⟩
  show single (kindFuel fuel) fuel (s.cursor i) = _
  rw [single, bind_ok (advance_ok hi)]
  rcases ht with ht | ht <;> rw [ht, ← hw] <;> rfl

theorem readAs_string {w : Bytes} (hi : i < s.length) (ht : (s.token i).kind = .string)
    (hw : (s.token i).literal = w) : ReadAs s false (.ofLiteral (Bytes.quote w)) i (i + 1) := by
  refine ⟨Nat.lt_succ_self i, hi, fun fuel _ _ => ?_⟩
  show single (kindFuel fuel) fuel (s.cursor i) = _
  rw [single, bind_ok (advance_ok hi), ht, ← hw]
  rfl

/-- Tokens between brackets are a literal, which is their source text. -/
theorem readAs_group (hs : s.Sound) {w : Bytes} (hi : i < s.length)
    (ht : (s.token i).kind = .lbrace ∨ (s.token i).kind = .lbracket) (hl : s.groupEnd i = l)
    (hw : s.text i (l - 1) = w) : ReadAs s false (.ofLiteral w) i l := by
  subst hl hw
  obtain ⟨hlt, hle⟩ := groupEnd_bounds hi
  refine ⟨hlt, hle, fun fuel _ _ => ?_⟩
  show single (kindFuel fuel) fuel (s.cursor i) = _
  rw [single, bind_ok (advance_ok hi)]
  rcases ht with ht | ht <;> rw [ht] <;> dsimp only <;>
    rw [bind_ok (skipBalanced_ok hi), bind_ok (raw_cursor hs hlt hle)] <;> rfl

end Reading

end AccessLayer.Surql
