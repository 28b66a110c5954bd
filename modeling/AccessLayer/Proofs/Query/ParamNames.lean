import AccessLayer.Proofs.Text.Utf8
import AccessLayer.Query.Params
import Mathlib.Data.List.Forall2
import Mathlib.Data.List.Nodup

/-!
# Names of parameters

Variables may have the same Go name. The second parameter of a name gets the number 2, the third one
the number 3, and so on, written right after the name. Parameters of one name are told apart by
their numbers, but a number can also be what another name ends with.

* `Bytes.ofNat_injective`, `Bytes.isDigitByte_of_mem_ofNat`: numbers are written with digits, each
  in its own way.
* `Signature.names_eq`: the names of a signature are plain names, each with its number.
* `Signature.names_nodup_iff`: names are distinct if and only if there is no clash.
-/

namespace AccessLayer

namespace Bytes

/-! ## Numbers -/

def isDigitByte (b : UInt8) : Bool := 0x30 ≤ b && b ≤ 0x39

/-- Whether a text ends with a decimal digit. -/
def endsInDigit (s : Bytes) : Bool := s.getLast?.any isDigitByte

theorem ofString_ofList (cs : List Char) : ofString (String.ofList cs) = ofChars cs := by
  rw [ofString, String.toUTF8_eq_toByteArray, String.toByteArray_ofList]
  simp [ofChars, List.utf8Encode]

theorem ofNat_eq_ofChars (n : Nat) : ofNat n = ofChars (Nat.toDigits 10 n) := by
  rw [ofNat, Nat.toString_eq_ofList_toDigits, ofString_ofList]

theorem ofNat_injective {n m : Nat} (h : ofNat n = ofNat m) : n = m := by
  rw [ofNat_eq_ofChars, ofNat_eq_ofChars] at h
  rw [← Nat.ofDigitChars_ten_toDigits (n := n), ofChars_inj h, Nat.ofDigitChars_ten_toDigits]

theorem ofNat_ne_nil (n : Nat) : ofNat n ≠ [] := by
  intro h
  rw [ofNat_eq_ofChars] at h
  have hdigits := congrArg chars h
  rw [chars_ofChars] at hdigits
  exact Nat.toDigits_ne_nil hdigits

theorem isDigitByte_of_mem_ofNat {n : Nat} {b : UInt8} (h : b ∈ ofNat n) : isDigitByte b := by
  rw [ofNat_eq_ofChars, ofChars, List.mem_flatMap] at h
  obtain ⟨c, hc, hb⟩ := h
  have hdigit := Nat.isDigit_of_mem_toDigits (by decide) (by decide) hc
  obtain ⟨hlo, hhi⟩ : 48 ≤ c.toNat ∧ c.toNat ≤ 57 := Char.isDigit_iff_toNat.1 hdigit
  have h : ∀ i : Fin 10, (String.utf8EncodeChar (Char.ofNat (48 + i))).all isDigitByte = true := by
    decide
  refine List.all_eq_true.1 (h ⟨c.toNat - 48, by omega⟩) b ?_
  rwa [Nat.add_sub_cancel' hlo, Char.ofNat_toNat]

theorem endsInDigit_append_ofNat (s : Bytes) (n : Nat) : endsInDigit (s ++ ofNat n) := by
  have hne := ofNat_ne_nil n
  rw [endsInDigit, List.getLast?_append_of_ne_nil _ hne, List.getLast?_eq_some_getLast hne,
    Option.any_some]
  exact isDigitByte_of_mem_ofNat (List.getLast_mem hne)

end Bytes

namespace Query.Signature

/-! ## Plain names and their numbers -/

def names (s : Signature) : List Bytes := s.params.map (·.name)

/-- Plain names, each with the number of times that it was taken before. -/
def occurrences (earlier : List Bytes) : List Bytes → List (Bytes × Nat)
  | [] => []
  | x :: xs => (x, earlier.count x) :: occurrences (earlier ++ [x]) xs

theorem mem_occurrences {earlier xs : List Bytes} {x : Bytes} {k : Nat} :
    (x, k) ∈ occurrences earlier xs ↔ earlier.count x ≤ k ∧ k < earlier.count x + xs.count x := by
  induction xs generalizing earlier with
  | nil => simp [occurrences]
  | cons y ys ih =>
    rw [occurrences, List.mem_cons, ih, List.count_append, Prod.mk.injEq]
    by_cases hxy : x = y
    · subst hxy
      rw [List.count_singleton_self, List.count_cons_self, eq_self_iff_true, true_and]
      omega
    · rw [List.count_cons_of_ne (Ne.symm hxy), List.count_cons_of_ne (Ne.symm hxy), List.count_nil]
      simp only [hxy, false_and, false_or, Nat.add_zero]

theorem nodup_occurrences (earlier xs : List Bytes) : (occurrences earlier xs).Nodup := by
  induction xs generalizing earlier with
  | nil => exact List.nodup_nil
  | cons x xs ih =>
    refine List.nodup_cons.2 ⟨fun h => ?_, ih _⟩
    have := (mem_occurrences.1 h).1
    rw [List.count_append, List.count_singleton_self] at this
    omega

theorem names_push (s : Signature) (idents : List Bytes) (ident : Bytes) (v : Variable) :
    (s.push idents ident v).names = s.names ++ [numbered ident (idents.count ident)] := by
  unfold push names
  dsimp only
  split <;> rw [List.map_append] <;> rfl

theorem names_extend? {s sig : Signature} {earlier : List Bytes} {vars : List Variable}
    (h : s.extend? earlier vars = some sig) :
    ∃ idents, List.Forall₂ (fun v x => paramName? v.name = some x) vars idents ∧
      sig.names = s.names ++ (occurrences earlier idents).map fun p => numbered p.1 p.2 := by
  induction vars generalizing s earlier with
  | nil =>
    cases h
    exact ⟨[], .nil, (List.append_nil _).symm⟩
  | cons v vars ih =>
    rw [extend?] at h
    obtain ⟨x, hx, h⟩ := Option.bind_eq_some_iff.1 h
    obtain ⟨idents, hidents, hnames⟩ := ih h
    refine ⟨x :: idents, .cons hx hidents, ?_⟩
    rw [hnames, names_push, List.append_assoc]
    rfl

theorem names_eq {vars : List Variable} {sig : Signature} (h : ofVariables? vars = some sig) :
    ∃ idents, List.Forall₂ (fun v x => paramName? v.name = some x) vars idents ∧
      sig.names = (occurrences [] idents).map fun p => numbered p.1 p.2 :=
  names_extend? h

/-! ## Distinct names -/

theorem numbered_zero (x : Bytes) : numbered x 0 = x := rfl

theorem numbered_append (x e : Bytes) (k : Nat) : numbered (x ++ e) k = x ++ numbered e k := by
  unfold numbered
  split
  · rfl
  · rw [List.append_assoc]

/-- A name with its number is the name before its number alone. -/
theorem numbered_eq_append (x : Bytes) (k : Nat) : numbered x k = x ++ numbered [] k := by
  rw [← numbered_append, List.append_nil]

theorem numbered_of_pos {k : Nat} (hk : 0 < k) (x : Bytes) :
    numbered x k = x ++ Bytes.ofNat (k + 1) := by
  rw [numbered, if_neg]
  rw [beq_iff_eq]
  omega

/-- One name gets different numbers. -/
theorem numbered_inj {x : Bytes} {k l : Nat} (h : numbered x k = numbered x l) : k = l := by
  rw [numbered_eq_append, numbered_eq_append x l] at h
  have h := List.append_cancel_left h
  obtain rfl | hk := Nat.eq_zero_or_pos k
  · obtain rfl | hl := Nat.eq_zero_or_pos l
    · rfl
    · rw [numbered_of_pos hl] at h
      exact absurd h.symm (Bytes.ofNat_ne_nil _)
  · obtain rfl | hl := Nat.eq_zero_or_pos l
    · rw [numbered_of_pos hk] at h
      exact absurd h (Bytes.ofNat_ne_nil _)
    · rw [numbered_of_pos hk, numbered_of_pos hl] at h
      exact Nat.succ.inj (Bytes.ofNat_injective h)

/-- A name `x` that gets the number `k + 1`, and a longer name `x ++ e` that spells that number with
its end `e` and the number that it gets itself. -/
def Clash (idents : List Bytes) : Prop :=
  ∃ x e k l, e ≠ [] ∧ 0 < k ∧ k < idents.count x ∧ l < idents.count (x ++ e) ∧
    Bytes.ofNat (k + 1) = numbered e l

/-- A name that starts like another one and is spelled like it with a number is in a clash, or it is
the same name with the same number. -/
theorem clash_or_eq {idents : List Bytes} {x e : Bytes} {k l : Nat} (hk : k < idents.count x)
    (hl : l < idents.count (x ++ e)) (h : numbered [] k = e ++ numbered [] l) :
    Clash idents ∨ e = [] ∧ k = l := by
  rw [← numbered_eq_append] at h
  by_cases he : e = []
  · subst he
    exact .inr ⟨rfl, numbered_inj h⟩
  · obtain rfl | hpos := Nat.eq_zero_or_pos k
    · rw [numbered_zero, numbered_eq_append, eq_comm, List.append_eq_nil_iff] at h
      exact absurd h.1 he
    · rw [numbered_of_pos hpos] at h
      exact .inl ⟨x, e, k, l, he, hpos, hk, hl, h⟩

theorem nodup_iff_not_clash (idents : List Bytes) :
    ((occurrences [] idents).map fun p => numbered p.1 p.2).Nodup ↔ ¬ Clash idents := by
  have hmem : ∀ {x k}, (x, k) ∈ occurrences [] idents ↔ k < idents.count x := by
    intro x k
    rw [mem_occurrences, List.count_nil, Nat.zero_add]
    exact and_iff_right (Nat.zero_le k)
  rw [List.nodup_map_iff_inj_on (nodup_occurrences [] idents)]
  constructor
  · rintro h ⟨x, e, k, l, he, hpos, hk, hl, hnum⟩
    have heq := h (x, k) (hmem.2 hk) (x ++ e, l) (hmem.2 hl) (by
      rw [numbered_of_pos hpos, hnum, numbered_append])
    exact he (List.self_eq_append_right.1 (Prod.mk.inj heq).1)
  · rintro h ⟨x, k⟩ hk ⟨y, l⟩ hl heq
    rw [numbered_eq_append, numbered_eq_append y] at heq
    rw [hmem] at hk hl
    -- the shorter of the two names is the start of the other
    obtain ⟨e, rfl, he⟩ | ⟨e, rfl, he⟩ := List.append_eq_append_iff.1 heq
    · obtain hc | ⟨rfl, rfl⟩ := clash_or_eq hk hl he
      · exact absurd hc h
      · rw [List.append_nil]
    · obtain hc | ⟨rfl, rfl⟩ := clash_or_eq hl hk he
      · exact absurd hc h
      · rw [List.append_nil]

/-- In a clash, a name goes on with digits after a name that is taken more than once. -/
theorem Clash.exists_digits {idents : List Bytes} (h : Clash idents) :
    ∃ x ∈ idents, ∃ e, 1 < idents.count x ∧ e ≠ [] ∧ (∀ b ∈ e, Bytes.isDigitByte b) ∧
      x ++ e ∈ idents := by
  obtain ⟨x, e, k, l, he, hpos, hk, hl, hnum⟩ := h
  refine ⟨x, List.count_pos_iff.1 (by omega),
    e, by omega, he, fun b hb => ?_, List.count_pos_iff.1 (by omega)⟩
  rw [numbered_eq_append] at hnum
  exact Bytes.isDigitByte_of_mem_ofNat (hnum ▸ List.mem_append_left _ hb)

/-- The parameters of a query have distinct names if and only if no plain name clashes with a
numbered one; so they do unless one plain name is another, which is taken more than once, with
digits after it. -/
theorem names_nodup_iff {vars : List Variable} {sig : Signature}
    (h : ofVariables? vars = some sig) :
    ∃ idents, List.Forall₂ (fun v x => paramName? v.name = some x) vars idents ∧
      ((sig.params.map (·.name)).Nodup ↔ ¬ Clash idents) ∧
      ((∀ x ∈ idents, ∀ e, 1 < idents.count x → e ≠ [] → (∀ b ∈ e, Bytes.isDigitByte b = true) →
        x ++ e ∉ idents) →
        (sig.params.map (·.name)).Nodup) := by
  obtain ⟨idents, hidents, hnames⟩ := names_eq h
  have hiff := nodup_iff_not_clash idents
  rw [← hnames] at hiff
  refine ⟨idents, hidents, hiff, fun hfree => hiff.2 fun hclash => ?_⟩
  obtain ⟨x, hx, e, hcount, he, hdigits, hmem⟩ := hclash.exists_digits
  exact hfree x hx e hcount he hdigits hmem

/-- Variables that differ in their case get numbers, which here clash with no other name. -/
theorem names_nodup_iff_userId : ∃ (vars : List Variable) (sig : Signature) (idents : List Bytes),
    vars.map (·.name) = ["user_id", "userId", "UserID2", "user_id"] ∧ ofVariables? vars = some sig ∧
      List.Forall₂ (fun v x => paramName? v.name = some x) vars idents ∧
        (sig.params.map (·.name)).Nodup ∧
      ¬ Clash idents := by
  have h : (ofVariables? [⟨"user_id", "string"⟩, ⟨"userId", "int"⟩, ⟨"UserID2", "int"⟩,
      ⟨"user_id", "int"⟩]).any
      (fun sig => (sig.params.map (·.name)).Nodup) = true := by
    decide +kernel
  obtain ⟨sig, hsig, hnodup⟩ := (Option.any_eq_true _ _).1 h
  rw [decide_eq_true_iff] at hnodup
  obtain ⟨idents, hidents, hiff, -⟩ := names_nodup_iff hsig
  exact ⟨_, sig, idents, by decide, hsig, hidents, hnodup, hiff.1 hnodup⟩

/-- The second `a` is called `a2`, like the parameter of the variable `a2`. -/
theorem names_repeat :
    ∃ sig, ofVariables? [⟨"a", "string"⟩, ⟨"a", "string"⟩, ⟨"a2", "string"⟩] = some sig ∧
    sig.params.map (·.name) = ["a", "a2", "a2"] ∧ ¬ (sig.params.map (·.name)).Nodup := by
  have h : (ofVariables? [⟨"a", "string"⟩, ⟨"a", "string"⟩, ⟨"a2", "string"⟩]).any
      (fun sig => sig.params.map (·.name) == (["a", "a2", "a2"] : List Bytes)) = true := by
    decide +kernel
  obtain ⟨sig, hsig, hnames⟩ := (Option.any_eq_true _ _).1 h
  rw [beq_iff_eq] at hnames
  refine ⟨sig, hsig, hnames, ?_⟩
  rw [hnames]
  decide

end Query.Signature

end AccessLayer
