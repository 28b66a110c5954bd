import AccessLayer.Text.Bytes
import Mathlib.Data.List.TakeWhile

/-!
# Parts of a text

A text is cut at every occurrence of a byte, or at the end of a run of bytes of one class. The parts
between the cuts are what the text is put together from, and no other parts are.

* `Bytes.splitOn_append_sep`, `Bytes.splitOn_join`: the parts between the occurrences of a byte.
* `Bytes.takeWhile_run`, `Bytes.run_unique`: a run of a class before anything that does not go on
  with it.
-/

namespace AccessLayer.Bytes

/-! ## Cuts at a byte -/

theorem splitOn_append_sep (sep : UInt8) (s t : Bytes) :
    splitOn sep (s ++ sep :: t) = splitOn sep s ++ splitOn sep t := by
  induction s with
  | nil =>
    obtain ⟨part, parts, h⟩ := List.exists_cons_of_ne_nil (splitOn_ne_nil sep t)
    simp [splitOn, h]
  | cons b s ih =>
    obtain ⟨part, parts, h⟩ := List.exists_cons_of_ne_nil (splitOn_ne_nil sep s)
    rw [List.cons_append, splitOn, ih, splitOn, h]
    by_cases hb : b == sep <;> simp [hb]

theorem splitOn_of_notMem {sep : UInt8} {s : Bytes} (h : sep ∉ s) : splitOn sep s = [s] := by
  induction s with
  | nil => rfl
  | cons b s ih =>
    rw [List.mem_cons, not_or] at h
    rw [splitOn, ih h.2]
    simp [Ne.symm h.1]

theorem notMem_of_mem_splitOn {sep : UInt8} {s part : Bytes} (h : part ∈ splitOn sep s) :
    sep ∉ part := by
  induction s generalizing part with
  | nil =>
    rw [splitOn, List.mem_singleton] at h
    simp [h]
  | cons b s ih =>
    obtain ⟨first, others, hs⟩ := List.exists_cons_of_ne_nil (splitOn_ne_nil sep s)
    rw [hs] at ih
    rw [splitOn, hs] at h
    by_cases hb : b = sep
    · simp only [hb, beq_self_eq_true, if_true, List.mem_cons] at h
      obtain rfl | h := h
      · simp
      · exact ih (List.mem_cons.2 h)
    · simp only [beq_eq_false_iff_ne.2 hb, Bool.false_eq_true, if_false, List.mem_cons] at h
      obtain rfl | h := h
      · rw [List.mem_cons, not_or]
        exact ⟨Ne.symm hb, ih (List.mem_cons_self ..)⟩
      · exact ih (List.mem_cons_of_mem _ h)

theorem join_concat (sep : Bytes) {parts : List Bytes} (h : parts ≠ []) (last : Bytes) :
    join sep (parts ++ [last]) = join sep parts ++ sep ++ last := by
  induction parts with
  | nil => exact absurd rfl h
  | cons part parts ih =>
    cases parts with
    | nil => rfl
    | cons next others =>
      have hrest := ih (by simp)
      simp only [List.cons_append, join] at hrest ⊢
      rw [hrest]
      simp

theorem join_suffix (sep : Bytes) (parts others : List Bytes) :
    join sep others <:+ join sep (parts ++ others) := by
  induction parts with
  | nil => exact List.suffix_refl _
  | cons part parts ih =>
    cases hrest : parts ++ others with
    | nil =>
      rw [(List.append_eq_nil_iff.1 hrest).2]
      exact List.nil_suffix
    | cons next rest =>
      rw [hrest] at ih
      rw [List.cons_append, hrest]
      exact ih.trans (List.suffix_append _ _)

theorem infix_join {sep part : Bytes} {parts : List Bytes} (h : part ∈ parts) :
    part <:+: join sep parts := by
  obtain ⟨before, after, rfl⟩ := List.append_of_mem h
  refine List.IsInfix.trans ?_ (join_suffix sep before (part :: after)).isInfix
  cases after with
  | nil => exact List.infix_refl _
  | cons next rest => exact ⟨[], sep ++ join sep (next :: rest), by simp [join]⟩

theorem splitOn_join {sep : UInt8} {parts : List Bytes} (h : ∀ part ∈ parts, sep ∉ part)
    (hne : parts ≠ []) : splitOn sep (join [sep] parts) = parts := by
  induction parts with
  | nil => exact absurd rfl hne
  | cons part parts ih =>
    obtain ⟨hpart, hparts⟩ := List.forall_mem_cons.1 h
    cases parts with
    | nil => exact splitOn_of_notMem hpart
    | cons next others =>
      show splitOn sep (part ++ [sep] ++ join [sep] (next :: others)) = _
      rw [List.append_assoc, List.singleton_append, splitOn_append_sep, splitOn_of_notMem hpart,
        ih hparts (by simp)]
      rfl

theorem mem_join {sep : Bytes} {b : UInt8} (hb : b ∉ sep) (parts : List Bytes) :
    b ∈ join sep parts ↔ ∃ part ∈ parts, b ∈ part := by
  induction parts with
  | nil => simp [join]
  | cons part parts ih =>
    cases parts with
    | nil => simp [join]
    | cons next others =>
      show b ∈ part ++ sep ++ join sep (next :: others) ↔ _
      rw [List.mem_append, List.mem_append, ih, or_iff_left hb]
      simp only [List.mem_cons, exists_eq_or_imp]

/-! ## Runs of a class -/

variable {p : UInt8 → Bool} {xs ys s t : Bytes}

/-- A run of a class is taken off whole if the text does not go on with it. -/
theorem takeWhile_run (hx : ∀ b ∈ xs, p b) (hs : ∀ b ∈ s.head?, p b = false) :
    (xs ++ s).takeWhile p = xs ∧ (xs ++ s).dropWhile p = s := by
  rw [List.takeWhile_append_of_pos hx, List.dropWhile_append_of_pos hx]
  cases s with
  | nil => simp
  | cons b s =>
    have hb : p b = false := hs b rfl
    simp [hb]

/-- A text starts with one run of a class. -/
theorem run_unique (hx : ∀ b ∈ xs, p b) (hy : ∀ b ∈ ys, p b) (hs : ∀ b ∈ s.head?, p b = false)
    (ht : ∀ b ∈ t.head?, p b = false) (h : xs ++ s = ys ++ t) : xs = ys ∧ s = t := by
  obtain ⟨hxs, hs⟩ := takeWhile_run hx hs
  obtain ⟨hys, ht⟩ := takeWhile_run hy ht
  exact ⟨by rw [← hxs, h, hys], by rw [← hs, h, ht]⟩

end AccessLayer.Bytes
