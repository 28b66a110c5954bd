import AccessLayer.Proofs.Text.Utf8

/-!
# Runs of code points

A code point is read from its own bytes alone: what stands before it or after it in a text does not
matter. So a piece of a text that is cut between code points reads as the code points that it was
cut from, and its characters are those of the piece.

* `Utf8.first_of_append`: the first code point does not change when the text is cut off after it.
* `Readable`: a run of code points that is read from its own bytes, as is every part of a text.
-/

namespace AccessLayer

namespace Utf8

/-- A code point of several bytes is read wherever its bytes stand. -/
theorem Reads.single_or_first {a : UInt8} {r : Rune} {s u : Bytes} (hr : Reads a r)
    (hs : a :: s = r.bytes ++ u) : r = Utf8.single a ∨ first a s = (r, u) := by
  cases hr with
  | single => exact .inl rfl
  | pair h =>
    obtain rfl := (List.cons.inj hs).2
    exact .inr (first_pair h u)
  | triple h =>
    obtain rfl := (List.cons.inj hs).2
    exact .inr (first_triple h u)
  | quad h =>
    obtain rfl := (List.cons.inj hs).2
    exact .inr (first_quad h u)

/-- A code point that lies within the front of a text is read from the front alone. -/
theorem first_of_append {a : UInt8} {s t u : Bytes} {r : Rune}
    (h : first a (s ++ t) = (r, u ++ t)) : first a s = (r, u) := by
  have hr : Reads a r := by
    have := reads_first a (s ++ t)
    rwa [h] at this
  have hs : a :: s = r.bytes ++ u := by
    have := first_split a (s ++ t)
    rw [h, ← List.append_assoc, ← List.cons_append] at this
    exact List.append_cancel_right this
  rcases hr.single_or_first hs with rfl | hfirst
  · -- a longer code point of the front would be one of the whole text
    have hown : (first a s).1 = single a := by
      have hlong : a :: (s ++ t) = (first a s).1.bytes ++ ((first a s).2 ++ t) := by
        rw [← List.append_assoc, ← first_split, List.cons_append]
      rcases (reads_first a s).single_or_first hlong with heq | heq
      · exact heq
      · exact (congrArg Prod.fst (heq.symm.trans h))
    have hrest := hs.symm.trans (first_split a s)
    rw [hown] at hrest
    exact Prod.ext hown (List.append_cancel_left hrest).symm
  · exact hfirst

end Utf8

/-! ## Runs of code points -/

/-- A run of code points that is read from its own bytes. -/
def Readable (rs : List Rune) : Prop := Bytes.runes (Bytes.ofRunes rs) = rs

theorem readable_runes (s : Bytes) : Readable (Bytes.runes s) := by
  rw [Readable, Bytes.ofRunes_runes]

namespace Readable

open Bytes

variable {r : Rune} {rs xs ys : List Rune}

theorem bytes_ne_nil (h : Readable rs) (hr : r ∈ rs) : r.bytes ≠ [] :=
  bytes_ne_nil_of_mem_runes (h.symm ▸ hr : r ∈ runes (ofRunes rs))

/-- The first code point of a run is read first, and leaves the bytes of the others. -/
theorem first (h : Readable (r :: rs)) :
    ∃ a w, r.bytes = a :: w ∧ Utf8.first a (w ++ ofRunes rs) = (r, ofRunes rs) := by
  have hruns : runes (r.bytes ++ ofRunes rs) = r :: rs := by rwa [Readable, ofRunes_cons] at h
  obtain ⟨a, w, hw⟩ := List.exists_cons_of_ne_nil (h.bytes_ne_nil List.mem_cons_self)
  rw [hw, List.cons_append, runes_cons] at hruns
  obtain ⟨hr, hrs⟩ := List.cons.inj hruns
  refine ⟨a, w, hw, Prod.ext hr ?_⟩
  exact (ofRunes_runes _).symm.trans (congrArg ofRunes hrs)

theorem tail (h : Readable (r :: rs)) : Readable rs := by
  obtain ⟨a, w, hw, hfirst⟩ := h.first
  rw [Readable, ofRunes_cons, hw, List.cons_append, runes_cons, hfirst] at h
  exact (List.cons.inj h).2

theorem right (h : Readable (xs ++ ys)) : Readable ys := by
  induction xs with
  | nil => exact h
  | cons x xs ih => exact ih h.tail

theorem left (h : Readable (xs ++ ys)) : Readable xs := by
  induction xs with
  | nil => rfl
  | cons x xs ih =>
    rw [List.cons_append] at h
    obtain ⟨a, w, hw, hfirst⟩ := h.first
    have hxs : runes (ofRunes xs) = xs := ih h.tail
    rw [ofRunes_append, ← List.append_assoc] at hfirst
    rw [Readable, ofRunes_cons, hw, List.cons_append, runes_cons, Utf8.first_of_append hfirst, hxs]

/-- What is taken off the front of a run. -/
theorem of_append_eq (h : Readable rs) (hsplit : xs ++ ys = rs) : Readable xs := by
  rw [← hsplit] at h
  exact h.left

/-- A run is read as its characters. -/
theorem chars_ofRunes (h : Readable rs) : chars (ofRunes rs) = rs.map (·.char) :=
  congrArg (List.map Rune.char) h

theorem reads (h : Readable rs) (hr : r ∈ rs) : ∃ a, Utf8.Reads a r := by
  obtain ⟨xs, ys, rfl⟩ := List.append_of_mem hr
  obtain ⟨a, w, -, hfirst⟩ := h.right.first
  have hreads := Utf8.reads_first a (w ++ ofRunes ys)
  rw [hfirst] at hreads
  exact ⟨a, hreads⟩

/-- A code point of a run is read from its own encoding, unless it is the replacement character. -/
theorem eq_ofChar (h : Readable rs) (hr : r ∈ rs) (hc : r.char ≠ replacementChar) :
    r = Rune.ofChar r.char := by
  obtain ⟨a, hreads⟩ := h.reads hr
  exact hreads.eq_ofChar hc

/-- A run without the replacement character has the bytes that its characters are encoded to. -/
theorem ofRunes_eq (h : Readable rs) (hc : ∀ r ∈ rs, r.char ≠ replacementChar) :
    ofRunes rs = ofChars (rs.map (·.char)) := by
  induction rs with
  | nil => rfl
  | cons r rs ih =>
    have hr : r.bytes = String.utf8EncodeChar r.char :=
      congrArg Rune.bytes (h.eq_ofChar List.mem_cons_self (hc r List.mem_cons_self))
    rw [ofRunes_cons, hr, ih h.tail fun x hx => hc x (List.mem_cons_of_mem r hx)]
    rfl

end Readable

end AccessLayer
