import AccessLayer.Proofs.Text.Utf8

/-!
# ASCII

A character of ASCII is one byte, so texts of ASCII are the same by byte and by character, and what
holds of the single codes can be computed.

* `forall_ascii`: a fact that is computed for every code holds of the characters.
* `Bytes.ofChars_of_ascii`, `Bytes.chars_of_ascii`: texts by character and by byte.
-/

namespace AccessLayer

theorem forall_ascii {P : Char → Prop} (h : ∀ n : Fin 128, P (Char.ofNat n)) {c : Char}
    (hc : c.toNat < 0x80) : P c := by
  have := h ⟨c.toNat, hc⟩
  rwa [Char.ofNat_toNat] at this

namespace Bytes

theorem encode_of_ascii {c : Char} (h : c.toNat < 0x80) : String.utf8EncodeChar c = [byte c] :=
  forall_ascii (P := fun c => String.utf8EncodeChar c = [byte c]) (by decide) h

/-- Characters of ASCII are written as one byte each. -/
theorem ofChars_of_ascii {cs : List Char} (h : ∀ c ∈ cs, c.toNat < 0x80) :
    ofChars cs = cs.map byte := by
  induction cs with
  | nil => rfl
  | cons c cs ih =>
    rw [List.forall_mem_cons] at h
    rw [ofChars, List.flatMap_cons, encode_of_ascii h.1, ← ofChars, ih h.2]
    rfl

/-- Bytes of ASCII are read as one character each. -/
theorem chars_of_ascii {s : Bytes} (h : ∀ b ∈ s, b < 0x80) :
    chars s = s.map fun b => Char.ofNat b.toNat := by
  induction s with
  | nil => rfl
  | cons b s ih =>
    rw [List.forall_mem_cons] at h
    rw [chars, runes_cons_of_ascii h.1, List.map_cons, ← chars, ih h.2, Utf8.single, if_pos h.1]
    rfl

/-- Bytes of ASCII are the characters that are read from them. -/
theorem ofChars_chars {s : Bytes} (h : ∀ b ∈ s, b < 0x80) : ofChars (chars s) = s := by
  have hbyte : ∀ i : Fin 256, UInt8.ofFin i < 0x80 →
      String.utf8EncodeChar (Char.ofNat (UInt8.ofFin i).toNat) = [UInt8.ofFin i] := by
    decide +kernel
  rw [chars_of_ascii h, ofChars, List.flatMap_map]
  induction s with
  | nil => rfl
  | cons b s ih =>
    rw [List.forall_mem_cons] at h
    rw [List.flatMap_cons, ih h.2]
    exact congrArg (· ++ s) (hbyte b.toFin h.1)

end Bytes

end AccessLayer
