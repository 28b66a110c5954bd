import AccessLayer.Proofs.Text.Readable
import AccessLayer.Surql.Token

/-!
# Words in any case

Two spellings of a word differ in the case of ASCII letters alone. The readers recognise words in
three ways: as a keyword, by the word in upper case, and by the word in lower case. Bytes outside of
ASCII are the same in both spellings, so that both read as the same code points but for ASCII
letters, and the three ways do not tell the spellings apart.

* `Token.sameWord_iff`: spellings of one word have the same folded bytes.
* `Utf8.first_eq_of_fold`: the first code point does not depend on the case of the letters after it.
* `Bytes.toUpper_eq_of_sameWord`, `Bytes.toLower_eq_of_sameWord`: both spellings are the same in
  upper and in lower case.
* `Bytes.hasPart_eq_of_sameWord`: a part without letters stands in both or in none.
-/

namespace AccessLayer

open Surql.Token (foldByte sameWord)

namespace Surql.Token

theorem sameWord_iff {a b : Bytes} : sameWord a b ↔ a.map foldByte = b.map foldByte := by
  rw [sameWord, beq_iff_eq]

theorem sameWord_refl (a : Bytes) : sameWord a a := sameWord_iff.2 rfl

/-- Spellings of one word spell the same keywords. -/
theorem sameWord_left {a b : Bytes} (h : sameWord a b) (w : Bytes) :
    sameWord a w = sameWord b w := by
  rw [sameWord, sameWord, sameWord_iff.1 h]

/-! ## Bytes -/

/-- Only bytes of capital letters change, and they stay among the bytes that are characters. -/
theorem foldByte_cases (b : UInt8) : Utf8.isTail (foldByte b) = Utf8.isTail b ∧
    (0x80 ≤ b → foldByte b = b) ∧ (foldByte b < 0x80 ↔ b < 0x80) := by
  have h : ∀ i : Fin 256, Utf8.isTail (foldByte (UInt8.ofFin i)) = Utf8.isTail (UInt8.ofFin i) ∧
      (0x80 ≤ UInt8.ofFin i → foldByte (UInt8.ofFin i) = UInt8.ofFin i) ∧
      (foldByte (UInt8.ofFin i) < 0x80 ↔ UInt8.ofFin i < 0x80) := by
    decide +kernel
  exact h b.toFin

theorem isTail_foldByte (b : UInt8) : Utf8.isTail (foldByte b) = Utf8.isTail b :=
  (foldByte_cases b).1

theorem foldByte_of_le {b : UInt8} (hb : 0x80 ≤ b) : foldByte b = b := (foldByte_cases b).2.1 hb

theorem foldByte_lt {b : UInt8} : foldByte b < 0x80 ↔ b < 0x80 := (foldByte_cases b).2.2

/-- Bytes that differ in case alone are equal, or no sequence goes on with either of them. -/
theorem eq_or_not_isTail {b b' : UInt8} (h : foldByte b = foldByte b') :
    b = b' ∨ Utf8.isTail b = false ∧ Utf8.isTail b' = false := by
  have htail : Utf8.isTail b' = Utf8.isTail b := by rw [← isTail_foldByte b', ← h, isTail_foldByte]
  cases hb : Utf8.isTail b with
  | false => exact .inr ⟨rfl, htail.trans hb⟩
  | true =>
    have hle : ∀ {x : UInt8}, Utf8.isTail x = true → 0x80 ≤ x := fun hx =>
      UInt8.le_iff_toNat_le.2 ((Utf8.isTail_iff _).1 hx).1
    rw [foldByte_of_le (hle hb), foldByte_of_le (hle (htail.trans hb))] at h
    exact .inl h

end Surql.Token

open Surql.Token

/-! ## Code points -/

/-- Spellings that differ in case alone are cut in the same way after bytes that go on with a
sequence. -/
theorem Surql.Token.exists_append_of_fold {w u t : Bytes} (hw : ∀ x ∈ w, Utf8.isTail x)
    (h : (w ++ u).map foldByte = t.map foldByte) :
    ∃ v, t = w ++ v ∧ u.map foldByte = v.map foldByte := by
  induction w generalizing t with
  | nil => exact ⟨t, rfl, h⟩
  | cons x w ih =>
    cases t with
    | nil => cases h
    | cons y t =>
      obtain ⟨hxy, h⟩ := List.cons.inj h
      obtain ⟨v, rfl, huv⟩ := ih (fun z hz => hw z (List.mem_cons_of_mem _ hz)) h
      obtain rfl | ⟨hx, -⟩ := eq_or_not_isTail hxy
      · exact ⟨v, rfl, huv⟩
      · rw [hw x List.mem_cons_self] at hx
        cases hx

namespace Utf8

/-- All bytes of a code point but the first go on with its sequence. -/
theorem Reads.exists_bytes {a : UInt8} {r : Rune} (h : Reads a r) :
    ∃ w, r.bytes = a :: w ∧ ∀ x ∈ w, isTail x := by
  cases h with
  | single => exact ⟨[], rfl, nofun⟩
  | @pair b h => exact ⟨[b], rfl, by simp [((isPair_iff a b).1 h).2]⟩
  | @triple b c h =>
    obtain ⟨-, hb, hc, -⟩ := (isTriple_iff a b c).1 h
    exact ⟨[b, c], rfl, by simp [hb, hc]⟩
  | @quad b c d h =>
    obtain ⟨-, hb, hc, hd, -⟩ := (isQuad_iff a b c d).1 h
    exact ⟨[b, c, d], rfl, by simp [hb, hc, hd]⟩

/-- A code point of several bytes does not depend on the case of letters after its first byte. -/
theorem single_or_first_of_fold (a : UInt8) {s t : Bytes} (h : s.map foldByte = t.map foldByte) :
    (first a s).1 = single a ∨
      ∃ v, first a t = ((first a s).1, v) ∧ (first a s).2.map foldByte = v.map foldByte := by
  have hreads := reads_first a s
  obtain ⟨w, hbytes, hw⟩ := hreads.exists_bytes
  have hs : s = w ++ (first a s).2 := by
    have := first_split a s
    rw [hbytes] at this
    exact (List.cons.inj this).2
  rw [hs] at h
  obtain ⟨v, rfl, hv⟩ := exists_append_of_fold hw h
  have hsplit : a :: (w ++ v) = (first a s).1.bytes ++ v := by rw [hbytes, List.cons_append]
  exact (hreads.single_or_first hsplit).imp_right fun hfirst => ⟨v, hfirst, hv⟩

theorem first_eq_of_fold (a : UInt8) {s t : Bytes} (h : s.map foldByte = t.map foldByte) :
    (first a s).1 = (first a t).1 ∧ (first a s).2.map foldByte = (first a t).2.map foldByte := by
  obtain hs | ⟨v, hfirst, hv⟩ := single_or_first_of_fold a h
  · obtain ht | ⟨v, hfirst, hv⟩ := single_or_first_of_fold a h.symm
    · have hrest : ∀ {x : Bytes}, (first a x).1 = single a → (first a x).2 = x := fun {x} hx => by
        have := first_split a x
        rw [hx] at this
        exact (List.cons.inj this).2.symm
      rw [hs, ht, hrest hs, hrest ht]
      exact ⟨rfl, h⟩
    · rw [hfirst]
      exact ⟨rfl, hv.symm⟩
  · rw [hfirst]
    exact ⟨rfl, hv⟩

end Utf8

namespace Bytes

variable {s t : Bytes}

/-- What does not tell capitals of ASCII from small letters does not tell two spellings of a word
apart. -/
theorem map_chars_eq_of_fold {γ : Type} {f : Char → γ}
    (hf : ∀ i : Fin 128, f (Utf8.single (foldByte (.ofNat i))).char =
      f (Utf8.single (.ofNat i)).char)
    (h : s.map foldByte = t.map foldByte) : (chars s).map f = (chars t).map f := by
  have hf : ∀ a : UInt8, a < 0x80 → f (Utf8.single (foldByte a)).char = f (Utf8.single a).char := by
    intro a ha
    simpa using hf ⟨a.toNat, UInt8.lt_iff_toNat_lt.1 ha⟩
  induction hn : s.length using Nat.strongRecOn generalizing s t with
  | ind n ih =>
    match s, t with
    | [], [] => rfl
    | [], _ :: _ => cases h
    | _ :: _, [] => cases h
    | a :: s, b :: t =>
      obtain ⟨hab, hst⟩ := List.cons.inj h
      rw [List.length_cons] at hn
      have hcons : ∀ x y, (chars (x :: y)).map f =
          f (Utf8.first x y).1.char :: (chars (Utf8.first x y).2).map f := fun x y => by
        rw [chars, runes_cons, List.map_cons, List.map_cons]
        rfl
      rw [hcons, hcons]
      by_cases ha : a < 0x80
      · have hb : b < 0x80 := foldByte_lt.1 (hab ▸ foldByte_lt.2 ha)
        rw [Utf8.first_of_ascii ha, Utf8.first_of_ascii hb, ih s.length (by omega) hst rfl,
          ← hf a ha, hab, hf b hb]
      · -- a longer sequence starts with the same byte in both spellings
        have hle : ∀ {x : UInt8}, ¬ x < 0x80 → 0x80 ≤ x := UInt8.not_lt.1
        have hb : ¬ b < 0x80 := fun hb => ha (foldByte_lt.1 (hab ▸ foldByte_lt.2 hb))
        rw [foldByte_of_le (hle ha), foldByte_of_le (hle hb)] at hab
        obtain rfl := hab
        obtain ⟨hr, hrest⟩ := Utf8.first_eq_of_fold a hst
        have hlen := Utf8.first_length_le a s
        rw [hr, ih _ (by omega) hrest rfl]

theorem toUpper_eq_of_sameWord (h : sameWord s t) : toUpper s = toUpper t := by
  rw [toUpper, toUpper, map_chars_eq_of_fold (by decide) (sameWord_iff.1 h)]

theorem toLower_eq_of_sameWord (h : sameWord s t) : toLower s = toLower t := by
  rw [toLower, toLower, map_chars_eq_of_fold (by decide) (sameWord_iff.1 h)]

theorem isPrefixOf_eq_of_fold {part : Bytes} (hpart : ∀ x ∈ part, ∀ b, foldByte b = x ↔ b = x)
    (h : s.map foldByte = t.map foldByte) : part.isPrefixOf s = part.isPrefixOf t := by
  induction part generalizing s t with
  | nil => cases s <;> cases t <;> rfl
  | cons x part ih =>
    match s, t with
    | [], [] => rfl
    | [], _ :: _ => cases h
    | _ :: _, [] => cases h
    | a :: s, b :: t =>
      obtain ⟨hab, hst⟩ := List.cons.inj h
      have hx := hpart x List.mem_cons_self
      have heq : (x == a) = (x == b) := by
        rw [Bool.eq_iff_iff, beq_iff_eq, beq_iff_eq, eq_comm, ← hx a, hab, hx b, eq_comm]
      rw [List.isPrefixOf, List.isPrefixOf, heq,
        ih (fun y hy => hpart y (List.mem_cons_of_mem _ hy)) hst]

theorem hasPart_eq_of_sameWord {part : Bytes} (hpart : ∀ x ∈ part, ∀ b, foldByte b = x ↔ b = x)
    (h : sameWord s t) : hasPart part s = hasPart part t := by
  rw [sameWord_iff] at h
  induction s generalizing t with
  | nil =>
    cases t with
    | nil => rfl
    | cons b t => cases h
  | cons a s ih =>
    cases t with
    | nil => cases h
    | cons b t =>
      rw [hasPart, hasPart, isPrefixOf_eq_of_fold hpart h, ih (List.cons.inj h).2]

theorem mem_of_hasPart {b : UInt8} (part : Bytes) (h : hasPart (b :: part) s) : b ∈ s := by
  induction s with
  | nil => cases h
  | cons x s ih =>
    rw [hasPart, Bool.or_eq_true] at h
    obtain h | h := h
    · rw [List.isPrefixOf, Bool.and_eq_true, beq_iff_eq] at h
      exact List.mem_cons.2 (.inl h.1)
    · exact List.mem_cons_of_mem _ (ih h)

theorem toUpper_ne_of_colon {w : Bytes} (hs : byte ':' ∈ s) (hw : byte ':' ∉ w) :
    toUpper s ≠ w := by
  rintro rfl
  obtain ⟨before, after, rfl⟩ := List.append_of_mem hs
  refine hw (List.mem_flatMap.2 ⟨':', List.mem_map.2 ⟨':', ?_, by decide⟩, by decide⟩)
  rw [chars, runes_append _ _ (by decide), runes_cons_of_ascii (by decide), List.map_append,
    List.map_cons]
  exact List.mem_append_right _ (List.mem_cons.2 (.inl (by decide)))

end Bytes

theorem Surql.Token.toUpper_of_isKeyword {t : Surql.Token} {w : Bytes} (h : t.isKeyword w)
    (hw : Bytes.toUpper w = w) : t.kind = .ident ∧ Bytes.toUpper t.literal = w := by
  rw [isKeyword, Bool.and_eq_true_iff, beq_iff_eq] at h
  exact ⟨h.1, (Bytes.toUpper_eq_of_sameWord h.2).trans hw⟩

end AccessLayer
