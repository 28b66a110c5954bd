import AccessLayer.Proofs.Text.Runes

/-!
# Encoded code points

What the bytes of a valid sequence are in numbers, and two facts that follow: a code point is read
back from its own encoding, and a line break is one byte that is part of no longer sequence.

* `Bytes.runes_encode`, `Bytes.runes_ofChars`: code points are read back from their encoding,
  whatever follows.
* `Utf8.Reads.broken_or_ofChar`: a code point stands for a broken byte or has the bytes that it is
  encoded to.
* `Bytes.countP_newline`: a text has as many line breaks as bytes `0x0A`.
-/

namespace AccessLayer

namespace Utf8

open UInt8 (ofNat_eq_iff_mod_eq_toNat)

variable {a : UInt8} {r : Rune}

/-! ## Bytes in numbers -/

theorem isTail_iff (b : UInt8) : isTail b ↔ 0x80 ≤ b.toNat ∧ b.toNat < 0xC0 := by
  have h : ∀ i : Fin 256, isTail (UInt8.ofFin i) = true ↔
      0x80 ≤ (UInt8.ofFin i).toNat ∧ (UInt8.ofFin i).toNat < 0xC0 := by
    decide +kernel
  exact h b.toFin

theorem tailBits_eq (b : UInt8) : tailBits b = b.toNat % 64 := by
  rw [tailBits, UInt8.toNat_and]
  exact Nat.and_two_pow_sub_one_eq_mod _ 6

theorem leadBits_pair (a : UInt8) : (a &&& 0x1F).toNat = a.toNat % 32 := by
  rw [UInt8.toNat_and]
  exact Nat.and_two_pow_sub_one_eq_mod _ 5

theorem leadBits_triple (a : UInt8) : (a &&& 0x0F).toNat = a.toNat % 16 := by
  rw [UInt8.toNat_and]
  exact Nat.and_two_pow_sub_one_eq_mod _ 4

theorem leadBits_quad (a : UInt8) : (a &&& 0x07).toNat = a.toNat % 8 := by
  rw [UInt8.toNat_and]
  exact Nat.and_two_pow_sub_one_eq_mod _ 3

theorem isPair_iff (a b : UInt8) :
    isPair a b ↔ (0xC2 ≤ a.toNat ∧ a.toNat ≤ 0xDF) ∧ isTail b := by
  simp only [isPair, Bool.and_eq_true, decide_eq_true_eq, UInt8.le_iff_toNat_le]
  rfl

theorem isTriple_iff (a b c : UInt8) :
    isTriple a b c ↔ (0xE0 ≤ a.toNat ∧ a.toNat ≤ 0xEF) ∧ isTail b ∧ isTail c ∧
      (a.toNat = 0xE0 → 0xA0 ≤ b.toNat) ∧ (a.toNat = 0xED → b.toNat ≤ 0x9F) := by
  simp only [isTriple, Bool.and_eq_true, Bool.or_eq_true, bne_iff_ne, decide_eq_true_eq,
    UInt8.le_iff_toNat_le, ne_eq, ← UInt8.toNat_inj, ← imp_iff_not_or, and_assoc]
  rfl

theorem isQuad_iff (a b c d : UInt8) :
    isQuad a b c d ↔ (0xF0 ≤ a.toNat ∧ a.toNat ≤ 0xF4) ∧ isTail b ∧ isTail c ∧
      isTail d ∧ (a.toNat = 0xF0 → 0x90 ≤ b.toNat) ∧ (a.toNat = 0xF4 → b.toNat ≤ 0x8F) := by
  simp only [isQuad, Bool.and_eq_true, Bool.or_eq_true, bne_iff_ne, decide_eq_true_eq,
    UInt8.le_iff_toNat_le, ne_eq, ← UInt8.toNat_inj, ← imp_iff_not_or, and_assoc]
  rfl

/-! ## Reading an encoding -/

/-- The bytes of the first code point and those after it are the text. -/
theorem first_split (a : UInt8) (s : Bytes) : a :: s = (first a s).1.bytes ++ (first a s).2 := by
  have h := Bytes.ofRunes_runes (a :: s)
  rw [Bytes.runes_cons, Bytes.ofRunes_cons, Bytes.ofRunes_runes] at h
  exact h.symm

theorem first_pair {b : UInt8} (h : isPair a b) (t : Bytes) : first a (b :: t) = (pair a b, t) := by
  match t with
  | [] => simp [first, h]
  | [c] => simp [first, h]
  | c :: d :: t => simp [first, h]

theorem not_isPair (h : 0xE0 ≤ a.toNat) (b : UInt8) : isPair a b = false := by
  rw [← Bool.not_eq_true, isPair_iff]
  omega

theorem first_triple {b c : UInt8} (h : isTriple a b c) (t : Bytes) :
    first a (b :: c :: t) = (triple a b c, t) := by
  have hp := not_isPair ((isTriple_iff a b c).1 h).1.1 b
  match t with
  | [] => simp [first, hp, h]
  | d :: t => simp [first, hp, h]

theorem first_quad {b c d : UInt8} (h : isQuad a b c d) (t : Bytes) :
    first a (b :: c :: d :: t) = (quad a b c d, t) := by
  have ha := ((isQuad_iff a b c d).1 h).1.1
  have hp := not_isPair (a := a) (by omega) b
  have ht : isTriple a b c = false := by
    rw [← Bool.not_eq_true, isTriple_iff]
    omega
  simp [first, hp, ht, h]

/-- A code point is the first one of a text that starts with its encoding. -/
theorem first_encode (c : Char) (t : Bytes) :
    ∃ a s, String.utf8EncodeChar c = a :: s ∧ first a (s ++ t) = (Rune.ofChar c, t) := by
  have hofNat : Char.ofNat c.val.toNat = c := Char.ofNat_toNat c
  have hvalid : c.val.toNat < 0xD800 ∨ 0xDFFF < c.val.toNat ∧ c.val.toNat < 0x110000 := c.valid
  unfold Rune.ofChar String.utf8EncodeChar
  generalize c.val.toNat = v at *
  dsimp only
  -- the encodings of one, two, three and four bytes
  split_ifs with h1 h2 h3
  · have hlt : UInt8.ofNat v < 0x80 := by
      rw [UInt8.lt_iff_toNat_lt, UInt8.toNat_ofNat']
      show v % 2 ^ 8 < 128
      omega
    refine ⟨_, _, rfl, ?_⟩
    rw [List.nil_append, first_of_ascii hlt, single, if_pos hlt, UInt8.toNat_ofNat',
      Nat.mod_eq_of_lt (by omega), hofNat]
  · refine ⟨_, _, rfl, ?_⟩
    rw [List.singleton_append, first_pair, pair, leadBits_pair, tailBits_eq]
    · simp only [UInt8.toNat_ofNat']
      rw [show (v / 64 % 32 + 192) % 2 ^ 8 % 32 * 64 + (v % 64 + 128) % 2 ^ 8 % 64 =
        v by omega, hofNat]
    · simp only [isPair_iff, isTail_iff, UInt8.toNat_ofNat']
      omega
  · refine ⟨_, _, rfl, ?_⟩
    rw [List.cons_append, List.singleton_append, first_triple, triple, leadBits_triple, tailBits_eq,
      tailBits_eq]
    · simp only [UInt8.toNat_ofNat']
      rw [show ((v / 4096 % 16 + 224) % 2 ^ 8 % 16 * 64 + (v / 64 % 64 + 128) % 2 ^ 8 % 64) * 64 +
        (v % 64 + 128) % 2 ^ 8 % 64 = v by omega, hofNat]
    · simp only [isTriple_iff, isTail_iff, UInt8.toNat_ofNat']
      omega
  · refine ⟨_, _, rfl, ?_⟩
    rw [List.cons_append, List.cons_append, List.singleton_append, first_quad, quad, leadBits_quad,
      tailBits_eq, tailBits_eq, tailBits_eq]
    · simp only [UInt8.toNat_ofNat']
      rw [show (((v / 262144 % 8 + 240) % 2 ^ 8 % 8 * 64 + (v / 4096 % 64 + 128) % 2 ^ 8 % 64) *
        64 +
        (v / 64 % 64 + 128) % 2 ^ 8 % 64) * 64 + (v % 64 + 128) % 2 ^ 8 % 64 = v by omega, hofNat]
    · simp only [isQuad_iff, isTail_iff, UInt8.toNat_ofNat']
      omega

/-! ## Bytes of a code point -/

/-- The code points that are read from a text that starts with the byte `a`. -/
inductive Reads (a : UInt8) : Rune → Prop
  | single : Reads a (single a)
  | pair {b : UInt8} (h : isPair a b = true) : Reads a (pair a b)
  | triple {b c : UInt8} (h : isTriple a b c = true) : Reads a (triple a b c)
  | quad {b c d : UInt8} (h : isQuad a b c d = true) : Reads a (quad a b c d)

theorem reads_first (a : UInt8) (s : Bytes) : Reads a (first a s).1 := by
  match s with
  | [] => exact .single
  | [b] =>
    simp only [first]
    split_ifs with hp
    · exact .pair hp
    · exact .single
  | [b, c] =>
    simp only [first]
    split_ifs with hp ht
    · exact .pair hp
    · exact .triple ht
    · exact .single
  | b :: c :: d :: s =>
    simp only [first]
    split_ifs with hp ht hq
    · exact .pair hp
    · exact .triple ht
    · exact .quad hq
    · exact .single

/-- A number that is a code point is the number of its character. -/
theorem toNat_ofNat {n : Nat} (h : n.isValidChar) : (Char.ofNat n).val.toNat = n := by
  rw [Char.ofNat, dif_pos h]
  rfl

theorem ofNat_ne {n : Nat} {c : Char} (hn : n ≠ c.toNat) (hc : c.toNat ≠ 0) : Char.ofNat n ≠ c := by
  rintro rfl
  by_cases hv : n.isValidChar
  · exact hn (toNat_ofNat hv).symm
  · rw [Char.ofNat, dif_neg hv] at hc
    exact hc rfl

theorem Reads.broken_or_ofChar (h : Reads a r) :
    r.isBroken ∧ r.bytes = [a] ∧ 0x80 ≤ a.toNat ∨ r = Rune.ofChar r.char := by
  cases h with
  | single =>
    have hall : ∀ i : Fin 256, (Utf8.single (UInt8.ofFin i)).isBroken = true ∧
        0x80 ≤ (UInt8.ofFin i).toNat ∨
        Utf8.single (UInt8.ofFin i) = Rune.ofChar (Utf8.single (UInt8.ofFin i)).char := by
      decide +kernel
    exact (hall a.toFin).imp_left fun h => ⟨h.1, rfl, h.2⟩
  | @pair b h =>
    right
    rw [isPair_iff, isTail_iff] at h
    have hn := toNat_ofNat (n := a.toNat % 32 * 64 + b.toNat % 64) (by left; omega)
    rw [Utf8.pair, leadBits_pair, tailBits_eq, Rune.ofChar, String.utf8EncodeChar, hn,
      if_neg (by omega), if_pos (by omega), (ofNat_eq_iff_mod_eq_toNat _ a).2 (by omega),
      (ofNat_eq_iff_mod_eq_toNat _ b).2 (by omega)]
  | @triple b c h =>
    right
    rw [isTriple_iff, isTail_iff, isTail_iff] at h
    have hn := toNat_ofNat (n := (a.toNat % 16 * 64 + b.toNat % 64) * 64 + c.toNat % 64)
      (by unfold Nat.isValidChar; omega)
    rw [Utf8.triple, leadBits_triple, tailBits_eq, tailBits_eq, Rune.ofChar,
      String.utf8EncodeChar, hn, if_neg (by omega), if_neg (by omega), if_pos (by omega),
      (ofNat_eq_iff_mod_eq_toNat _ a).2 (by omega), (ofNat_eq_iff_mod_eq_toNat _ b).2 (by omega),
      (ofNat_eq_iff_mod_eq_toNat _ c).2 (by omega)]
  | @quad b c d h =>
    right
    rw [isQuad_iff, isTail_iff, isTail_iff, isTail_iff] at h
    have hn := toNat_ofNat
      (n := ((a.toNat % 8 * 64 + b.toNat % 64) * 64 + c.toNat % 64) * 64 + d.toNat % 64)
      (by unfold Nat.isValidChar; omega)
    rw [Utf8.quad, leadBits_quad, tailBits_eq, tailBits_eq, tailBits_eq, Rune.ofChar,
      String.utf8EncodeChar, hn, if_neg (by omega), if_neg (by omega), if_neg (by omega),
      (ofNat_eq_iff_mod_eq_toNat _ a).2 (by omega), (ofNat_eq_iff_mod_eq_toNat _ b).2 (by omega),
      (ofNat_eq_iff_mod_eq_toNat _ c).2 (by omega), (ofNat_eq_iff_mod_eq_toNat _ d).2 (by omega)]

/-- A code point is read from its own encoding, unless it is the replacement character. -/
theorem Reads.eq_ofChar (h : Reads a r) (hr : r.char ≠ replacementChar) :
    r = Rune.ofChar r.char := by
  refine h.broken_or_ofChar.resolve_left fun hbroken => hr ?_
  rw [Rune.isBroken, Bool.and_eq_true, beq_iff_eq] at hbroken
  exact hbroken.1.1

/-- An ASCII byte stands in the encoding of its own character only. -/
theorem notMem_encode (ha : a.toNat < 0x80) {c : Char} (hc : c.val.toNat ≠ a.toNat) :
    a ∉ String.utf8EncodeChar c := by
  intro hmem
  have hbyte : ∀ {n : Nat}, a = UInt8.ofNat n → a.toNat = n % 2 ^ 8 := by
    rintro n rfl
    exact UInt8.toNat_ofNat'
  unfold String.utf8EncodeChar at hmem
  dsimp only at hmem
  generalize c.val.toNat = v at *
  split_ifs at hmem with h1 h2 h3
  · rw [List.mem_singleton] at hmem
    have := hbyte hmem
    omega
  · simp only [List.mem_cons, List.not_mem_nil, or_false] at hmem
    rcases hmem with h | h <;> have := hbyte h <;> omega
  · simp only [List.mem_cons, List.not_mem_nil, or_false] at hmem
    rcases hmem with h | h | h <;> have := hbyte h <;> omega
  · simp only [List.mem_cons, List.not_mem_nil, or_false] at hmem
    rcases hmem with h | h | h | h <;> have := hbyte h <;> omega

/-- The bytes of a code point hold one byte `0x0A` if it is a line break, and none otherwise. -/
theorem Reads.count_newline (h : Reads a r) :
    r.bytes.count 0x0A = if r.char == '\n' then 1 else 0 := by
  obtain ⟨hbroken, hbytes, ha⟩ | hr := h.broken_or_ofChar
  · rw [Rune.isBroken, Bool.and_eq_true, beq_iff_eq] at hbroken
    rw [hbroken.1, hbytes, if_neg (by decide), List.count_eq_zero, List.mem_singleton]
    rintro rfl
    exact absurd ha (by decide)
  · rw [congrArg Rune.bytes hr]
    by_cases hc : r.char = '\n'
    · rw [hc]
      decide
    · rw [if_neg (by simpa using hc)]
      exact List.count_eq_zero.2 (notMem_encode (by decide) fun heq =>
        hc (Char.ext (UInt32.toNat_inj.1 heq)))

end Utf8

theorem Bytes.runes_encode (c : Char) (t : Bytes) :
    runes (String.utf8EncodeChar c ++ t) = Rune.ofChar c :: runes t := by
  obtain ⟨a, s, henc, hfirst⟩ := Utf8.first_encode c t
  rw [henc, List.cons_append, runes_cons, hfirst]

theorem Bytes.runes_ofChars (cs : List Char) (t : Bytes) :
    runes (ofChars cs ++ t) = cs.map Rune.ofChar ++ runes t := by
  induction cs with
  | nil => rfl
  | cons c cs ih =>
    rw [ofChars, List.flatMap_cons, List.append_assoc, runes_encode, ← ofChars, ih]
    rfl

theorem Bytes.chars_ofChars_append (cs : List Char) (t : Bytes) :
    chars (ofChars cs ++ t) = cs ++ chars t := by
  rw [chars, runes_ofChars, List.map_append, List.map_map]
  exact congrArg (· ++ chars t) (List.map_id cs)

theorem Bytes.chars_ofChars (cs : List Char) : chars (ofChars cs) = cs := by
  have h := chars_ofChars_append cs []
  rwa [List.append_nil, show chars [] = [] from rfl, List.append_nil] at h

theorem Bytes.ofChars_inj {cs ds : List Char} (h : ofChars cs = ofChars ds) : cs = ds := by
  rw [← chars_ofChars cs, h, chars_ofChars]

theorem Bytes.countP_newline (s : Bytes) :
    (runes s).countP (·.char == '\n') = s.count 0x0A := by
  induction h : s.length using Nat.strongRecOn generalizing s with
  | ind n ih =>
    match s with
    | [] => simp [runes]
    | a :: s =>
      have hlen := Utf8.first_length_le a s
      simp only [List.length_cons] at h
      rw [runes_cons, List.countP_cons, ih _ (by omega) _ rfl, Utf8.first_split a s,
        List.count_append, (Utf8.reads_first a s).count_newline, Nat.add_comm]

end AccessLayer
