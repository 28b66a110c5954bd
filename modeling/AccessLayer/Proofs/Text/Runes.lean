import AccessLayer.Text.Rune
import AccessLayer.Text.Letter
import Mathlib.Tactic.Common

/-!
# Code points of concatenated texts

A text is read from the left, and the bytes of one code point never depend on what comes after a
byte that starts a code point of its own. So two texts that are put one after the other read as
their code points one after the other, provided that the second one starts with such a byte.

* `Utf8.first`: the first code point of a text and the bytes after it.
* `Bytes.bytes_ne_nil_of_mem_runes`: a code point has at least one byte.
* `isLetter_of_isSpace`, `isDigit_of_isSpace`: white space is in no other class.
-/

namespace AccessLayer

variable {c : Char} {a x : UInt8}

/-! ## The first code point -/

namespace Utf8

/-- The first code point of a text that starts with the byte `a`, and the bytes after it. -/
def first (a : UInt8) (s : Bytes) : Rune × Bytes :=
  match s with
  | [] => (single a, [])
  | [b] => if isPair a b then (pair a b, []) else (single a, [b])
  | [b, c] =>
    if isPair a b then (pair a b, [c])
    else if isTriple a b c then (triple a b c, [])
    else (single a, [b, c])
  | b :: c :: d :: s =>
    if isPair a b then (pair a b, c :: d :: s)
    else if isTriple a b c then (triple a b c, d :: s)
    else if isQuad a b c d then (quad a b c d, s)
    else (single a, b :: c :: d :: s)

theorem isPair_of_not_isTail (hx : isTail x = false) : isPair a x = false := by
  simp [isPair, hx]

theorem isTriple_of_not_isTail {b : UInt8} (hx : isTail x = false) :
    isTriple a b x = false ∧ ∀ c, isTriple a x c = false := by
  simp [isTriple, hx]

theorem isQuad_of_not_isTail (hx : isTail x = false) :
    (∀ b c, isQuad a b c x = false) ∧ (∀ b d, isQuad a b x d = false) ∧
      ∀ c d, isQuad a x c d = false := by
  simp [isQuad, hx]

/-- The first code point does not depend on what follows a byte that continues no sequence. -/
theorem first_append (s t : Bytes) (hx : isTail x = false) :
    first a (s ++ x :: t) = ((first a s).1, (first a s).2 ++ x :: t) := by
  have hp := isPair_of_not_isTail (a := a) hx
  have ht := fun b => isTriple_of_not_isTail (a := a) (b := b) hx
  have hq := isQuad_of_not_isTail (a := a) hx
  match s with
  | [] =>
    match t with
    | [] => simp [first, hp]
    | [y] => simp [first, hp, (ht x).2]
    | y :: z :: t => simp [first, hp, (ht x).2, hq.2.2]
  | [b] =>
    match t with
    | [] => by_cases h : isPair a b <;> simp [first, h, (ht b).1]
    | y :: t => by_cases h : isPair a b <;> simp [first, h, (ht b).1, hq.2.1]
  | [b, c] =>
    by_cases h : isPair a b
    · simp [first, h]
    · by_cases h' : isTriple a b c <;> simp [first, h, h', hq.1]
  | b :: c :: d :: s =>
    simp only [first, List.cons_append]
    split_ifs <;> rfl

theorem first_length_le (a : UInt8) (s : Bytes) : (first a s).2.length ≤ s.length := by
  unfold first
  split <;> (try split_ifs) <;> simp only [List.length_cons, List.length_nil] <;> omega

theorem first_bytes_ne_nil (a : UInt8) (s : Bytes) : (first a s).1.bytes ≠ [] := by
  unfold first
  split <;> (try split_ifs) <;> simp [single, pair, triple, quad]

/-- A byte below `0x80` is a code point of its own. -/
theorem first_of_ascii (ha : a < 0x80) (s : Bytes) : first a s = (single a, s) := by
  have hlt : ∀ b : UInt8, 0x80 ≤ b → ¬ b ≤ a := by
    intro b hb hba
    exact absurd (UInt8.lt_of_le_of_lt (UInt8.le_trans hb hba) ha) (UInt8.lt_irrefl _)
  have hp : ∀ b, isPair a b = false := by simp [isPair, hlt 0xC2 (by decide)]
  have ht : ∀ b c, isTriple a b c = false := by simp [isTriple, hlt 0xE0 (by decide)]
  have hq : ∀ b c d, isQuad a b c d = false := by simp [isQuad, hlt 0xF0 (by decide)]
  unfold first
  split <;> simp [hp, ht, hq]

end Utf8

/-! ## Code points of a text -/

namespace Bytes

theorem runes_cons (a : UInt8) (s : Bytes) :
    runes (a :: s) = (Utf8.first a s).1 :: runes (Utf8.first a s).2 := by
  match s with
  | [] => simp [runes, Utf8.first]
  | [b] => simp only [runes, Utf8.first]; split_ifs <;> simp [runes]
  | [b, c] => simp only [runes, Utf8.first]; split_ifs <;> simp_all [runes]
  | b :: c :: d :: s => simp only [runes, Utf8.first]; split_ifs <;> rfl

/-- A text whose first byte continues no sequence can be cut off before its code points are read. -/
theorem runes_append (s t : Bytes) (hx : Utf8.isTail x = false) :
    runes (s ++ x :: t) = runes s ++ runes (x :: t) := by
  induction h : s.length using Nat.strongRecOn generalizing s with
  | ind n ih =>
    match s with
    | [] => simp [runes]
    | a :: s =>
      have hlen := Utf8.first_length_le a s
      simp only [List.length_cons] at h
      rw [List.cons_append, runes_cons, runes_cons a s, Utf8.first_append s t hx,
        ih _ (by omega) (Utf8.first a s).2 rfl, List.cons_append]

theorem runes_cons_of_ascii (ha : a < 0x80) (s : Bytes) :
    runes (a :: s) = Utf8.single a :: runes s := by
  rw [runes_cons, Utf8.first_of_ascii ha]

theorem bytes_ne_nil_of_mem_runes {s : Bytes} {r : Rune} (hr : r ∈ runes s) : r.bytes ≠ [] := by
  induction h : s.length using Nat.strongRecOn generalizing s with
  | ind n ih =>
    match s with
    | [] => simp [runes] at hr
    | a :: s =>
      have hlen := Utf8.first_length_le a s
      simp only [List.length_cons] at h
      rw [runes_cons, List.mem_cons] at hr
      rcases hr with rfl | hr
      · exact Utf8.first_bytes_ne_nil a s
      · exact ih _ (by omega) hr rfl

@[simp] theorem ofRunes_nil : ofRunes [] = [] := rfl

@[simp] theorem ofRunes_cons (r : Rune) (rs : List Rune) :
    ofRunes (r :: rs) = r.bytes ++ ofRunes rs := by
  simp [ofRunes]

@[simp] theorem ofRunes_append (rs ss : List Rune) :
    ofRunes (rs ++ ss) = ofRunes rs ++ ofRunes ss := by
  simp [ofRunes]

/-- A text that starts and ends with other characters than white space stays as it is. -/
theorem trim_eq_self {s : Bytes} {r x : Rune} {rs w : List Rune} (hfirst : runes s = r :: rs)
    (hr : isSpace r.char = false) (hlast : runes s = w ++ [x]) (hx : isSpace x.char = false) :
    trim s = s := by
  have hfront : (runes s).dropWhile (fun r => isSpace r.char) = runes s := by
    rw [hfirst, List.dropWhile_cons, if_neg (by simp [hr])]
  have hback : (runes s).reverse.dropWhile (fun r => isSpace r.char) = (runes s).reverse := by
    rw [hlast, List.reverse_append, List.reverse_singleton, List.singleton_append,
      List.dropWhile_cons, if_neg (by simp [hx])]
  rw [trim, hfront, hback, List.reverse_reverse, ofRunes_runes]

end Bytes

/-! ## White space and the other classes -/

/-- The white-space code points one by one. -/
def spaceCodes : List Nat :=
  [0x9, 0xa, 0xb, 0xc, 0xd, 0x20, 0x85, 0xa0, 0x1680, 0x2000, 0x2001, 0x2002, 0x2003, 0x2004,
    0x2005, 0x2006, 0x2007, 0x2008, 0x2009, 0x200a, 0x2028, 0x2029, 0x202f, 0x205f, 0x3000]

theorem mem_spaceCodes (h : isSpace c) : c.toNat ∈ spaceCodes := by
  simp only [isSpace, CodeRange.inRanges, spaceRanges, List.any_cons, List.any_nil, Bool.or_false,
    Bool.or_eq_true, Bool.and_eq_true, decide_eq_true_eq] at h
  simp only [spaceCodes, List.mem_cons, List.not_mem_nil, or_false]
  omega

/-- Whatever holds of the listed code points holds of white space. -/
theorem forall_isSpace {p : Char → Bool} (hp : ∀ n ∈ spaceCodes, p (Char.ofNat n) = false)
    (h : isSpace c) : p c = false := by
  rw [← hp _ (mem_spaceCodes h), Char.ofNat_toNat]

theorem isLetter_of_isSpace (h : isSpace c) : isLetter c = false :=
  forall_isSpace (by decide +kernel) h

theorem isDigit_of_isSpace (h : isSpace c) : isDigit c = false := forall_isSpace (by decide) h

theorem ne_of_isSpace {d : Char} (hc : isSpace c) (hd : isSpace d = false) : c ≠ d := by
  rintro rfl
  rw [hc] at hd
  exact absurd hd (by simp)

end AccessLayer
