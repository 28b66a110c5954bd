import AccessLayer.Proofs.Text.Ascii
import AccessLayer.Proofs.Text.Readable
import AccessLayer.Text.Quoted
import AccessLayer.Text.Unquoted

/-!
# String literals denote their text

A text is written as a string literal, raw or quoted, and the literal denotes the text, whatever
bytes it holds. Which characters a quoted text shows as they are does not matter, as long as a line
break is not one of them.

* `Quoted.escaped`, `Quoted.literalBy`: literals for any class of characters that are shown as they
  are.
* `Unquoted.number?_hexChars`: the digits of a number are read as the number.
* `unquote?_goString`: the literal of a text denotes the text.
-/

namespace AccessLayer

namespace Quoted

/-! ## Literals by character -/

/-- The hexadecimal digits of `n`, `width` of them. -/
def hexChars : (width : Nat) → (n : Nat) → List Char
  | 0, _ => []
  | width + 1, n => hexChars width (n / 16) ++ [Nat.digitChar (n % 16)]

/-- The escape of a character by its number, without the backslash. -/
def numbered (c : Char) : List Char :=
  if c.toNat < 0x20 || c.toNat == 0x7f then 'x' :: hexChars 2 c.toNat
  else if c.toNat < 0x10000 then 'u' :: hexChars 4 c.toNat
  else 'U' :: hexChars 8 c.toNat

/-- The written form of a character, where the characters of the class `shown` are written as they
are. -/
def escaped (shown : Char → Bool) (mark c : Char) : List Char :=
  if c == mark || c == '\\' then ['\\', c]
  else if shown c then [c]
  else '\\' :: (shortEscape? c).elim (numbered c) fun e => [e]

/-- The written form of a code point. -/
def escapedRune (shown : Char → Bool) (mark : Char) (r : Rune) : List Char :=
  if r.isBroken then '\\' :: 'x' :: hexChars 2 (r.bytes.headD 0).toNat
  else escaped shown mark r.char

/-- The text between double quotes. -/
def quoteBy (shown : Char → Bool) (s : Bytes) : Bytes :=
  "\"" ++ Bytes.ofChars ((Bytes.runes s).flatMap (escapedRune shown '"')) ++ "\""

/-- A string literal for the text, raw where a raw literal can hold it. -/
def literalBy (shown : Char → Bool) (s : Bytes) : Bytes :=
  if s.contains (Bytes.byte '`') || s.contains (Bytes.byte '\r') then quoteBy shown s
  else "`" ++ s ++ "`"

theorem hex_eq (width n : Nat) : hex width n = Bytes.ofChars (hexChars width n) := by
  induction width generalizing n with
  | zero => rfl
  | succ width ih =>
    rw [hex, ih, hexChars, Bytes.ofChars, Bytes.ofChars, Bytes.ofChars, ← List.flatMap_append]

theorem escapeChar_eq (mark c : Char) :
    escapeChar mark c = Bytes.ofChars (escaped isPrintable mark c) := by
  simp only [escapeChar, escaped, numbered, hex_eq]
  cases shortEscape? c with
  | some e => split_ifs <;> rfl
  | none => split_ifs <;> rfl

theorem escapeRune_eq (mark : Char) (r : Rune) :
    escapeRune mark r = Bytes.ofChars (escapedRune isPrintable mark r) := by
  simp only [escapeRune, escapedRune, hex_eq, escapeChar_eq]
  split_ifs <;> rfl

end Quoted

open Quoted

/-- The literals of a text show the printable characters. -/
theorem Bytes.goString_eq (s : Bytes) : goString s = literalBy isPrintable s := by
  have hquote : quote s = quoteBy isPrintable s := by
    rw [quote, quoteBy, ofChars, List.flatMap_assoc]
    rw [funext (escapeRune_eq '"')]
    rfl
  rw [goString, literalBy, hquote]

theorem Rune.isBroken_ofChar (c : Char) : (Rune.ofChar c).isBroken = false := by
  rw [isBroken, Bool.and_eq_false_imp]
  intro hc
  rw [show c = replacementChar from eq_of_beq hc]
  rfl

namespace Unquoted

/-! ## Digits -/

variable {fuel : Nat} {c e : Char} {r : Rune} {t : List Rune}

theorem number?_succ (base count value : Nat) (rs : List Rune) :
    number? base (count + 1) value rs = (number? base count value rs).bind fun p =>
      number? base 1 p.1 p.2 := by
  induction count generalizing value rs with
  | zero => rfl
  | succ count ih =>
    cases rs with
    | nil => rfl
    | cons r rs =>
      rw [number?, number?]
      cases digit? r.char with
      | none => rfl
      | some d =>
        simp only [Option.bind_eq_bind, Option.bind_some]
        split
        · exact ih _ rs
        · rfl

theorem number?_hexChars (width n value : Nat) (t : List Rune) :
    number? 16 width value ((hexChars width n).map Rune.ofChar ++ t) =
      some (value * Nat.pow 16 width + n % Nat.pow 16 width, t) := by
  have hdigit : ∀ d : Fin 16, digit? (Nat.digitChar d) = some d.val := by decide
  induction width generalizing n t with
  | zero => simp [number?, hexChars, Nat.mod_one]
  | succ width ih =>
    have hlast := hdigit ⟨n % 16, Nat.mod_lt n (by decide)⟩
    have hvalue : (value * Nat.pow 16 width + n / 16 % Nat.pow 16 width) * 16 + n % 16 =
        value * Nat.pow 16 (width + 1) + n % Nat.pow 16 (width + 1) := by
      have hmod : n % Nat.pow 16 (width + 1) = n % 16 + 16 * (n / 16 % Nat.pow 16 width) := by
        rw [show Nat.pow 16 (width + 1) = 16 * Nat.pow 16 width from Nat.pow_succ', Nat.mod_mul]
      rw [hmod, show Nat.pow 16 (width + 1) = Nat.pow 16 width * 16 from Nat.pow_succ _ _,
        Nat.add_mul, Nat.mul_assoc]
      omega
    rw [hexChars, List.map_append, List.append_assoc, number?_succ, ih, Option.bind_some,
      List.map_singleton, List.singleton_append, number?, Rune.ofChar, hlast]
    simp only [Option.bind_eq_bind, Option.bind_some, if_pos (Nat.mod_lt n (by decide : 0 < 16)),
      number?, hvalue]

/-! ## Escapes -/

/-- A number of one byte, by its two digits. -/
theorem escape?_byte {n : Nat} (h : n < 256) (t : List Rune) :
    escape? (('x' :: hexChars 2 n).map Rune.ofChar ++ t) = some ([n.toUInt8], t) := by
  have hnumber := number?_hexChars 2 n 0 t
  rw [Nat.zero_mul, Nat.zero_add, Nat.mod_eq_of_lt (show n < Nat.pow 16 2 from h)] at hnumber
  show (number? 16 2 0 ((hexChars 2 n).map Rune.ofChar ++ t)).bind _ = _
  rw [hnumber, Option.bind_some, if_pos h]

theorem codePoint?_toNat (c : Char) : codePoint? c.toNat = some (String.utf8EncodeChar c) := by
  have hvalid : c.toNat < 0xD800 ∨ 0xDFFF < c.toNat ∧ c.toNat < 0x110000 := c.valid
  have hin : (c.toNat < 0xD800 || (0xDFFF < c.toNat && c.toNat ≤ 0x10FFFF)) = true := by
    simp only [Bool.or_eq_true, Bool.and_eq_true, decide_eq_true_eq]
    omega
  rw [codePoint?, if_pos hin, Char.ofNat_toNat]
  simp [Bytes.ofChars]

/-- A character by its digits, four of them where they are enough and eight otherwise. -/
theorem escape?_point (c : Char) (t : List Rune) :
    (c.toNat < 0x10000 →
        escape? (('u' :: hexChars 4 c.toNat).map Rune.ofChar ++ t) =
          some (String.utf8EncodeChar c, t)) ∧
      escape? (('U' :: hexChars 8 c.toNat).map Rune.ofChar ++ t) =
        some (String.utf8EncodeChar c, t) := by
  have hnumber : ∀ width, c.toNat < Nat.pow 16 width →
      (number? 16 width 0 ((hexChars width c.toNat).map Rune.ofChar ++ t)).bind
        (fun p => (codePoint? p.1).map fun b => (b, p.2)) = some (String.utf8EncodeChar c, t) := by
    intro width h
    rw [number?_hexChars, Nat.zero_mul, Nat.zero_add, Nat.mod_eq_of_lt h, Option.bind_some,
      codePoint?_toNat]
    rfl
  have hlt : c.toNat < 0x110000 := by
    have : c.toNat < 0xD800 ∨ 0xDFFF < c.toNat ∧ c.toNat < 0x110000 := c.valid
    omega
  exact ⟨hnumber 4, hnumber 8 (Nat.lt_trans hlt (by decide))⟩

/-- A control character by its letter. -/
theorem escape?_short (h : Quoted.shortEscape? c = some e) (t : List Rune) :
    escape? (Rune.ofChar e :: t) = some (String.utf8EncodeChar c, t) := by
  unfold Quoted.shortEscape? at h
  split at h
  case h_8 => cases h
  all_goals
    rename_i hcode
    obtain rfl := Option.some.inj h
    rw [← Char.ofNat_toNat c, hcode]
    rfl

/-- A character by its number. -/
theorem escape?_numbered (c : Char) (t : List Rune) :
    escape? ((numbered c).map Rune.ofChar ++ t) = some (String.utf8EncodeChar c, t) := by
  rw [numbered]
  split_ifs with hcontrol hsmall
  · have hascii : c.toNat < 0x80 := by
      rw [Bool.or_eq_true, decide_eq_true_eq, beq_iff_eq] at hcontrol
      omega
    rw [Bytes.encode_of_ascii hascii]
    exact escape?_byte (Nat.lt_trans hascii (by decide)) t
  · exact (escape?_point c t).1 hsmall
  · exact (escape?_point c t).2

/-! ## Quoted text -/

theorem interpreted?_backslash (fuel : Nat) {b : Bytes} {rs : List Rune}
    (h : escape? rs = some (b, t)) :
    interpreted? (fuel + 1) (Rune.ofChar '\\' :: rs) = (interpreted? fuel t).map (b ++ ·) := by
  rw [interpreted?, if_neg (by decide), if_neg (by decide), if_pos (by decide), h,
    Option.map_eq_bind]
  rfl

theorem interpreted?_shown (fuel : Nat) (h : c ≠ '"' ∧ c ≠ '\\' ∧ c ≠ '\n') (t : List Rune) :
    interpreted? (fuel + 1) (Rune.ofChar c :: t) =
      (interpreted? fuel t).map (String.utf8EncodeChar c ++ ·) := by
  have hne : ∀ {d : Char}, c ≠ d → ¬(Rune.ofChar c).char == d := fun hd heq => hd (eq_of_beq heq)
  rw [interpreted?, if_neg (hne h.1), if_neg (hne h.2.2), if_neg (hne h.2.1)]
  simp [Bytes.ofChars, Rune.ofChar]

/-- A written character is read as its encoding. -/
theorem interpreted?_escaped {shown : Char → Bool} (hshown : shown '\n' = false) (fuel : Nat)
    (c : Char) (t : List Rune) :
    interpreted? (fuel + 1) ((escaped shown '"' c).map Rune.ofChar ++ t) =
      (interpreted? fuel t).map (String.utf8EncodeChar c ++ ·) := by
  rw [escaped]
  split_ifs with hmark hclass
  · refine interpreted?_backslash fuel ?_
    rw [Bool.or_eq_true, beq_iff_eq, beq_iff_eq] at hmark
    rcases hmark with rfl | rfl <;> rfl
  · rw [Bool.or_eq_true, beq_iff_eq, beq_iff_eq, not_or] at hmark
    refine interpreted?_shown fuel ⟨hmark.1, hmark.2, ?_⟩ t
    rintro rfl
    exact Bool.false_ne_true (hshown.symm.trans hclass)
  · refine interpreted?_backslash fuel ?_
    cases hshort : Quoted.shortEscape? c with
    | some e => exact escape?_short hshort t
    | none => exact escape?_numbered c t

/-- A written code point is read as its bytes, a broken byte as the byte. -/
theorem interpreted?_escapedRune {shown : Char → Bool} (hshown : shown '\n' = false) (fuel : Nat)
    {a : UInt8} (hr : Utf8.Reads a r) (t : List Rune) :
    interpreted? (fuel + 1) ((escapedRune shown '"' r).map Rune.ofChar ++ t) =
      (interpreted? fuel t).map (r.bytes ++ ·) := by
  rw [escapedRune]
  rcases hr.broken_or_ofChar with ⟨hbroken, hbytes, -⟩ | hchar
  · rw [if_pos hbroken, hbytes]
    have hescape := interpreted?_backslash fuel (escape?_byte a.toNat_lt t)
    rwa [show a.toNat.toUInt8 = a from UInt8.ofNat_toNat] at hescape
  · rw [hchar, Rune.isBroken_ofChar, if_neg Bool.false_ne_true]
    exact interpreted?_escaped hshown fuel r.char t

/-- The written code points of a text are read as the text, with fuel for every code point and the
quote. -/
theorem interpreted?_runes {shown : Char → Bool} (hshown : shown '\n' = false) {rs : List Rune}
    (hrs : Readable rs) (hfuel : rs.length < fuel) :
    interpreted? fuel ((rs.flatMap (escapedRune shown '"')).map Rune.ofChar ++ [Rune.ofChar '"']) =
      some (Bytes.ofRunes rs) := by
  induction rs generalizing fuel with
  | nil =>
    obtain ⟨fuel, rfl⟩ := Nat.exists_eq_succ_of_ne_zero (Nat.ne_of_gt hfuel)
    rfl
  | cons r rs ih =>
    obtain ⟨fuel, rfl⟩ := Nat.exists_eq_succ_of_ne_zero (Nat.ne_of_gt (Nat.zero_lt_of_lt hfuel))
    obtain ⟨a, hr⟩ := hrs.reads List.mem_cons_self
    rw [List.flatMap_cons, List.map_append, List.append_assoc,
      interpreted?_escapedRune hshown fuel hr,
      ih hrs.tail (Nat.lt_of_succ_lt_succ hfuel), Bytes.ofRunes_cons]
    rfl

end Unquoted

/-! ## Literals -/

theorem Quoted.escapedRune_ne_nil (shown : Char → Bool) (mark : Char) (r : Rune) :
    escapedRune shown mark r ≠ [] := by
  unfold escapedRune escaped
  split_ifs <;> exact List.cons_ne_nil _ _

/-- A written text is no shorter than the text. -/
theorem Quoted.length_le_written (shown : Char → Bool) (rs : List Rune) :
    rs.length ≤ (Bytes.ofChars (rs.flatMap (escapedRune shown '"'))).length := by
  have hflat : ∀ {α β : Type} {f : α → List β}, (∀ a, f a ≠ []) →
      ∀ xs : List α, xs.length ≤ (xs.flatMap f).length := by
    intro α β f hf xs
    induction xs with
    | nil => exact Nat.le_refl 0
    | cons x xs ih =>
      have := List.length_pos_iff.2 (hf x)
      rw [List.flatMap_cons, List.length_append, List.length_cons]
      omega
  have hencode : ∀ c : Char, String.utf8EncodeChar c ≠ [] := by
    intro c
    obtain ⟨a, s, henc, -⟩ := Utf8.first_encode c []
    exact henc ▸ List.cons_ne_nil a s
  exact Nat.le_trans (hflat (escapedRune_ne_nil shown '"') rs) (hflat hencode _)

theorem Bytes.unquote?_quoteBy {shown : Char → Bool} (hshown : shown '\n' = false) (s : Bytes) :
    unquote? (quoteBy shown s) = some s := by
  have hruns : runes (ofChars ((runes s).flatMap (escapedRune shown '"')) ++ "\"") =
      ((runes s).flatMap (escapedRune shown '"')).map Rune.ofChar ++ [Rune.ofChar '"'] :=
    runes_ofChars _ _
  have hfuel : (runes s).length <
      (ofChars ((runes s).flatMap (escapedRune shown '"')) ++ "\"").length + 1 := by
    have := Quoted.length_le_written shown (runes s)
    rw [List.length_append]
    omega
  have hread := Unquoted.interpreted?_runes hshown (readable_runes s) hfuel
  rw [ofRunes_runes, ← hruns] at hread
  exact hread

/-- A raw literal denotes what stands between its quotes. -/
theorem Bytes.unquote?_raw {s : Bytes} (hquote : byte '`' ∉ s) (hreturn : byte '\r' ∉ s) :
    unquote? ("`" ++ s ++ "`") = some s := by
  have hkept : s.filter (· != byte '\r') = s :=
    List.filter_eq_self.2 fun b hb => bne_iff_ne.2 fun heq => hreturn (heq ▸ hb)
  show unquote? (byte '`' :: (s ++ [byte '`'])) = some s
  rw [unquote?, if_neg (by decide), List.getLast?_concat, List.dropLast_concat, hkept]
  simp [hquote]

/-- The literal of a text denotes the text, and so it does whatever class of characters is shown as
it is, as long as a line break is not one of them. -/
theorem unquote?_goString (s : Bytes) :
    Bytes.unquote? (Bytes.goString s) = some s ∧
      ∀ shown : Char → Bool, shown '\n' = false → Bytes.unquote? (literalBy shown s) = some s := by
  have hliteral : ∀ shown : Char → Bool, shown '\n' = false →
      Bytes.unquote? (literalBy shown s) = some s := by
    intro shown hshown
    rw [literalBy]
    split_ifs with hraw
    · exact Bytes.unquote?_quoteBy hshown s
    · rw [Bool.or_eq_true, List.contains_iff_mem, List.contains_iff_mem, not_or] at hraw
      exact Bytes.unquote?_raw hraw.1 hraw.2
  refine ⟨?_, hliteral⟩
  rw [Bytes.goString_eq]
  exact hliteral isPrintable (by decide +kernel)

/-- A back quote, a line break and a broken byte, where no character is shown as it is. -/
theorem unquote?_goString_hidden :
    (fun _ => false : Char → Bool) '\n' = false ∧
      Bytes.unquote? (literalBy (fun _ => false) [0x60, 0x0A, 0xFF]) = some [0x60, 0x0A, 0xFF] :=
  ⟨rfl, (unquote?_goString [0x60, 0x0A, 0xFF]).2 (fun _ => false) rfl⟩

example : literalBy (fun _ => false) [0x60, 0x0A, 0xFF] = "\"\\u0060\\n\\xff\"" := by decide +kernel

end AccessLayer
