import AccessLayer.Proofs.Naming.Words
import AccessLayer.Proofs.Query.ParamNames
import AccessLayer.Proofs.Text.Ascii

/-!
# Parameter names are identifiers

A variable of a query may be called by letters, digits and underscores in any order, and its
parameter has to be an identifier that nothing else is called. The underscores go, the first letter
is put in lower case, a digit at the start gets a letter in front, and a reserved word gets another
word behind. A name with nothing but underscores has no first letter, and its parameter has no name
at all.

* `Naming.flatten_split`: the words of an identifier are its characters without the underscores.
* `paramName?_not_taken`: no parameter has a name that the language or the generated functions use.
* `paramName?_safe`: the variables whose parameter has a name, and that the name is safe.
-/

namespace AccessLayer

open Bytes

/-! ## Words of letters and digits -/

/-- A letter or a digit of ASCII. -/
def IsAlphanumeric (c : Char) : Prop := c.toNat < 0x80 ∧ c.isAlphanum = true

instance (c : Char) : Decidable (IsAlphanumeric c) := inferInstanceAs (Decidable (_ ∧ _))

namespace Naming

variable {cs : List Char} {d : Char}

theorem flatten_split (cs : List Char) : (split cs).flatten = cs.filter (· != '_') := by
  induction cs with
  | nil => rfl
  | cons c cs ih =>
    by_cases hc : c = '_'
    · rw [hc, split_underscore, List.flatten_cons, ih]
      rfl
    · have hbar : (c == '_') = false := beq_eq_false_iff_ne.2 hc
      have hkeep : (c :: cs).filter (· != '_') = c :: cs.filter (· != '_') := by simp [hc]
      rw [hkeep, ← ih]
      cases cs with
      | nil => simp [split, hbar]
      | cons d ds =>
        rw [split, hbar, if_neg Bool.false_ne_true]
        split_ifs
        · rfl
        · cases split (d :: ds) <;> rfl

/-- The characters of a word only change their case. -/
theorem mem_capitalize {w : List Char} (h : d ∈ capitalize w) :
    ∃ c ∈ w, d = toUpper c ∨ d = toLower c := by
  cases w with
  | nil => cases h
  | cons c cs =>
    obtain rfl | h := List.mem_cons.1 h
    · exact ⟨c, List.mem_cons_self, .inl rfl⟩
    · obtain ⟨e, he, rfl⟩ := List.mem_map.1 h
      exact ⟨e, List.mem_cons_of_mem _ he, .inr rfl⟩

theorem capitalize_eq_nil {w : List Char} : capitalize w = [] ↔ w = [] := by
  cases w <;> simp [capitalize]

theorem isAlphanumeric_recased {c : Char} (h : IsAlphanumeric c) :
    IsAlphanumeric (toUpper c) ∧ IsAlphanumeric (toLower c) := by
  have hcodes : ∀ n : Fin 128, IsAlphanumeric (Char.ofNat n) →
      IsAlphanumeric (toUpper (Char.ofNat n)) ∧ IsAlphanumeric (toLower (Char.ofNat n)) := by
    decide
  exact forall_ascii (P := fun c => IsAlphanumeric c → IsAlphanumeric (toUpper c) ∧
    IsAlphanumeric (toLower c))
    hcodes h.1 h

/-- Joined words are made of the characters of the identifier without the underscores, in another
case. -/
theorem mem_words (h : d ∈ (split cs).flatMap capitalize) :
    ∃ c ∈ cs, c ≠ '_' ∧ (d = toUpper c ∨ d = toLower c) := by
  obtain ⟨w, hw, hd⟩ := List.mem_flatMap.1 h
  obtain ⟨c, hc, hd⟩ := mem_capitalize hd
  have hmem : c ∈ cs.filter (· != '_') := flatten_split cs ▸ List.mem_flatten_of_mem hw hc
  rw [List.mem_filter, bne_iff_ne] at hmem
  exact ⟨c, hmem.1, hmem.2, hd⟩

/-- Joined words are made of letters and digits. -/
theorem isAlphanumeric_words (h : ∀ c ∈ cs, IsAlphanumeric c ∨ c = '_') :
    ∀ d ∈ (split cs).flatMap capitalize, IsAlphanumeric d := by
  intro d hd
  obtain ⟨c, hc, hne, hd⟩ := mem_words hd
  have hcase := isAlphanumeric_recased ((h c hc).resolve_right hne)
  obtain rfl | rfl := hd
  · exact hcase.1
  · exact hcase.2

/-- There is nothing to join only if there is nothing but underscores. -/
theorem words_eq_nil : (split cs).flatMap capitalize = [] ↔ ∀ c ∈ cs, c = '_' := by
  have hflat : (split cs).flatMap capitalize = [] ↔ (split cs).flatten = [] := by
    rw [List.flatMap_eq_nil_iff, List.flatten_eq_nil_iff]
    exact forall₂_congr fun w _ => capitalize_eq_nil
  rw [hflat, flatten_split, List.filter_eq_nil_iff]
  simp

/-- Letters, digits and underscores stay as they are in an identifier. -/
theorem identChars_ofChars (h : ∀ c ∈ cs, IsAlphanumeric c ∨ c = '_') :
    identChars (ofChars cs) = cs := by
  have hcodes : ∀ n : Fin 128, IsAlphanumeric (Char.ofNat n) →
      isIdentChar (Char.ofNat n) = true := by
    decide
  have hident : ∀ c ∈ cs, isIdentChar c = true := by
    intro c hc
    obtain hc | rfl := h c hc
    · exact forall_ascii (P := fun c => IsAlphanumeric c → isIdentChar c = true) hcodes hc.1 hc
    · rfl
  rw [identChars, chars_ofChars]
  exact (List.map_congr_left fun c hc => if_pos (hident c hc)).trans (List.map_id cs)

/-- Camel case puts the first character of the joined words in lower case. -/
theorem camel?_of_pascal {s : Bytes} {ds : List Char} (hd : d.toNat < 0x80)
    (h : pascal s = ofChars (d :: ds)) : camel? s = some (ofChars (toLower d :: ds)) := by
  have hbytes : ofChars (d :: ds) = byte d :: ofChars ds := by
    rw [ofChars, List.flatMap_cons, encode_of_ascii hd]
    rfl
  have hlower : Bytes.toLower [byte d] = ofChars [toLower d] := by
    have hchars : chars [byte d] = [d] := by
      have := chars_ofChars [d]
      rwa [ofChars, List.flatMap_singleton, encode_of_ascii hd] at this
    rw [Bytes.toLower, hchars]
    rfl
  rw [camel?, h, hbytes]
  dsimp only
  rw [hlower, ofChars, ofChars, ofChars, ← List.flatMap_append]
  rfl

/-- A name of letters, digits and underscores has a form in camel case unless it is made of
underscores alone, and that form is made of letters and digits. -/
theorem camel?_alphanumeric (h : ∀ c ∈ cs, IsAlphanumeric c ∨ c = '_') :
    (camel? (ofChars cs) = none ↔ ∀ c ∈ cs, c = '_') ∧
      ∀ ident, camel? (ofChars cs) = some ident →
        ∃ ds, ident = ofChars ds ∧ ds ≠ [] ∧ ∀ d ∈ ds, IsAlphanumeric d := by
  have hpascal : pascal (ofChars cs) = ofChars ((split cs).flatMap capitalize) := by
    rw [pascal, identChars_ofChars h]
  have hwords := isAlphanumeric_words h
  rw [← words_eq_nil]
  generalize (split cs).flatMap capitalize = joined at hpascal hwords
  cases joined with
  | nil =>
    have hnone : camel? (ofChars cs) = none := by
      rw [camel?, hpascal]
      rfl
    rw [hnone]
    exact ⟨by simp, fun _ hsome => by cases hsome⟩
  | cons d ds =>
    rw [List.forall_mem_cons] at hwords
    rw [camel?_of_pascal hwords.1.1 hpascal]
    refine ⟨by simp, fun ident hident => ?_⟩
    cases hident
    exact ⟨toLower d :: ds, rfl, List.cons_ne_nil _ _,
      List.forall_mem_cons.2 ⟨(isAlphanumeric_recased hwords.1).2, hwords.2⟩⟩

end Naming

/-! ## Names of parameters -/

namespace Query

/-- No reserved word ends like the word that is put behind them. -/
theorem append_not_taken (x : Bytes) :
    Go.isKeyword (x ++ "Param") = false ∧ x ++ ofString "Param" ∉ reservedNames := by
  have hlast : (x ++ ofString "Param").getLast? = some (byte 'm') := by
    rw [List.getLast?_append_of_ne_nil _ (by decide)]
    decide
  have hkeywords : ∀ k ∈ Go.keywords, (ofString k).getLast? ≠ some (byte 'm') := by decide
  have hreserved : ∀ r ∈ reservedNames, r.getLast? ≠ some (byte 'm') := by decide
  constructor
  · rw [Go.isKeyword, List.any_eq_false]
    intro k hk heq
    exact hkeywords k hk (beq_iff_eq.1 heq ▸ hlast)
  · exact fun hmem => hreserved _ hmem hlast

theorem paramName?_not_taken {name w : Bytes} (h : paramName? name = some w) :
    Go.isKeyword w = false ∧ w ∉ reservedNames := by
  obtain ⟨ident, -, rfl⟩ := Option.map_eq_some_iff.1 h
  dsimp only
  generalize (if startsWithDigit ident then "p" ++ ident else ident) = x
  split
  · exact append_not_taken x
  · next hfree => simpa using hfree

/-- A name that a parameter may have: letters and digits, at least one, with no digit in front,
which are no keyword and no name that generated functions use. -/
structure IsSafeIdent (w : Bytes) : Prop where
  ne_nil : w ≠ []
  alphanumeric : ∀ b ∈ w, Annotation.isNameByte b = true ∧ b ≠ byte '_'
  start : ∀ b ∈ w.head?, isDigitByte b = false
  not_keyword : Go.isKeyword w = false
  not_reserved : w ∉ reservedNames

/-- The name of a variable, by character. -/
theorem exists_chars {name : Bytes} (h : ∀ b ∈ name, Annotation.isNameByte b) :
    ∃ cs, name = ofChars cs ∧ (∀ c ∈ cs, IsAlphanumeric c ∨ c = '_') ∧
      ((∀ c ∈ cs, c = '_') ↔ ∀ b ∈ name, b = byte '_') := by
  have hcodes : ∀ i : Fin 256, Annotation.isNameByte (UInt8.ofFin i) = true → UInt8.ofFin i < 0x80 ∧
      (IsAlphanumeric (Char.ofNat (UInt8.ofFin i).toNat) ∨ Char.ofNat (UInt8.ofFin i).toNat = '_') ∧
      (Char.ofNat (UInt8.ofFin i).toNat = '_' ↔ UInt8.ofFin i = byte '_') := by
    decide +kernel
  have hbytes := fun b hb => hcodes (UInt8.toFin b) (h b hb)
  have hascii : ∀ b ∈ name, b < 0x80 := fun b hb => (hbytes b hb).1
  refine ⟨chars name, (ofChars_chars hascii).symm, ?_, ?_⟩
  · rw [chars_of_ascii hascii, List.forall_mem_map]
    exact fun b hb => (hbytes b hb).2.1
  · rw [chars_of_ascii hascii, List.forall_mem_map]
    exact forall₂_congr fun b hb => (hbytes b hb).2.2

theorem alphanumeric_ofChars {cs : List Char} (h : ∀ c ∈ cs, IsAlphanumeric c) :
    ∀ b ∈ ofChars cs, Annotation.isNameByte b ∧ b ≠ byte '_' := by
  have hcodes : ∀ n : Fin 128, IsAlphanumeric (Char.ofNat n) →
      Annotation.isNameByte (byte (Char.ofNat n)) = true ∧ byte (Char.ofNat n) ≠ byte '_' := by
    decide
  rw [ofChars_of_ascii fun c hc => (h c hc).1, List.forall_mem_map]
  exact fun c hc => forall_ascii (P := fun c => IsAlphanumeric c →
    Annotation.isNameByte (byte c) = true ∧ byte c ≠ byte '_') hcodes (h c hc).1 (h c hc)

/-- A letter is put in front of a digit, so that no digit starts the name. -/
theorem exists_start {d : Char} {ds : List Char} (h : ∀ c ∈ d :: ds, IsAlphanumeric c) :
    ∃ e es, (if startsWithDigit (ofChars (d :: ds)) then "p" ++ ofChars (d :: ds)
        else ofChars (d :: ds)) =
      ofChars (e :: es) ∧ isDigitByte (byte e) = false ∧ ∀ c ∈ e :: es, IsAlphanumeric c := by
  have hcodes : ∀ n : Fin 128, isDigit (Char.ofNat n) = isDigitByte (byte (Char.ofNat n)) := by
    decide
  have hdigit : startsWithDigit (ofChars (d :: ds)) = isDigitByte (byte d) := by
    rw [startsWithDigit, chars_ofChars]
    exact forall_ascii (P := fun c => isDigit c = isDigitByte (byte c)) hcodes
      (h d List.mem_cons_self).1
  rw [hdigit]
  split
  · exact ⟨'p', d :: ds, rfl, by decide, List.forall_mem_cons.2 ⟨by decide, h⟩⟩
  · next hstart => exact ⟨d, ds, rfl, by simpa using hstart, h⟩

/-- A word that is put behind a name keeps it as it starts. -/
theorem exists_end {taken : Bool} {e : Char} {es : List Char}
    (h : ∀ c ∈ e :: es, IsAlphanumeric c) :
    ∃ fs, (if taken then ofChars (e :: es) ++ "Param" else ofChars (e :: es)) = ofChars (e :: fs) ∧
      ∀ c ∈ e :: fs, IsAlphanumeric c := by
  cases taken with
  | false => exact ⟨es, rfl, h⟩
  | true =>
    have hparam : ofString "Param" = ofChars ['P', 'a', 'r', 'a', 'm'] := by decide
    refine ⟨es ++ ['P', 'a', 'r', 'a', 'm'], ?_, ?_⟩
    · rw [if_pos rfl, hparam, ofChars, ofChars, ← List.flatMap_append]
      rfl
    · rw [← List.cons_append, List.forall_mem_append]
      refine ⟨h, ?_⟩
      simp only [List.forall_mem_cons]
      exact ⟨by decide, by decide, by decide, by decide, by
        decide, fun _ hc => absurd hc List.not_mem_nil⟩

/-- A variable gives its parameter a name unless its own name is made of underscores alone, and that
name is safe. -/
theorem paramName?_safe {name : Bytes} (hname : ∀ b ∈ name, Annotation.isNameByte b = true) :
    (paramName? name = none ↔ ∀ b ∈ name, b = byte '_') ∧
      ∀ w, paramName? name = some w → IsSafeIdent w := by
  obtain ⟨cs, rfl, hcs, hbars⟩ := exists_chars hname
  obtain ⟨hnone, hsome⟩ := Naming.camel?_alphanumeric hcs
  refine ⟨?_, fun w hw => ?_⟩
  · rw [paramName?, Option.map_eq_none_iff, hnone, hbars]
  · obtain ⟨hkeyword, hreserved⟩ := paramName?_not_taken hw
    obtain ⟨ident, hident, hw⟩ := Option.map_eq_some_iff.1 hw
    obtain ⟨ds, rfl, hne, hds⟩ := hsome ident hident
    obtain ⟨d, ds, rfl⟩ := List.exists_cons_of_ne_nil hne
    obtain ⟨e, es, hx, hstart, hes⟩ := exists_start hds
    dsimp only at hw
    rw [hx] at hw
    obtain ⟨fs, hy, hfs⟩ := exists_end hes
    obtain rfl := hy.symm.trans hw
    have hbytes : ofChars (e :: fs) = byte e :: fs.map byte :=
      ofChars_of_ascii fun c hc => (hfs c hc).1
    exact {
      ne_nil := by simp [hbytes]
      alphanumeric := alphanumeric_ofChars hfs
      start := by simpa [hbytes] using hstart
      not_keyword := hkeyword
      not_reserved := hreserved }

/-- A variable whose name would be reserved without its underscore. -/
theorem paramName?_safe_id : (ofString "_id").all Annotation.isNameByte = true ∧
    paramName? "_id" = some "idParam" ∧ IsSafeIdent "idParam" := by
  have hname : (ofString "_id").all Annotation.isNameByte = true := by decide
  have hparam : paramName? "_id" = some "idParam" := by decide +kernel
  exact ⟨hname, hparam, (paramName?_safe (List.all_eq_true.1 hname)).2 _ hparam⟩

/-- An annotated variable whose parameter has no name. -/
theorem paramName?_underscore :
    annotations "// $_: string" = [⟨"_", "string"⟩] ∧ paramName? "_" = none := by
  decide +kernel

end Query

end AccessLayer
