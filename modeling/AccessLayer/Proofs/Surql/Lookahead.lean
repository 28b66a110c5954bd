import AccessLayer.Proofs.Text.Runes
import AccessLayer.Surql.LexemeSplit
import Mathlib.Data.List.Find
import Mathlib.Data.List.Infix

/-!
# Looking past a token

A reader looks past the end of what it takes only to see whether something more belongs to it. So it
takes the same before another text, if that text goes on like the first one until it ends or until a
character comes that no reader looks for. White space is such a character.

* `Lexeme.Fades`: a text in which readers see no more than in another one.
* `Lexeme.spanChars_fades`, `Lexeme.digits_fades`, …: the readers, each before such a text.
* `lexeme_cut`, `lexeme_append`: a token is the same with less text after it, and with white space
  after it.
-/

namespace AccessLayer.Surql

variable {rs : List Rune} {r : Rune}

/-- What is decided item by item holds of every item of a list. -/
theorem forall_mem_of_all {α : Type} {p : α → Prop} [DecidablePred p] {l : List α}
    (h : (l.all fun x => decide (p x))) : ∀ x ∈ l, p x := by
  intro x hx
  exact of_decide_eq_true (List.all_eq_true.1 h x hx)

/-- The token with further text after it. -/
def Lexeme.before (l : Lexeme) (after : List Rune) : Lexeme := { l with rest := l.rest ++ after }

/-- The token with another text after it. -/
def Lexeme.upTo (l : Lexeme) (rest : List Rune) : Lexeme := { l with rest := rest }

namespace Lexeme

variable {p : Char → Bool} {cs : List Char} {rs rest taken : List Rune} {b : Rune} {c : Char}

/-! ## Fuel -/

theorem length_digits_le (rs : List Rune) : (digits rs).2.length ≤ rs.length := by
  have h := congrArg List.length (digits_split rs)
  rw [List.length_append] at h
  omega

theorem length_spanChars_le (p : Char → Bool) (rs : List Rune) :
    (spanChars p rs).2.length ≤ rs.length := by
  have h := congrArg List.length (spanChars_split p rs)
  rw [List.length_append] at h
  omega

theorem length_digits_lt (h : isAsciiDigit (peek rs)) : (digits rs).2.length < rs.length := by
  cases rs with
  | nil => exact absurd h (by decide)
  | cons r rs =>
    have hr : isAsciiDigit r.char = true := h
    have := length_digits_le rs
    simp only [digits, hr, Bool.true_or, if_true, List.length_cons]
    omega

/-- Counts with units take a code point for each unit of fuel, so more fuel changes nothing. -/
theorem moreUnits_fuel (f f' : Nat) (rs : List Rune) (hf : rs.length ≤ f) (hf' : rs.length ≤ f') :
    moreUnits f rs = moreUnits f' rs := by
  induction f generalizing f' rs with
  | zero =>
    obtain rfl : rs = [] := List.eq_nil_of_length_eq_zero (by omega)
    cases f' with
    | zero => rfl
    | succ f' => simp [moreUnits, peek, show isAsciiDigit '\x00' = false by decide]
  | succ f ih =>
    cases f' with
    | zero =>
      obtain rfl : rs = [] := List.eq_nil_of_length_eq_zero (by omega)
      simp [moreUnits, peek, show isAsciiDigit '\x00' = false by decide]
    | succ f' =>
      simp only [moreUnits]
      split
      · next hd =>
        have hlt := length_digits_lt hd
        have hle := length_spanChars_le isLetter (digits rs).2
        rw [ih f' _ (by omega) (by omega)]
      · rfl

/-- A path takes two code points for each unit of fuel but the last. -/
theorem path_fuel (f f' : Nat) (rs : List Rune) (hf : rs.length ≤ f) (hf' : rs.length ≤ f') :
    path f rs = path f' rs := by
  induction f generalizing f' rs with
  | zero =>
    obtain rfl : rs = [] := List.eq_nil_of_length_eq_zero (by omega)
    cases f' <;> simp [path, spanChars, startsWith]
  | succ f ih =>
    cases f' with
    | zero =>
      obtain rfl : rs = [] := List.eq_nil_of_length_eq_zero (by omega)
      simp [path, spanChars, startsWith]
    | succ f' =>
      simp only [path]
      have hle := length_spanChars_le isIdentPart rs
      split
      · next hs =>
        have hne : (spanChars isIdentPart rs).2 ≠ [] := by
          apply startsWith_ne_nil (show [':', ':'] ≠ [] by simp)
          simp only [Bool.and_eq_true] at hs
          exact hs.1
        have := List.length_pos_iff.2 hne
        have hd : ((spanChars isIdentPart rs).2.drop 2).length ≤ f ∧
            ((spanChars isIdentPart rs).2.drop 2).length ≤ f' := by
          rw [List.length_drop]
          omega
        rw [ih f' _ hd.1 hd.2]
      · rfl

/-! ## Classes of characters -/

theorem isIdentStart_of_isSpace (h : isSpace c) : isIdentStart c = false := by
  have hu : c ≠ '_' := ne_of_isSpace h (by decide)
  simp [isIdentStart, hu, isLetter_of_isSpace h]

theorem isIdentPart_of_isSpace (h : isSpace c) : isIdentPart c = false := by
  simp [isIdentPart, isIdentStart_of_isSpace h, isDigit_of_isSpace h]

/-- A character that continues no word, no number and no parameter. -/
def EndsWord (c : Char) : Prop := isIdentPart c = false ∧ c ∉ ['.', '-', '+', ':', '"', '\'']

/-- A character that continues no token. -/
def EndsToken (c : Char) : Prop := EndsWord c ∧ ∀ op ∈ longOperators, c ∉ op.toList

instance : DecidablePred EndsWord := fun _ => inferInstanceAs (Decidable (_ ∧ _))

instance : DecidablePred EndsToken := fun _ => inferInstanceAs (Decidable (_ ∧ _))

namespace EndsWord

variable {c : Char}

theorem isIdentStart_eq (h : EndsWord c) : isIdentStart c = false := by
  have := h.1
  rw [isIdentPart, Bool.or_eq_false_iff] at this
  exact this.1

theorem isLetter_eq (h : EndsWord c) : isLetter c = false := by
  have := h.isIdentStart_eq
  rw [isIdentStart, Bool.or_eq_false_iff] at this
  exact this.2

theorem isAsciiDigit_eq (h : EndsWord c) : isAsciiDigit c = false := by
  by_contra hd
  have := AccessLayer.isDigit_of_isDigit (c := c) (by simpa [isAsciiDigit] using hd)
  rw [EndsWord, isIdentPart, this, Bool.or_true] at h
  exact absurd h.1 (by simp)

theorem ne_of_isIdentPart (h : EndsWord c) {d : Char} (hd : isIdentPart d) : c ≠ d := by
  rintro rfl
  rw [h.1] at hd
  cases hd

theorem ne_of_mem (h : EndsWord c) {d : Char} (hd : d ∈ ['.', '-', '+', ':', '"', '\'']) :
    c ≠ d := by
  rintro rfl
  exact h.2 hd

end EndsWord

/-- White space ends every token. -/
theorem endsToken_of_isSpace (h : isSpace c) : EndsToken c := by
  have hmarks : ∀ d ∈ ['.', '-', '+', ':', '"', '\''], isSpace d = false :=
    forall_mem_of_all (by decide)
  have hops : ∀ op ∈ longOperators, (op.toList.all fun d => decide (isSpace d = false)) = true := by
    decide
  refine ⟨⟨isIdentPart_of_isSpace h, fun hc => ?_⟩, fun op hop hc => ?_⟩
  · exact Bool.false_ne_true ((hmarks c hc).symm.trans h)
  · exact Bool.false_ne_true ((forall_mem_of_all (hops op hop) c hc).symm.trans h)

/-! ## Texts that show no more -/

/-- In the text `u` readers see no more than in the text `rest`: the two go on alike until `u` ends
or a character of the class `ends` comes in it. -/
inductive Fades (ends : Char → Prop) : (u rest : List Rune) → Prop where
  | stop {rest : List Rune} : Fades ends [] rest
  | ended {b : Rune} {t rest : List Rune} (h : ends b.char) : Fades ends (b :: t) rest
  | cons {r : Rune} {u rest : List Rune} (h : Fades ends u rest) : Fades ends (r :: u) (r :: rest)

namespace Fades

variable {ends : Char → Prop} {u rest : List Rune}

theorem of_isPrefix (h : u <+: rest) : Fades ends u rest := by
  obtain ⟨w, rfl⟩ := h
  induction u with
  | nil => exact .stop
  | cons r u ih => exact .cons ih

theorem append (hb : ends b.char) (rest t : List Rune) : Fades ends (rest ++ b :: t) rest := by
  induction rest with
  | nil => exact .ended hb
  | cons r rest ih => exact .cons ih

/-- What is taken stands in front of both texts. -/
theorem prepend (h : Fades ends u rest) (hsplit : taken ++ rest = rs) :
    Fades ends (taken ++ u) rs := by
  subst hsplit
  induction taken with
  | nil => exact h
  | cons r taken ih => exact .cons ih

/-- A test that the next character fails is failed by the end, by a character of the class or by
that character. -/
theorem test_peek (h0 : p '\x00' = false) (hp : ∀ c, ends c → p c = false) (h : Fades ends u rest)
    (hrest : p (peek rest) = false) : p (peek u) = false := by
  cases h with
  | stop => exact h0
  | ended hb => exact hp _ hb
  | cons h => exact hrest

theorem startsWith_eq_false (hcs : ∀ c ∈ cs, ¬ ends c) (h : Fades ends u rest)
    (hrest : startsWith cs rest = false) : startsWith cs u = false := by
  induction cs generalizing u rest with
  | nil => cases hrest
  | cons c cs ih =>
    rw [List.forall_mem_cons] at hcs
    cases h with
    | stop => rfl
    | ended hb =>
      have hne : _ ≠ c := fun heq => hcs.1 (heq ▸ hb)
      simp [startsWith, hne]
    | cons h =>
      simp only [startsWith, Bool.and_eq_false_iff] at hrest ⊢
      exact hrest.imp_right (ih hcs.2 h)

end Fades

/-- What is taken decides what comes next, whatever follows it. -/
theorem peek_taken (hsplit : taken ++ rest = rs) (hne : taken ≠ []) (u : List Rune) :
    peek (taken ++ u) = peek rs := by
  obtain ⟨r, taken, rfl⟩ := List.exists_cons_of_ne_nil hne
  rw [← hsplit]
  rfl

theorem length_le_of_startsWith (h : startsWith cs rs) : cs.length ≤ rs.length := by
  induction cs generalizing rs with
  | nil => simp
  | cons c cs ih =>
    cases rs with
    | nil => simp [startsWith] at h
    | cons r rs =>
      simp only [startsWith, Bool.and_eq_true] at h
      have := ih h.2
      simpa using this

theorem startsWith_take (h : startsWith cs rs) (u : List Rune) :
    startsWith cs (rs.take cs.length ++ u) := by
  induction cs generalizing rs with
  | nil => rfl
  | cons c cs ih =>
    cases rs with
    | nil => cases h
    | cons r rs =>
      rw [startsWith, Bool.and_eq_true] at h
      rw [List.length_cons, List.take_succ_cons, List.cons_append, startsWith, h.1, ih h.2]
      rfl

variable {rs u : List Rune}

/-! ## Runs and numbers -/

/-- A run ends before any text that does not go on with it. -/
theorem spanChars_before (hu : ∀ x ∈ u.head?, p x.char = false) :
    spanChars p ((spanChars p rs).1 ++ u) = ((spanChars p rs).1, u) := by
  have htaken : ∀ r ∈ (spanChars p rs).1, p r.char = true := by
    intro r hr
    exact List.all_eq_true.1 (List.all_takeWhile (p := fun r : Rune => p r.char)) r hr
  rw [spanChars, List.takeWhile_append_of_pos htaken, List.dropWhile_append_of_pos htaken]
  cases u with
  | nil => simp
  | cons x u => simp [hu x rfl]

theorem spanChars_fades {ends : Char → Prop} (hp : ∀ c, ends c → p c = false)
    (hu : Fades ends u (spanChars p rs).2) :
    spanChars p ((spanChars p rs).1 ++ u) = ((spanChars p rs).1, u) := by
  refine spanChars_before fun x hx => ?_
  generalize hrest : (spanChars p rs).2 = rest at hu
  cases hu with
  | stop => cases hx
  | ended hb =>
    cases hx
    exact hp _ hb
  | cons h =>
    -- the run has ended before `x` in the first text
    cases hx
    have hdrop : rs.dropWhile (fun r => p r.char) = x :: _ := hrest
    have := List.head?_dropWhile_not (fun r : Rune => p r.char) rs
    rw [hdrop] at this
    simpa using this

/-- A digit that comes next is taken. -/
theorem peek_digits (h : isAsciiDigit (peek rs)) : peek ((digits rs).1 ++ u) = peek rs := by
  cases rs with
  | nil => exact absurd h (by decide)
  | cons r rs =>
    have hr : isAsciiDigit r.char = true := h
    simp [digits, hr, peek]

/-- No digit is seen where none was seen before. -/
theorem peek_not_digit (hu : Fades EndsWord u rs) (h : isAsciiDigit (peek rs) = false) :
    isAsciiDigit (peek u) = false :=
  hu.test_peek (by decide) (fun _ hc => hc.isAsciiDigit_eq) h

/-- Digits end before a character that does not continue them. -/
theorem digits_stop (h : isAsciiDigit (peek rs) = false ∧ peek rs ≠ '_') :
    digits rs = ([], rs) := by
  cases rs with
  | nil => rfl
  | cons r rs =>
    have hr : isAsciiDigit r.char = false ∧ r.char ≠ '_' := h
    simp [digits, hr]

theorem digits_fades (hu : Fades EndsWord u (digits rs).2) :
    digits ((digits rs).1 ++ u) = ((digits rs).1, u) := by
  have hended : ∀ {b : Rune} {t : List Rune}, EndsWord b.char → digits (b :: t) = ([], b :: t) :=
    fun hb => digits_stop ⟨hb.isAsciiDigit_eq, hb.ne_of_isIdentPart (by decide)⟩
  induction rs with
  | nil =>
    cases hu with
    | stop => rfl
    | ended hb => exact hended hb
  | cons r rs ih =>
    by_cases hc : (isAsciiDigit r.char || r.char == '_' && isAsciiDigit (peek rs)) = true
    · have hval : digits (r :: rs) = (r :: (digits rs).1, (digits rs).2) := by
        rw [digits, if_pos hc]
      rw [hval] at hu ⊢
      -- an underscore is taken before a digit, and that digit is taken next
      have hc' : (isAsciiDigit r.char ||
          r.char == '_' && isAsciiDigit (peek ((digits rs).1 ++ u))) = true := by
        rw [Bool.or_eq_true, Bool.and_eq_true] at hc ⊢
        exact hc.imp_right fun h => ⟨h.1, by rw [peek_digits h.2]; exact h.2⟩
      rw [List.cons_append, digits, if_pos hc', ih hu]
    · have hval : digits (r :: rs) = ([], r :: rs) := by rw [digits, if_neg hc]
      rw [hval] at hu ⊢
      rw [List.nil_append]
      cases hu with
      | stop => rfl
      | ended hb => exact hended hb
      | cons hrest =>
        rw [digits, if_neg]
        simp only [Bool.or_eq_true, Bool.and_eq_true, not_or, not_and, Bool.not_eq_true] at hc ⊢
        exact ⟨hc.1, fun hx => peek_not_digit hrest (hc.2 hx)⟩

theorem fraction_stop (hpoint : peek rs ≠ '.') : fraction rs = ([], rs) := by
  cases rs with
  | nil => rfl
  | cons r rs =>
    have hr : r.char ≠ '.' := hpoint
    simp [fraction, hr]

theorem fraction_fades (hu : Fades EndsWord u (fraction rs).2) :
    fraction ((fraction rs).1 ++ u) = ((fraction rs).1, u) := by
  have hended : ∀ {b : Rune} {t : List Rune}, EndsWord b.char → fraction (b :: t) = ([], b :: t) :=
    fun hb => fraction_stop (hb.ne_of_mem (by decide))
  cases rs with
  | nil =>
    cases hu with
    | stop => rfl
    | ended hb => exact hended hb
  | cons p rest =>
    by_cases hc : (p.char == '.' && isAsciiDigit (peek rest)) = true
    · have hval : fraction (p :: rest) = (p :: (digits rest).1, (digits rest).2) := by
        simp only [fraction, hc, if_true]
      rw [hval] at hu ⊢
      rw [Bool.and_eq_true] at hc
      have hdot : (p.char == '.' && isAsciiDigit (peek ((digits rest).1 ++ u))) = true := by
        rw [peek_digits hc.2, hc.1, hc.2]
        rfl
      simp only [List.cons_append, fraction, hdot, if_true, digits_fades hu]
    · have hval : fraction (p :: rest) = ([], p :: rest) := by
        simp only [fraction, hc, Bool.false_eq_true, if_false]
      rw [hval] at hu ⊢
      rw [List.nil_append]
      cases hu with
      | stop => rfl
      | ended hb => exact hended hb
      | @cons _ u _ hrest =>
        have hdot : ¬(p.char == '.' && isAsciiDigit (peek u)) = true := by
          rw [Bool.and_eq_true, not_and, Bool.not_eq_true] at hc ⊢
          exact fun hx => peek_not_digit hrest (hc hx)
        simp only [fraction, hdot, Bool.false_eq_true, if_false]

/-- Whether the exponent of a number comes next. -/
def startsExponent (e s : Rune) (rest : List Rune) : Bool :=
  (e.char == 'e' || e.char == 'E') &&
    (isAsciiDigit s.char || ((s.char == '-' || s.char == '+') && isAsciiDigit (peek rest)))

theorem exponent_eq (e s : Rune) (rest : List Rune) :
    exponent (e :: s :: rest) =
      if startsExponent e s rest then (e :: s :: (digits rest).1, (digits rest).2)
      else ([], e :: s :: rest) := by
  rfl

/-- No exponent comes next where none came before. -/
theorem exponent_eq_nil (hrs : (exponent rs).1 = []) (hu : Fades EndsWord u rs) :
    exponent u = ([], u) := by
  cases hu with
  | stop => rfl
  | @ended b t _ hb =>
    have he : b.char ≠ 'e' := hb.ne_of_isIdentPart (by decide)
    have hE : b.char ≠ 'E' := hb.ne_of_isIdentPart (by decide)
    cases t <;> simp [exponent, he, hE]
  | @cons e u rs hu =>
    cases hu with
    | stop => rfl
    | @ended b t _ hb =>
      have hm : b.char ≠ '-' := hb.ne_of_mem (by decide)
      have hp : b.char ≠ '+' := hb.ne_of_mem (by decide)
      simp [exponent_eq, startsExponent, hb.isAsciiDigit_eq, hm, hp]
    | @cons s u rest hrest =>
      have hc : ¬ startsExponent e s rest = true := fun hc => by simp [exponent_eq, hc] at hrs
      rw [exponent_eq, if_neg]
      rw [startsExponent, Bool.and_eq_true, Bool.or_eq_true (isAsciiDigit s.char),
        Bool.and_eq_true] at hc ⊢
      rintro ⟨he, hs | hs⟩
      · exact hc ⟨he, .inl hs⟩
      · refine hc ⟨he, .inr ⟨hs.1, ?_⟩⟩
        by_contra hd
        rw [peek_not_digit hrest (by simpa using hd)] at hs
        exact absurd hs.2 (by simp)

theorem exponent_fades (hu : Fades EndsWord u (exponent rs).2) :
    exponent ((exponent rs).1 ++ u) = ((exponent rs).1, u) := by
  by_cases hnil : (exponent rs).1 = []
  · have hrest : (exponent rs).2 = rs := by
      have := exponent_split rs
      rwa [hnil, List.nil_append] at this
    rw [hrest] at hu
    rw [hnil, List.nil_append, exponent_eq_nil hnil hu]
  · rcases rs with _ | ⟨e, _ | ⟨s, rest⟩⟩
    · exact absurd rfl hnil
    · exact absurd rfl hnil
    · rw [exponent_eq] at hu hnil ⊢
      have hc : startsExponent e s rest = true := by
        by_contra hc
        exact hnil (by rw [if_neg hc])
      rw [if_pos hc] at hu ⊢
      have hc' : startsExponent e s ((digits rest).1 ++ u) = true := by
        rw [startsExponent, Bool.and_eq_true, Bool.or_eq_true (isAsciiDigit s.char),
          Bool.and_eq_true] at hc ⊢
        exact ⟨hc.1, hc.2.imp_right fun h => ⟨h.1, by rw [peek_digits h.2]; exact h.2⟩⟩
      rw [List.cons_append, List.cons_append, exponent_eq, if_pos hc', digits_fades hu]

theorem moreUnits_fades {fuel : Nat} (hu : Fades EndsWord u (moreUnits fuel rs).2.2) :
    moreUnits fuel ((moreUnits fuel rs).2.1 ++ u) =
      ((moreUnits fuel rs).1, (moreUnits fuel rs).2.1, u) := by
  have hletter : ∀ c, EndsWord c → isLetter c = false := fun _ hc => hc.isLetter_eq
  induction fuel generalizing rs with
  | zero => rfl
  | succ fuel ih =>
    by_cases hd : isAsciiDigit (peek rs) = true
    · have hunit := spanChars_split isLetter (digits rs).2
      have hmore := moreUnits_split fuel (spanChars isLetter (digits rs).2).2
      by_cases hc : durationUnits.contains (Bytes.ofRunes (spanChars isLetter (digits rs).2).1) =
        true
      · have hval : moreUnits (fuel + 1) rs =
            ((moreUnits fuel (spanChars isLetter (digits rs).2).2).1,
              (digits rs).1 ++ (spanChars isLetter (digits rs).2).1 ++
                (moreUnits fuel (spanChars isLetter (digits rs).2).2).2.1,
              (moreUnits fuel (spanChars isLetter (digits rs).2).2).2.2) := by
          simp only [moreUnits, hd, hc, if_true]
        rw [hval] at hu ⊢
        have hrest := hu.prepend hmore
        simp only [List.append_assoc, moreUnits, peek_digits hd, hd, if_true,
          digits_fades (hrest.prepend hunit), spanChars_fades hletter hrest, hc, ih hu]
      · have hval : moreUnits (fuel + 1) rs =
            (false, (digits rs).1 ++ (spanChars isLetter (digits rs).2).1,
              (spanChars isLetter (digits rs).2).2) := by
          simp only [moreUnits, hd, hc, if_true, Bool.false_eq_true, if_false]
        rw [hval] at hu ⊢
        simp only [List.append_assoc, moreUnits, peek_digits hd, hd, if_true,
          digits_fades (hu.prepend hunit), spanChars_fades hletter hu, hc, Bool.false_eq_true,
            if_false]
    · have hval : moreUnits (fuel + 1) rs = (true, [], rs) := by
        simp only [moreUnits, hd, Bool.false_eq_true, if_false]
      rw [hval] at hu ⊢
      simp only [List.nil_append, moreUnits, peek_not_digit hu (by simpa using hd),
        Bool.false_eq_true, if_false]

/-- The class of a number with letters after it, and how much the units take. -/
def suffixUnits (suffix rest : List Rune) : TokenKind × List Rune × List Rune :=
  if durationUnits.contains (Bytes.ofRunes suffix) then
    let (ok, taken, rest) := moreUnits rest.length rest
    (if ok then .duration else .ident, taken, rest)
  else if Bytes.ofRunes suffix == "f" || Bytes.ofRunes suffix == "dec" then (.number, [], rest)
  else (.ident, [], rest)

theorem numberSuffix_eq (h : isIdentStart (peek rs)) :
    numberSuffix rs =
      let (suffix, rs₁) := spanChars isLetter rs
      let (kind, units, rs₂) := suffixUnits suffix rs₁
      let (tail, rs₃) := spanChars isIdentPart rs₂
      (if tail.isEmpty then kind else .ident, suffix ++ units ++ tail, rs₃) := by
  rw [numberSuffix, if_pos h]
  rfl

theorem suffixUnits_split (suffix : List Rune) :
    (suffixUnits suffix rs).2.1 ++ (suffixUnits suffix rs).2.2 = rs := by
  unfold suffixUnits
  split_ifs
  · exact moreUnits_split rs.length rs
  · rfl
  · rfl

theorem suffixUnits_fades (suffix : List Rune) (hu : Fades EndsWord u (suffixUnits suffix rs).2.2) :
    suffixUnits suffix ((suffixUnits suffix rs).2.1 ++ u) =
      ((suffixUnits suffix rs).1, (suffixUnits suffix rs).2.1, u) := by
  by_cases hc : durationUnits.contains (Bytes.ofRunes suffix) = true
  · have hval : ∀ {rs fuel}, rs.length ≤ fuel → suffixUnits suffix rs =
        (if (moreUnits fuel rs).1 then .duration else .ident, (moreUnits fuel rs).2) := by
      intro rs fuel hfuel
      rw [suffixUnits, if_pos hc, moreUnits_fuel _ fuel _ le_rfl hfuel]
    obtain ⟨fuel, hrs, hlonger⟩ : ∃ fuel, rs.length ≤ fuel ∧
      ((suffixUnits suffix rs).2.1 ++ u).length ≤ fuel :=
      ⟨_, le_max_left _ _, le_max_right _ _⟩
    rw [hval hlonger]
    rw [hval hrs] at hu ⊢
    rw [moreUnits_fades hu]
  · simp only [suffixUnits, hc, Bool.false_eq_true, if_false]
    split_ifs <;> rfl

/-- An identifier character that comes next is taken. -/
theorem numberSuffix_ne_nil (h : isIdentStart (peek rs)) : (numberSuffix rs).2.1 ≠ [] := by
  cases rs with
  | nil => exact absurd h (by decide)
  | cons r rs =>
    have hr : isIdentStart r.char = true := h
    rw [numberSuffix_eq h]
    by_cases hl : isLetter r.char = true
    · have hletters : (spanChars isLetter (r :: rs)).1 ≠ [] := by simp [spanChars, hl]
      simp [hletters]
    · -- an underscore is no letter, so that the identifier characters start with it
      have hletters : spanChars isLetter (r :: rs) = ([], r :: rs) := by simp [spanChars, hl]
      have hunits : suffixUnits [] (r :: rs) = (.ident, [], r :: rs) := by rfl
      have hpart : (spanChars isIdentPart (r :: rs)).1 ≠ [] := by simp [spanChars, isIdentPart, hr]
      simp [hletters, hunits, hpart]

theorem numberSuffix_fades (hu : Fades EndsWord u (numberSuffix rs).2.2) :
    numberSuffix ((numberSuffix rs).2.1 ++ u) =
      ((numberSuffix rs).1, (numberSuffix rs).2.1, u) := by
  by_cases h : isIdentStart (peek rs) = true
  · have hpeek := peek_taken (numberSuffix_split rs) (numberSuffix_ne_nil h) u
    rw [numberSuffix_eq (by rw [hpeek]; exact h)]
    rw [numberSuffix_eq h] at hu ⊢
    have hunits := hu.prepend (spanChars_split isIdentPart _)
    have hletters := hunits.prepend (suffixUnits_split (spanChars isLetter rs).1)
    simp only [List.append_assoc]
    rw [spanChars_fades (fun _ hc => hc.isLetter_eq) hletters]
    simp only
    rw [suffixUnits_fades _ hunits]
    simp only
    rw [spanChars_fades (fun _ hc => hc.1) hu]
  · have hval : numberSuffix rs = (.number, [], rs) := by rw [numberSuffix, if_neg h]
    rw [hval] at hu ⊢
    have hend := hu.test_peek (p := isIdentStart) (by decide) (fun _ hc => hc.isIdentStart_eq)
      (by simpa using h)
    rw [List.nil_append, numberSuffix, if_neg (by rw [hend]; simp)]

theorem number_fades (hu : Fades EndsWord u (number rs).rest) :
    number ((number rs).taken ++ u) = (number rs).upTo u := by
  have hsuffix : Fades EndsWord u (numberSuffix (exponent (fraction (digits rs).2).2).2).2.2 := hu
  have hexponent := hsuffix.prepend (numberSuffix_split _)
  have hfraction := hexponent.prepend (exponent_split _)
  have hdigits := hfraction.prepend (fraction_split _)
  simp only [number, List.append_assoc, digits_fades hdigits, fraction_fades hfraction,
    exponent_fades hexponent, numberSuffix_fades hsuffix]
  rfl

/-! ## Words -/

theorem path_colons {a : Rune} (fuel : Nat) (hrest : (spanChars isIdentPart rs).2 = a :: b :: rest)
    (hc : startsWith [':', ':'] (a :: b :: rest)) (hstart : isIdentStart (peek rest)) :
    path (fuel + 1) rs =
      ((spanChars isIdentPart rs).1 ++ a :: b :: (path fuel rest).1, (path fuel rest).2) := by
  simp [path, hrest, hc, hstart]

/-- No further part of a path comes next where none came before. -/
theorem path_ended (hu : Fades EndsWord u rs)
    (h : ¬(startsWith [':', ':'] rs && isIdentStart (peek (rs.drop 2))) = true) :
    ¬(startsWith [':', ':'] u && isIdentStart (peek (u.drop 2))) := by
  have hcolon : ∀ {b : Rune}, EndsWord b.char → b.char ≠ ':' := fun hb => hb.ne_of_mem (by decide)
  cases hu with
  | stop => simp [startsWith]
  | ended hb => simp [startsWith, hcolon hb]
  | cons hu =>
    cases hu with
    | stop => simp [startsWith]
    | ended hb => simp [startsWith, hcolon hb]
    | cons hu =>
      rw [Bool.and_eq_true] at h ⊢
      rintro ⟨hcolons, hstart⟩
      refine h ⟨hcolons, ?_⟩
      by_contra hno
      have := hu.test_peek (p := isIdentStart) (by decide) (fun _ hc => hc.isIdentStart_eq)
        (by simpa using hno)
      exact Bool.false_ne_true (this.symm.trans hstart)

theorem path_fades {fuel : Nat} (hf : rs.length ≤ fuel) (hu : Fades EndsWord u (path fuel rs).2) :
    path fuel ((path fuel rs).1 ++ u) = ((path fuel rs).1, u) := by
  have hpart : ∀ c, EndsWord c → isIdentPart c = false := fun _ hc => hc.1
  induction fuel generalizing rs with
  | zero => rfl
  | succ fuel ih =>
    by_cases hc : (startsWith [':', ':'] (spanChars isIdentPart rs).2 &&
        isIdentStart (peek ((spanChars isIdentPart rs).2.drop 2))) = true
    · -- two colons come next, and behind them another part of the path
      rw [Bool.and_eq_true] at hc
      obtain ⟨hcolons, hstart⟩ := hc
      obtain ⟨a, b, rest, hrest⟩ : ∃ a b rest, (spanChars isIdentPart rs).2 = a :: b :: rest := by
        rcases hspan : (spanChars isIdentPart rs).2 with _ | ⟨a, _ | ⟨b, rest⟩⟩
        · simp [hspan, startsWith] at hcolons
        · simp [hspan, startsWith] at hcolons
        · exact ⟨a, b, rest, rfl⟩
      rw [hrest] at hcolons hstart
      have hval := path_colons fuel hrest hcolons hstart
      have hlen := length_spanChars_le isIdentPart rs
      rw [hrest, List.length_cons, List.length_cons] at hlen
      rw [hval] at hu ⊢
      have hne : (path fuel rest).1 ≠ [] := by
        cases rest with
        | nil => exact absurd (show isIdentStart '\x00' = true from hstart) (by decide)
        | cons r rest =>
          rw [List.length_cons] at hlen
          obtain ⟨fuel, rfl⟩ := Nat.exists_eq_add_one_of_ne_zero (n := fuel) (by omega)
          have hr : isIdentStart r.char = true := hstart
          exact path_ne_nil (by simp [isIdentPart, hr]) fuel
      have hspan : spanChars isIdentPart
          ((spanChars isIdentPart rs).1 ++ a :: b :: ((path fuel rest).1 ++ u)) =
          ((spanChars isIdentPart rs).1, a :: b :: ((path fuel rest).1 ++ u)) := by
        refine spanChars_fades hpart ?_
        rw [hrest]
        exact .cons (.cons (hu.prepend (path_split fuel rest)))
      have hstart' : isIdentStart (peek ((path fuel rest).1 ++ u)) = true := by
        rw [peek_taken (path_split fuel rest) hne]
        exact hstart
      rw [List.append_assoc, List.cons_append, List.cons_append,
        path_colons fuel (congrArg Prod.snd hspan) hcolons hstart', hspan, ih (by omega) hu]
    · have hval : path (fuel + 1) rs = spanChars isIdentPart rs := by
        simp only [path, hc, Bool.false_eq_true, if_false]
      rw [hval] at hu ⊢
      simp only [path, spanChars_fades hpart hu, path_ended hu hc, Bool.false_eq_true, if_false]

/-! ## Readers that end at their own closing character -/

theorem stringBody_before {quote : Char} {text : List Char}
    (h : stringBody quote rs = some (text, taken, rest))
    (u : List Rune) : stringBody quote (taken ++ u) = some (text, taken, u) := by
  fun_induction stringBody quote rs generalizing text taken rest with
  | case1 => cases h
  | case2 r hr =>
    cases h
    cases u <;> simp [stringBody, hr]
  | case3 r hr => cases h
  | case4 r e rs hr =>
    cases h
    cases u <;> simp [stringBody, hr]
  | case5 r e rs hr he ih =>
    simp only [Option.map_eq_some_iff, Prod.mk.injEq, Prod.exists] at h
    obtain ⟨x, y, z, hb, rfl, rfl, rfl⟩ := h
    simp [stringBody, hr, he, ih hb]
  | case6 r e rs hr he ih =>
    simp only [Option.map_eq_some_iff, Prod.mk.injEq, Prod.exists] at h
    obtain ⟨x, y, z, hb, rfl, rfl, rfl⟩ := h
    have hrest := ih hb
    rw [List.cons_append]
    cases hy : y ++ u with
    | nil =>
      rw [hy] at hrest
      cases hrest
    | cons e' rs' =>
      rw [hy] at hrest
      simp [stringBody, hr, he, hrest]

theorem stringFrom_before {kind : TokenKind} {front : List Rune} {l : Lexeme}
    (h : stringFrom kind front rs = .ok l) (u : List Rune) :
    ∃ taken, taken ≠ [] ∧ l.taken = front ++ taken ∧
      stringFrom kind front (taken ++ u) = .ok (l.upTo u) := by
  cases rs with
  | nil => cases h
  | cons q body =>
    simp only [stringFrom] at h
    split at h
    · next text taken rest hb =>
      cases h
      exact ⟨q :: taken, by simp, rfl, by simp [stringFrom, stringBody_before hb, upTo]⟩
    · cases h

theorem quotedIdent_before {closing : Char} {l : Lexeme} (h : quotedIdent closing rs = .ok l)
    (u : List Rune) : quotedIdent closing (l.taken ++ u) = .ok (l.upTo u) := by
  cases rs with
  | nil => cases h
  | cons o body =>
    simp only [quotedIdent] at h
    split at h
    · cases h
    · next name c rest hs =>
      cases h
      have hc : (c.char != closing) = false := by
        have hdrop : body.dropWhile (fun r => r.char != closing) = c :: rest := congrArg Prod.snd hs
        have := List.head?_dropWhile_not (fun r : Rune => r.char != closing) body
        rw [hdrop] at this
        simpa using this
      have hspan : spanChars (· != closing) (name ++ c :: u) = (name, c :: u) := by
        have h : spanChars (· != closing) ((spanChars (· != closing) body).1 ++ c :: u) = _ :=
          spanChars_before (by simpa using hc)
        rwa [hs] at h
      simp [quotedIdent, hspan, upTo]

end Lexeme

open Lexeme

variable {rs u : List Rune} {l : Lexeme}

/-! ## Tokens -/

theorem word_fades (h : word rs = .ok l) (hu : Fades EndsWord u l.rest) :
    word (l.taken ++ u) = .ok (l.upTo u) := by
  have hpath : ∀ {v}, Fades EndsWord v (path rs.length rs).2 →
      path ((path rs.length rs).1 ++ v).length ((path rs.length rs).1 ++ v) =
        ((path rs.length rs).1, v) := by
    intro v hv
    obtain ⟨fuel, hrs, hlonger⟩ : ∃ fuel, rs.length ≤ fuel ∧
      ((path rs.length rs).1 ++ v).length ≤ fuel :=
      ⟨_, le_max_left _ _, le_max_right _ _⟩
    rw [path_fuel _ fuel _ le_rfl hlonger]
    rw [path_fuel _ fuel rs le_rfl hrs] at hv ⊢
    exact path_fades hrs hv
  simp only [word] at h
  split at h
  · next kind hk =>
    -- the quote of a marked string is still there
    obtain ⟨taken, hne, htaken, hcut⟩ := stringFrom_before h u
    have hsplit := (stringFrom_split h).1
    rw [htaken, List.append_assoc] at hsplit
    have hsplit := List.append_cancel_left hsplit
    rw [htaken, List.append_assoc]
    simp only [word, hpath (hu.prepend hsplit), peek_taken hsplit hne u, hk]
    exact hcut
  · next hk =>
    cases h
    have hnone : (if (peek u == '"' || peek u == '\'') = true
        then stringMark? (Bytes.ofRunes (path rs.length rs).1) else none) = none := by
      split
      · next hquote =>
        by_cases hrest : (peek (path rs.length rs).2 == '"' || peek (path rs.length rs).2 == '\'') =
          true
        · rwa [if_pos hrest] at hk
        · have := hu.test_peek (p := fun c => c == '"' || c == '\'') (by decide)
            (fun c hc => by simp [hc.ne_of_mem (d := '"'), hc.ne_of_mem (d := '\'')])
              (by simpa using hrest)
          exact absurd (this.symm.trans hquote) Bool.false_ne_true
      · rfl
    simp only [word, hpath hu, hnone]
    rfl

theorem symbol_fades (h : symbol (r :: rs) = .ok l) (hu : Fades EndsToken u l.rest) :
    symbol (l.taken ++ u) = .ok (l.upTo u) := by
  obtain ⟨hsplit, hne⟩ := symbol_split h
  have hless : ∀ op ∈ longOperators, startsWith op.toList (r :: rs) = false →
      startsWith op.toList (l.taken ++ u) = false := fun op hop =>
    (hu.prepend hsplit).startsWith_eq_false fun c hc hends => hends.2 op hop hc
  have hpeek := peek_taken hsplit hne u
  simp only [symbol] at h
  split at h
  · next op hop =>
    cases h
    rw [List.find?_eq_some_iff_append] at hop
    obtain ⟨hstart, earlier, later, hops, hearlier⟩ := hop
    have hlen := length_le_of_startsWith hstart
    rw [String.length_toList] at hlen
    have hfind : longOperators.find? (fun o =>
        startsWith o.toList ((r :: rs).take op.length ++ u)) =
        some op := by
      rw [List.find?_eq_some_iff_append]
      refine ⟨?_, earlier, later, hops, fun o ho => ?_⟩
      · have := startsWith_take hstart u
        rwa [String.length_toList] at this
      · have := hearlier o ho
        rw [Bool.not_eq_true'] at this ⊢
        exact hless o (by rw [hops]; exact List.mem_append_left _ ho) this
    have htake : ((r :: rs).take op.length).length = op.length := List.length_take_of_le hlen
    simp only [symbol, hfind]
    rw [List.take_left' htake, List.drop_left' htake]
    rfl
  · next hop =>
    have hnone : longOperators.find? (fun op => startsWith op.toList (l.taken ++ u)) = none := by
      rw [List.find?_eq_none] at hop ⊢
      exact fun op hmem => Bool.not_eq_true _ ▸ hless op hmem (by simpa using hop op hmem)
    split at h
    · next kind hk =>
      cases h
      simp only [symbol, hnone, hpeek, hk]
      rfl
    · cases h

theorem param_fades (h : param (r :: rs) = .ok l) (hu : Fades EndsWord u l.rest) :
    param (l.taken ++ u) = .ok (l.upTo u) := by
  simp only [param, List.drop_succ_cons, List.drop_zero] at h
  split at h
  · cases h
  · next hne =>
    cases h
    simp [param, spanChars_fades (fun _ hc => hc.1) hu, hne, upTo]

/-- A token is the same before a text in which no more of it is seen. Characters of symbols may end
words and numbers. -/
theorem lexeme_fades (h : lexeme (r :: rs) = .ok l) (hu : Fades EndsWord u l.rest)
    (hop : isAsciiDigit r.char = false → isIdentStart r.char = false → Fades EndsToken u l.rest) :
    lexeme (l.taken ++ u) = .ok (l.upTo u) := by
  obtain ⟨hsplit, hne⟩ := lexeme_split h
  have hpeek : peek (l.taken ++ u) = r.char := peek_taken hsplit hne u
  have hpeek' : peek (r :: rs) = r.char := rfl
  simp only [lexeme, hpeek, hpeek'] at h ⊢
  split_ifs at h ⊢ with _ _ _ _ hdigit hstart
  · exact param_fades h hu
  · obtain ⟨taken, -, htaken, hcut⟩ := stringFrom_before h u
    rw [htaken, List.nil_append]
    exact hcut
  · exact quotedIdent_before h u
  · exact quotedIdent_before h u
  · cases h
    rw [number_fades hu]
  · exact word_fades h hu
  · exact symbol_fades h (hop (by simpa using hdigit) (by simpa using hstart))

theorem lexeme_cut (h : lexeme (r :: rs) = .ok l) (hu : u <+: l.rest) :
    lexeme (l.taken ++ u) = .ok (l.upTo u) :=
  lexeme_fades h (.of_isPrefix hu) fun _ _ => .of_isPrefix hu

/-- A token that is read at the end of a text is read as well before a character that ends words
and, where the token is no word and no number, goes on with no symbol. -/
theorem lexeme_append_ends {b : Rune} (hb : EndsWord b.char) (t : List Rune)
    (hop : isAsciiDigit r.char = false → isIdentStart r.char = false → EndsToken b.char)
    (h : lexeme (r :: rs) = .ok l) : lexeme (r :: rs ++ b :: t) = .ok (l.before (b :: t)) := by
  have := lexeme_fades h (.append hb l.rest t) fun h1 h2 => .append (hop h1 h2) l.rest t
  rwa [← List.append_assoc, (lexeme_split h).1] at this

/-- A token that is read at the end of a text is read as well before white space. -/
theorem lexeme_append {b : Rune} (hb : isSpace b.char) (t : List Rune)
    (h : lexeme (r :: rs) = .ok l) : lexeme (r :: rs ++ b :: t) = .ok (l.before (b :: t)) :=
  lexeme_append_ends (endsToken_of_isSpace hb).1 t (fun _ _ => endsToken_of_isSpace hb) h

/-! ## Gaps -/

theorem gap_cons_eq_none : gap (r :: rs) = .ok none ↔
    isSpace r.char = false ∧ (startsWith ['-', '-'] (r :: rs) || startsWith ['/', '/'] (r :: rs) ||
      r.char == '#') = false ∧ startsWith ['/', '*'] (r :: rs) = false := by
  simp only [gap]
  split_ifs with hspace hline hblock
  · simp [hspace]
  · simp [hline]
  · cases commentBody (rs.drop 1) <;> simp [hblock]
  · simp [hspace, hline, hblock]

/-- Where a token comes next, one comes next before another text that shows no more of a comment. -/
theorem gap_fades {ends : Char → Prop} (hends : ∀ c ∈ ['-', '/', '*'], ¬ ends c) {u : List Rune}
    (h : gap (r :: rs) = .ok none) (hu : Fades ends u rs) : gap (r :: u) = .ok none := by
  have hmarks : ∀ cs, (∀ c ∈ cs, c ∈ ['-', '/', '*']) → startsWith cs (r :: rs) = false →
      startsWith cs (r :: u) = false := fun cs hcs =>
    (Fades.cons hu).startsWith_eq_false fun c hc => hends c (hcs c hc)
  rw [gap_cons_eq_none] at h ⊢
  obtain ⟨hspace, hline, hblock⟩ := h
  simp only [Bool.or_eq_false_iff] at hline ⊢
  exact ⟨hspace, ⟨⟨hmarks _ (by simp) hline.1.1, hmarks _ (by simp) hline.1.2⟩, hline.2⟩,
    hmarks _ (by simp) hblock⟩

/-- Where a token comes next, one comes next in a shorter text. -/
theorem gap_cut (h : gap rs = .ok none) (hu : u <+: rs) : gap u = .ok none := by
  cases u with
  | nil => rfl
  | cons r u =>
    obtain ⟨w, rfl⟩ := hu
    have hfades : Fades (fun _ => False) u (u ++ w) := .of_isPrefix (List.prefix_append u w)
    exact gap_fades (fun _ _ => id) h hfades

end AccessLayer.Surql
