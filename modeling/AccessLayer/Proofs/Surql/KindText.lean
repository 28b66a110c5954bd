import AccessLayer.Proofs.Surql.KindTree
import AccessLayer.Proofs.Surql.Segments
import AccessLayer.Proofs.Text.Readable

/-!
# Types read from their text

A type is written as text and read back. The text has no gaps but the spaces of its separators, so
tokens end where the next one starts; and the separators do not say how the types nest, the readers
find out.

* `LiteralText`, `Writable`: the literals and the types that have a text of their own.
* `RoundTrips`: the text of a type is read as the type wherever it stands inside of another.
* `kind_render`: reading the text of a type gives the type.
-/

namespace AccessLayer.Surql

open Bytes
open Kind (eitherName literalName recordName render renderAll)

variable {k : Kind} {n s : Bytes} {ks : List Kind} {bars : Bool} {c : Char}

/-! ## Names and literals -/

/-- A lower-case letter or an underscore. -/
def isLowerStart (b : UInt8) : Bool := (byte 'a' ≤ b && b ≤ byte 'z') || b == byte '_'

/-- A lower-case letter, a digit or an underscore. -/
def isLowerPart (b : UInt8) : Bool := isLowerStart b || (byte '0' ≤ b && b ≤ byte '9')

/-- A lower-case identifier that marks no alternation and no literal. -/
def isTypeName : Bytes → Bool
  | [] => false
  | b :: t =>
    isLowerStart b && t.all isLowerPart && !List.contains [eitherName, literalName] (b :: t)

/-- The text of a literal: a number or a duration, a string of printable ASCII, or tokens between
braces or brackets, which match and are the first and the last of the text. -/
inductive LiteralText : Bytes → Prop where
  | number (n : Number) : LiteralText (ofChars n.chars)
  | string {s : Bytes} (h : ∀ b ∈ s, 0x20 ≤ b ∧ b ≤ 0x7E) : LiteralText (quote s)
  | group {s : Bytes} {o c stop : Token} {inner : List Token}
    (h : tokenize s = .ok (o :: inner ++ [c, stop]))
      (ho : o.kind = .lbrace ∨ o.kind = .lbracket) (hc : o.kind.closer? = some c.kind)
        (hinner : WellNested inner)
      (hstart : o.start.offset = 0) (hstop : c.stop = s.length) : LiteralText s

/-- A type that has a text: names with arguments, literals and, where `bars` may stand,
alternations. A record takes no alternations as arguments. -/
inductive Writable : (bars : Bool) → Kind → Prop where
  | named {bars : Bool} {n : Bytes} {args : List Kind} (hn : isTypeName n = true)
      (h : ∀ k ∈ args, Writable (n != recordName) k) : Writable bars (.mk n args [])
  | literal {bars : Bool} {s : Bytes} (h : LiteralText s) : Writable bars (.ofLiteral s)
  | either {args : List Kind} (h : ∀ k ∈ args, Writable false k) (hlen : 2 ≤ args.length) :
      Writable true (.mk eitherName args [])

theorem endsSymbol_lt (h : c ∉ ['-', '=']) : EndsSymbol '<' c := by
  have hall : ∀ op ∈ Lexeme.longOperators, op.toList.head? = some '<' →
      op.toList.getD 1 ' ' ∈ ['-', '='] := by
    decide
  intro op hop heq
  have := hall op hop
  generalize op.toList = cs at heq this
  rcases cs with _ | ⟨x, _ | ⟨y, cs⟩⟩
  · cases heq
  · cases heq
  · obtain ⟨rfl, rfl⟩ : x = '<' ∧ y = c := by simpa using heq
    exact h (this rfl)

theorem notMem_of_isTypeName (h : isTypeName n) : n ∉ [eitherName, literalName] := by
  cases n with
  | nil => cases h
  | cons b t =>
    rw [isTypeName, Bool.and_eq_true, Bool.not_eq_true', List.contains_eq_mem,
      decide_eq_false_iff_not] at h
    exact h.2

theorem exists_nameSpelling (h : isTypeName n) :
    ∃ (q : Spelling) (c : Char) (cs : List Char), q.chars = c :: cs ∧ q.text = n ∧ q.kind = .ident ∧
      q.literal = n ∧
      (c.toNat < 0x80 ∧ Lexeme.isIdentStart c) ∧ Bytes.toLower n = n := by
  have hall : ∀ i : Fin 256, isLowerPart (UInt8.ofFin i) = true →
      UInt8.ofFin i < 0x80 ∧ (Char.ofNat i).toNat < 0x80 ∧
        Lexeme.isIdentPart (Char.ofNat i) = true ∧
        toLower (Char.ofNat i) = Char.ofNat i ∧
        (isLowerStart (UInt8.ofFin i) = true → Lexeme.isIdentStart (Char.ofNat i) = true) := by
    decide +kernel
  cases n with
  | nil => cases h
  | cons b t =>
    rw [isTypeName, Bool.and_eq_true, Bool.and_eq_true, List.all_eq_true] at h
    obtain ⟨⟨hb, ht⟩, -⟩ := h
    have hparts : ∀ x ∈ b :: t, isLowerPart x = true :=
      List.forall_mem_cons.2 ⟨by rw [isLowerPart, hb, Bool.true_or], ht⟩
    have hascii : ∀ x ∈ b :: t, x < 0x80 := fun x hx => (hall x.toFin (hparts x hx)).1
    have hchars := chars_of_ascii hascii
    have hself := ofChars_chars hascii
    have hlower : (chars (b :: t)).map toLower = chars (b :: t) := by
      rw [hchars, List.map_map]
      exact List.map_congr_left fun x hx => (hall x.toFin (hparts x hx)).2.2.2.1
    have hothers : ∀ c ∈ t.map (fun x => Char.ofNat x.toNat), Lexeme.isIdentPart c = true := by
      intro c hc
      obtain ⟨x, hx, rfl⟩ := List.mem_map.1 hc
      exact (hall x.toFin (ht x hx)).2.2.1
    obtain ⟨-, hfirst, -, -, hstart⟩ := hall b.toFin (hparts b List.mem_cons_self)
    have htext : (Word.spelling ⟨_, _, hstart hb, hothers⟩).text = b :: t := by
      rw [← hself, hchars]
      exact congrArg ofChars (List.append_nil _)
    exact ⟨_, _, _, rfl, htext, rfl, htext,
      ⟨hfirst, hstart hb⟩, by rw [Bytes.toLower, hlower, hself]⟩

/-- The text stands in the source at an offset, and its tokens in the statement at place `i`. -/
structure StandsAt (s : Passage) (offset : Nat) (text : Bytes) (i : Nat) (ts : List Token) :
    Prop where
  source : ∃ front back, s.src = front ++ text ++ back ∧ front.length = offset
  tokens : ∃ rest, s.span.tokens.drop i = ts ++ rest

namespace StandsAt

variable {s : Passage} {text text' : Bytes} {n i : Nat} {t : Token} {ts us : List Token}

theorem left (h : StandsAt s n (text ++ text') i (ts ++ us)) : StandsAt s n text i ts := by
  obtain ⟨⟨front, back, hsrc, rfl⟩, rest, hrest⟩ := h
  exact ⟨⟨front, text' ++ back, by simp [hsrc], rfl⟩, us ++ rest, by rw [hrest, List.append_assoc]⟩

theorem right (h : StandsAt s n (text ++ text') i (ts ++ us)) :
    StandsAt s (n + text.length) text' (i + ts.length) us := by
  obtain ⟨⟨front, back, hsrc, rfl⟩, rest, hrest⟩ := h
  refine ⟨⟨front ++ text, back, by simp [hsrc], by simp⟩, rest, ?_⟩
  rw [← List.drop_drop, hrest, List.append_assoc, List.drop_left]

theorem token_eq (h : StandsAt s n text i (t :: ts)) : i < s.length ∧ s.token i = t := by
  obtain ⟨-, rest, hrest⟩ := h
  have hlt : i < s.length := by
    by_contra hle
    rw [List.drop_eq_nil_of_le (not_lt.1 hle)] at hrest
    cases hrest
  rw [s.drop_eq_cons hlt] at hrest
  exact ⟨hlt, (List.cons.inj hrest).1⟩

theorem slice_eq (h : StandsAt s n text i ts) : slice s.src n (n + text.length) = text := by
  obtain ⟨⟨front, back, hsrc, rfl⟩, -⟩ := h
  rw [hsrc, slice, Nat.add_sub_cancel_left, List.append_assoc, List.drop_left, List.take_left]

/-- A bracket is closed after a well-nested stream. -/
theorem groupEnd_eq {o c : Token} {inner : List Token} (h : StandsAt s n text i (o :: inner ++ [c]))
    (hinner : WellNested inner) (hc : c.kind.isCloser) :
    s.groupEnd i = i + (o :: inner ++ [c]).length := by
  obtain ⟨-, rest, hrest⟩ := h
  have htail : s.span.tokens.drop (i + 1) = inner ++ c :: rest := by
    rw [← List.drop_drop, hrest]
    simp
  rw [Passage.groupEnd, htail, Cursor.balancedLength_enclosed (hinner.nesting_eq []) hc,
    List.cons_append, List.length_cons, List.length_append, List.length_singleton]
  omega

end StandsAt

/-- What may follow the text of a type inside of another. -/
def EndsType (c : Char) : Prop := c ∈ [' ', ',', '>']

instance : DecidablePred EndsType := fun c => inferInstanceAs (Decidable (c ∈ [' ', ',', '>']))

/-- The text of the type is read as the type wherever it stands. -/
structure RoundTrips (bars : Bool) (k : Kind) : Prop where
  head : ∃ c t, k.render = byte c :: t ∧ c.toNat < 0x80 ∧ c ∉ ['-', '=']
  read (p : Position) : ∃ ts, Segment EndsType p k.render ts ∧
    ∀ s i, s.Sound → StandsAt s p.offset k.render i ts → ReadAs s bars k i (i + ts.length)

theorem endsWord_of_endsType (h : EndsType c) : Lexeme.EndsWord c := by
  have hall : ∀ c ∈ [' ', ',', '>'], Lexeme.EndsWord c := forall_mem_of_all (by decide)
  exact hall c h

theorem render_ofLiteral (s : Bytes) : (Kind.ofLiteral s).render = s := by
  rw [Kind.ofLiteral, render, if_pos (beq_self_eq_true _)]

theorem ofChars_cons (hc : c.toNat < 0x80) (cs : List Char) :
    ofChars (c :: cs) = byte c :: ofChars cs := by
  rw [ofChars, List.flatMap_cons, encode_of_ascii hc]
  rfl

theorem roundTrips_number (n : Number) : RoundTrips false (.ofLiteral (ofChars n.chars)) := by
  obtain ⟨hascii, hne⟩ : n.whole.first.toNat < 0x80 ∧ n.whole.first ∉ ['-', '='] :=
    Lexeme.forall_digit (P := fun c => c.toNat < 0x80 ∧ c ∉ ['-', '=']) (by decide) n.whole.isDigit
  have hkind : n.suffix.kind = .number ∨ n.suffix.kind = .duration := by
    cases n.suffix <;> simp [Suffix.kind]
  constructor
  · rw [render_ofLiteral]
    exact ⟨_, _, ofChars_cons hascii _, hascii, hne⟩
  · intro p
    rw [render_ofLiteral]
    have hword := n.spelling.segment_word p rfl (.inl n.whole.isDigit)
    refine ⟨_, hword.mono fun c => endsWord_of_endsType, fun s i _ hs => ?_⟩
    obtain ⟨hi, htoken⟩ := hs.token_eq
    exact readAs_number hi (by rwa [htoken]) (by rw [htoken]; rfl)

/-- Printable ASCII is quoted with nothing but the quote and the backslash escaped. -/
theorem quote_printable (h : ∀ b ∈ s, 0x20 ≤ b ∧ b ≤ 0x7E) :
    quote s = ofChars (Quoted.chars ⟨'"', chars s, by decide⟩) := by
  have hall : ∀ i : Fin 256, 0x20 ≤ UInt8.ofFin i ∧ UInt8.ofFin i ≤ 0x7E → UInt8.ofFin i < 0x80 ∧
      AccessLayer.Quoted.escapeRune '"' (Utf8.single (UInt8.ofFin i)) =
        ofChars (Quoted.escape '"' (Utf8.single (UInt8.ofFin i)).char) := by
    decide +kernel
  have hbyte : ∀ b : UInt8, 0x20 ≤ b ∧ b ≤ 0x7E → b < 0x80 ∧
      AccessLayer.Quoted.escapeRune '"' (Utf8.single b) =
      ofChars (Quoted.escape '"' (Utf8.single b).char) := fun b => hall b.toFin
  have hbody : (runes s).flatMap (AccessLayer.Quoted.escapeRune '"') =
      ofChars ((chars s).flatMap (Quoted.escape '"')) := by
    induction s with
    | nil => rfl
    | cons b s ih =>
      rw [List.forall_mem_cons] at h
      obtain ⟨hascii, hescape⟩ := hbyte b h.1
      rw [chars, runes_cons_of_ascii hascii, List.flatMap_cons, hescape, ih h.2, List.map_cons,
        List.flatMap_cons, ofChars, ofChars, ofChars, List.flatMap_append]
      rfl
  have hmark : ('"' : Char).toNat < 0x80 := by decide
  rw [quote, hbody, Quoted.chars, Quoted.bodyChars, ofChars_cons hmark, ofChars, ofChars,
    List.flatMap_append]
  rfl

theorem roundTrips_string (h : ∀ b ∈ s, 0x20 ≤ b ∧ b ≤ 0x7E) :
    RoundTrips false (.ofLiteral (quote s)) := by
  have hascii : ∀ b ∈ s, b < 0x80 := fun b hb => UInt8.lt_of_le_of_lt (h b hb).2 (by decide)
  have hcontent := ofChars_chars hascii
  constructor
  · have hmark : ('"' : Char).toNat < 0x80 := by decide
    rw [render_ofLiteral, quote_printable h]
    exact ⟨'"', _, ofChars_cons hmark _, hmark, by decide⟩
  · intro p
    rw [render_ofLiteral]
    have hstring := Quoted.segment ⟨'"', chars s, by decide⟩ p
    rw [Quoted.spelling, Spelling.text] at hstring
    simp only [hcontent, ← quote_printable h] at hstring
    refine ⟨_, hstring.mono fun _ _ => trivial, fun s i _ hs => ?_⟩
    obtain ⟨hi, htoken⟩ := hs.token_eq
    exact readAs_string hi (by rw [htoken]) (by rw [htoken])

/-- A text between brackets is read as it is. -/
theorem roundTrips_group {o c stop : Token} {inner : List Token}
    (h : tokenize s = .ok (o :: inner ++ [c, stop]))
    (ho : o.kind = .lbrace ∨ o.kind = .lbracket) (hc : o.kind.closer? = some c.kind)
    (hinner : WellNested inner) (hstart : o.start.offset = 0) (hstop : c.stop = s.length) :
    RoundTrips false (.ofLiteral s) := by
  obtain ⟨hopener, -, -, hcloser⟩ := TokenKind.brackets hc
  obtain ⟨r, rs, hfirst, hspace, hr⟩ := exists_opener h (by simp) hopener hstart
  have hend : c.stop = (Position.start.after (runes s)).offset := by
    rw [Position.after_offset, ofRunes_runes, hstop]
    exact (Nat.zero_add _).symm
  obtain ⟨w, x, hlast, hx⟩ :=
    exists_closer (fun x hx => bytes_ne_nil_of_mem_runes hx) h (by simp) hcloser hend
  have htrim := trim_eq_self hfirst hspace hlast (closer_ends hx hcloser).1.2
  constructor
  · have hmem : r.char ∈ ['\x7b', '['] := by
      rcases ho with ho | ho <;> rw [ho] at hr <;> unfold Lexeme.punctuation? at hr <;>
        split at hr <;> simp_all
    have hall : ∀ c ∈ ['\x7b', '['], c.toNat < 0x80 ∧ c ∉ ['-', '='] ∧ c ≠ replacementChar :=
      forall_mem_of_all (by decide)
    obtain ⟨hascii, hne, hvalid⟩ := hall r.char hmem
    refine ⟨r.char, ofRunes rs, ?_, hascii, hne⟩
    have hchar := (readable_runes s).eq_ofChar (by rw [hfirst]; exact List.mem_cons_self) hvalid
    have hbytes : r.bytes = [byte r.char] := by
      rw [← encode_of_ascii hascii]
      exact congrArg Rune.bytes hchar
    rw [render_ofLiteral, ← ofRunes_runes s, hfirst, ofRunes_cons, hbytes]
    rfl
  · intro p
    rw [render_ofLiteral]
    obtain ⟨own, c', hsegment, hown, hc'⟩ := segment_closed h hcloser hstop p
    cases hown with
    | @cons _ o' _ inner' ho' hinner' =>
      refine ⟨_, hsegment.mono fun _ _ => trivial, fun q i hq hs => ?_⟩
      obtain ⟨hi, hopen⟩ := hs.token_eq
      have hend := hs.groupEnd_eq (hinner.congr (Fragment.map_kind_shifted hinner'))
        (by rw [hc'.kind, hcloser])
      have hclose : q.token (i + (o' :: inner').length) = c' := by
        rw [← List.append_nil s] at hs
        exact hs.right.token_eq.2
      refine readAs_group hq hi (by rwa [hopen, ho'.kind]) hend ?_
      rw [Passage.text, hopen, List.length_append, List.length_singleton, ← Nat.add_assoc,
        Nat.add_sub_cancel, hclose,
        ho'.start, hc'.stop, hstart, hstop, Nat.zero_add, Nat.add_comm s.length, hs.slice_eq, htrim]

theorem LiteralText.roundTrips (h : LiteralText s) : RoundTrips false (.ofLiteral s) := by
  cases h with
  | number n => exact roundTrips_number n
  | string h => exact roundTrips_string h
  | group h ho hc hinner hstart hstop => exact roundTrips_group h ho hc hinner hstart hstop

/-! ## Lists of types -/

theorem after_runes_offset (p : Position) (s : Bytes) :
    (p.after (runes s)).offset = p.offset + s.length := by
  rw [Position.after_offset, ofRunes_runes]

/-- The text between two types: it starts with a character that ends a type, and is read as one
token. -/
structure IsSeparator (sep : Token → Prop) (text : Bytes) : Prop where
  head : ∃ c t, text = byte c :: t ∧ c.toNat < 0x80 ∧ EndsType c
  read (p : Position) : ∃ t, Segment (fun _ => True) p text [t] ∧ sep t

theorem isSeparator_comma : IsSeparator (·.kind = .comma) ", " := by
  refine ⟨⟨',', _, rfl, by decide, by decide⟩, fun p => ?_⟩
  have hcomma := segment_symbol p (c := ',') rfl (by decide)
  exact ⟨_, hcomma.append (c := ' ') (by decide) (by decide) (segment_blank _), rfl⟩

theorem isSeparator_bar : IsSeparator (·.isOperator "|" = true) " | " := by
  refine ⟨⟨' ', _, rfl, by decide, by decide⟩, fun p => ?_⟩
  have hbar := (segment_blank p).append (c := '|') (by decide) trivial
    (segment_symbol _ (c := '|') rfl (by decide))
  exact ⟨_, hbar.append (c := ' ') (by decide) (by decide) (segment_blank _), rfl⟩

/-- The text of several types starts with the first of them. -/
theorem RoundTrips.head_join (h : RoundTrips bars k) (text : Bytes) (ks : List Kind) :
    ∃ c t, join text (renderAll (k :: ks)) = byte c :: t ∧ c.toNat < 0x80 ∧ c ∉ ['-', '='] := by
  obtain ⟨c, t, hrender, hc⟩ := h.head
  cases ks with
  | nil => exact ⟨c, t, hrender, hc⟩
  | cons k' ks =>
    refine ⟨c, t ++ text ++ join text (renderAll (k' :: ks)), ?_, hc⟩
    rw [← List.cons_append, ← List.cons_append, ← hrender]
    rfl

/-- The text of several types divided by a separator. -/
theorem exists_dividedBy {sep : Token → Prop} {text : Bytes} (hsep : IsSeparator sep text)
    (h : ∀ x ∈ k :: ks, RoundTrips bars x) (p : Position) :
    ∃ ts, Segment EndsType p (join text (renderAll (k :: ks))) ts ∧
      ∀ s i, s.Sound → StandsAt s p.offset (join text (renderAll (k :: ks))) i ts →
        DividedBy s sep bars (k :: ks) i (i + ts.length) := by
  induction ks generalizing k p with
  | nil =>
    obtain ⟨ts, hsegment, hread⟩ := (h k List.mem_cons_self).read p
    exact ⟨ts, hsegment, fun s i hs hat => .one (hread s i hs hat)⟩
  | cons k' ks ih =>
    rw [List.forall_mem_cons] at h
    have hjoin : join text (renderAll (k :: k' :: ks)) =
        k.render ++ text ++ join text (renderAll (k' :: ks)) := rfl
    obtain ⟨ts, hsegment, hread⟩ := h.1.read p
    obtain ⟨c, rest, rfl, hascii, hends⟩ := hsep.head
    obtain ⟨t, hmark, ht⟩ := hsep.read (p.after (runes k.render))
    have hfront := hsegment.append hascii hends hmark
    obtain ⟨us, hothers, hreads⟩ := ih h.2 (p.after (runes (k.render ++ byte c :: rest)))
    obtain ⟨c', rest', hhead, hascii', -⟩ :=
      (h.2 k' List.mem_cons_self).head_join (byte c :: rest) ks
    refine ⟨ts ++ [t] ++ us, ?_, fun s i hs hat => ?_⟩
    · rw [hhead] at hothers
      rw [hjoin, hhead]
      exact hfront.append hascii' trivial hothers
    · rw [hjoin] at hat
      have hnext := hat.right
      rw [← after_runes_offset, List.length_append, List.length_singleton, ← Nat.add_assoc] at hnext
      rw [List.length_append, List.length_append, List.length_singleton, ← Nat.add_assoc,
        ← Nat.add_assoc]
      exact .cons (hread s i hs hat.left.left) (by rwa [hat.left.right.token_eq.2])
        (hreads s _ hs hnext)

/-- Members of an alternation, or the one type that stands alone. -/
theorem exists_alternation (h : ∀ x ∈ k :: ks, RoundTrips false x) (p : Position) :
    ∃ ts, Segment EndsType p (join " | " (renderAll (k :: ks))) ts ∧
      ∀ s i, s.Sound → StandsAt s p.offset (join " | " (renderAll (k :: ks))) i ts →
        ReadAs s true (alternationOf k ks) i (i + ts.length) := by
  obtain ⟨ts, hsegment, hread⟩ := exists_dividedBy isSeparator_bar h p
  exact ⟨ts, hsegment, fun s i hs hat => readAs_alternationOf (hread s i hs hat)⟩

/-! ## Types -/

theorem render_either (args : List Kind) :
    (Kind.mk eitherName args []).render = join " | " (renderAll args) := by
  rw [render, if_neg (by decide), if_pos (by decide)]

/-- What stands between the arguments of a name. -/
def separator (n : Bytes) : Bytes := if n == recordName then " | " else ", "

theorem render_named (h : n ∉ [eitherName, literalName]) (args : List Kind) :
    (Kind.mk n args []).render = if args.isEmpty then n else
      n ++ "<" ++ join (separator n) (renderAll args) ++ ">" := by
  simp only [List.mem_cons, List.not_mem_nil, or_false, not_or] at h
  rw [render, if_neg (by simpa using h.2), if_neg (by simpa using h.1), separator]

/-- The text of the arguments of a name is read as the arguments, which a record takes out of an
alternation. -/
theorem exists_arguments (h : ∀ x ∈ k :: ks, RoundTrips (n != recordName) x)
    (hk : n = recordName → k.name ≠ eitherName) (p : Position) :
    ∃ ts, Segment EndsType p (join (separator n) (renderAll (k :: ks))) ts ∧
      ∀ s i, s.Sound → StandsAt s p.offset (join (separator n) (renderAll (k :: ks))) i ts →
        ∃ args, DividedBy s (·.kind = .comma) true args i (i + ts.length) ∧
          Kind.spread n args = k :: ks := by
  by_cases hn : n = recordName
  · subst hn
    obtain ⟨ts, hsegment, hread⟩ := exists_alternation h p
    exact ⟨ts, hsegment, fun s i hs hat =>
      ⟨_, .one (hread s i hs hat), spread_alternationOf (hk rfl) ks⟩⟩
  · rw [bne_iff_ne.2 hn] at h
    rw [separator, if_neg (by simpa using hn)]
    obtain ⟨ts, hsegment, hread⟩ := exists_dividedBy isSeparator_comma h p
    exact ⟨ts, hsegment, fun s i hs hat => ⟨_, hread s i hs hat, spread_of_ne hn _⟩⟩

theorem roundTrips_named {args : List Kind} (hn : isTypeName n)
    (h : ∀ k ∈ args, RoundTrips (n != recordName) k)
    (hargs : n = recordName → ∀ k ∈ args, k.name ≠ eitherName) :
    RoundTrips false (.mk n args []) := by
  obtain ⟨q, c, cs, hq, htext, hkind, hliteral, ⟨hascii, hstart⟩, hlower⟩ := exists_nameSpelling hn
  have hfirst : n = byte c :: ofChars cs := by rw [← htext, Spelling.text, hq, ofChars_cons hascii]
  have hne : c ∉ ['-', '='] := by
    have hall : ∀ c ∈ ['-', '='], Lexeme.isIdentStart c = false := forall_mem_of_all (by decide)
    exact fun hc => Bool.false_ne_true ((hall c hc).symm.trans hstart)
  have hname : Bytes.toLower q.literal = n := by rw [hliteral, hlower]
  have hword : ∀ p, Segment Lexeme.EndsWord p n
      [⟨q.kind, q.literal, p, (p.after (runes n)).offset⟩] := by
    intro p
    have := q.segment_word p hq (.inr hstart)
    rwa [htext] at this
  have hrender := render_named (notMem_of_isTypeName hn) args
  cases args with
  | nil =>
    rw [List.isEmpty_nil, if_pos rfl] at hrender
    refine ⟨⟨c, _, hrender.trans hfirst, hascii, hne⟩, fun p => ?_⟩
    rw [hrender]
    refine ⟨_, (hword p).mono fun c => endsWord_of_endsType, fun s i _ hat => ?_⟩
    obtain ⟨hi, htoken⟩ := hat.token_eq
    exact readAs_name hi (by rw [htoken, hkind]) (by rw [htoken, hname])
  | cons k ks =>
    rw [List.isEmpty_cons, if_neg Bool.false_ne_true] at hrender
    obtain ⟨c', t', hjoin, hascii', hne'⟩ := (h k List.mem_cons_self).head_join (separator n) ks
    refine ⟨⟨c, _, hrender.trans (by rw [hfirst]; rfl), hascii, hne⟩, fun p => ?_⟩
    obtain ⟨ts, hsegment, hread⟩ := exists_arguments h (fun hrec => hargs hrec k List.mem_cons_self)
      (p.after (runes (n ++ "<")))
    rw [hjoin] at hsegment
    have hopened := (hword p).append (c := '<') (by decide) (by decide)
      (segment_symbol _ (c := '<') rfl (by decide))
    have hfilled := hopened.append hascii' (endsSymbol_lt hne') hsegment
    have hclosed := hfilled.append (c := '>') (by decide) (by decide)
      (segment_symbol _ (c := '>') rfl (by decide))
    have hgt : ∀ c ∈ [' ', ',', '>'], EndsSymbol '>' c := forall_mem_of_all (by decide)
    rw [hrender, hjoin]
    refine ⟨_, hclosed.mono hgt, fun s i hs hat => ?_⟩
    obtain ⟨args, hargs, hspread⟩ :=
      hread s _ hs (by rw [hjoin, after_runes_offset]; exact hat.left.right)
    have hfirst := hat.left.left.left.token_eq.2
    have hsecond : s.token (i + 1) = _ := hat.left.left.right.token_eq.2
    obtain ⟨hlen, hlast⟩ := hat.right.token_eq
    rw [List.length_append, ← Nat.add_assoc] at hlen hlast
    rw [List.length_append, List.length_singleton, ← Nat.add_assoc, List.length_append,
      ← Nat.add_assoc]
    exact readAs_angled (by rw [hfirst, hkind]) (by rw [hfirst, hname]) (by rw [hsecond]) hargs hlen
      (by rw [hlast])
      hspread

theorem Writable.name_ne (h : Writable false k) : k.name ≠ eitherName := by
  cases h with
  | named hn _ => exact fun heq => notMem_of_isTypeName hn (List.mem_cons.2 (.inl heq))
  | literal h =>
    show literalName ≠ eitherName
    decide

theorem RoundTrips.alternation (h : RoundTrips false k) : RoundTrips true k := by
  refine ⟨h.head, fun p => ?_⟩
  obtain ⟨ts, hsegment, hread⟩ := h.read p
  exact ⟨ts, hsegment, fun s i hs hat => readAs_alternationOf (.one (hread s i hs hat))⟩

/-- The text of a type is read as the type. -/
theorem Writable.roundTrips (h : Writable bars k) : RoundTrips bars k := by
  have hlift : ∀ {bars : Bool} {k : Kind}, RoundTrips false k → RoundTrips bars k := by
    intro bars k hk
    cases bars with
    | false => exact hk
    | true => exact hk.alternation
  induction h with
  | @named bars n args hn h ih =>
    refine hlift (roundTrips_named hn ih fun hrec k hk => ?_)
    have := h k hk
    rw [hrec, bne_self_eq_false] at this
    exact this.name_ne
  | literal h => exact hlift h.roundTrips
  | @either args h hlen ih =>
    rcases args with _ | ⟨k, _ | ⟨k', ks⟩⟩
    · simp at hlen
    · simp at hlen
    · obtain hhead := (ih k List.mem_cons_self).head_join " | " (k' :: ks)
      refine ⟨by rwa [render_either], fun p => ?_⟩
      rw [render_either]
      exact exists_alternation ih p

/-- Reading the text of a type gives the type, and leaves no token. -/
theorem kind_render {k : Kind} (h : Writable true k) :
    ∃ ts stop c, tokenize k.render = .ok (ts ++ [stop]) ∧ stop.kind = .endOfInput ∧
      kind (Cursor.ofSpan k.render ⟨ts, stop⟩) = .ok (k, c) ∧ c.atEnd = true := by
  obtain ⟨ts, hsegment, hread⟩ := h.roundTrips.read .start
  have htokens := hsegment [] _ (by simp) (by rw [tokensFrom])
  rw [List.append_nil] at htokens
  obtain ⟨own, hown, -, horder⟩ := tokenize_inOrder htokens
  obtain ⟨rfl, -⟩ := List.append_inj' hown rfl
  let s : Passage := ⟨k.render, ⟨ts, Token.endAt (Position.start.after (runes k.render))⟩⟩
  have hstands : StandsAt s 0 k.render 0 ts := ⟨⟨[], [], by simp [s], rfl⟩, [], by simp [s]⟩
  have hends : EndsReading true (s.token (0 + ts.length)) := by
    have hstop : s.token (0 + ts.length) = s.span.stop := s.token_of_le (Nat.zero_add _).ge
    rw [hstop]
    exact ⟨by simp [s, Token.endAt], fun _ => rfl⟩
  have hkind := (hread s 0 ⟨horder, _, rfl⟩ hstands).read ts.length le_rfl hends
  rw [Nat.zero_add, s.cursor_zero] at hkind
  exact ⟨ts, _, _, htokens, rfl, hkind, by simp [s, Passage.length]⟩

/-- The brackets around a pair of braces are the text of a literal. -/
theorem literalText_brackets : LiteralText "[\x7b\x7d]" := by
  have htokens : tokenize "[\x7b\x7d]" = .ok (⟨.lbracket, "[", ⟨0, 1, 1⟩, 1⟩ ::
      ([⟨.lbrace, "\x7b", ⟨1, 1, 2⟩, 2⟩] ++ [⟨.rbrace, "\x7d", ⟨2, 1, 3⟩, 3⟩]) ++
      [⟨.rbracket, "]", ⟨3, 1, 4⟩, 4⟩, Token.endAt ⟨4, 1, 5⟩]) := by decide +kernel
  exact .group htokens (.inr rfl) rfl (.group rfl .nil .nil) rfl rfl

/-- The type of `array<record<user | post> | "it's" | 1h30m | [{}], 10>`. -/
def nestedKind : Kind :=
  .mk "array" [
    .mk eitherName [.mk recordName [.mk "user" [] [], .mk "post" [] []] [],
      .ofLiteral (quote "it's"), .ofLiteral "1h30m", .ofLiteral "[\x7b\x7d]"] [],
    .ofLiteral "10"] []

theorem writable_nestedKind : Writable true nestedKind := by
  have hname : ∀ {bars : Bool} {n : Bytes}, isTypeName n = true → Writable bars (.mk n [] []) :=
    fun hn => .named hn (by simp)
  have hrecord : Writable false (.mk recordName [.mk "user" [] [], .mk "post" [] []] []) :=
    .named (by decide) (List.forall_mem_cons.2
      ⟨hname (by decide), List.forall_mem_singleton.2 (hname (by decide))⟩)
  have hstring : LiteralText (quote "it's") := .string (forall_mem_of_all (by decide))
  have hduration : LiteralText "1h30m" := .number ⟨⟨'1', [], rfl, rfl⟩, none, none,
    .units ⟨['h'], by decide⟩ [(⟨'3', ['0'], rfl, rfl⟩, ⟨['m'], by decide⟩)]⟩
  have hnumber : LiteralText "10" := .number ⟨⟨'1', ['0'], rfl, rfl⟩, none, none, .none⟩
  refine .named (by decide) (List.forall_mem_cons.2
    ⟨.either ?_ (by decide), List.forall_mem_singleton.2 (.literal hnumber)⟩)
  simp only [List.forall_mem_cons, List.not_mem_nil, false_imp_iff, implies_true, and_true]
  exact ⟨hrecord, .literal hstring, .literal hduration, .literal literalText_brackets⟩

theorem kind_render_nested :
    nestedKind.render = "array<record<user | post> | \"it's\" | 1h30m | [\x7b\x7d], 10>" ∧
      ∃ ts stop c, tokenize nestedKind.render = .ok (ts ++ [stop]) ∧ stop.kind = .endOfInput ∧
        kind (Cursor.ofSpan nestedKind.render ⟨ts, stop⟩) = .ok (nestedKind, c) ∧ c.atEnd = true :=
  ⟨by decide +kernel, kind_render writable_nestedKind⟩

end AccessLayer.Surql
