import AccessLayer.Proofs.Surql.Definitions

/-!
# Quoted names

A name between backquotes is one token whatever it holds, and the token is the name without the
quotes. With that the quotes are forgotten: where a definition may go on with a keyword, a quoted
name that is spelled like it is taken for the keyword.

* `Fragment.quoted`: a quoted name is one token.
* `Definition.modifiers_inv`, `Definition.event_inv`: what the header of a definition took.
* `parse_quoted_iff`: the three of them.
-/

namespace AccessLayer.Surql

open Definition
open Token (sameWord)
open Passage Lexeme

/-! ## The token of a quoted name -/

/-- A name between backquotes. -/
def backquoted (n : Bytes) : Bytes := "`" ++ n ++ "`"

theorem runes_backquoted (n : Bytes) :
    Bytes.runes (backquoted n) = Utf8.single 0x60 :: (Bytes.runes n ++ [Utf8.single 0x60]) := by
  have hbytes : backquoted n = 0x60 :: (n ++ [0x60]) := rfl
  rw [hbytes, Bytes.runes_cons_of_ascii (by decide), Bytes.runes_append n [] (by decide),
    Bytes.runes_cons_of_ascii (by decide)]
  rfl

theorem gap_backquoted (n : Bytes) : gap (Bytes.runes (backquoted n)) = .ok none := by
  rw [runes_backquoted]
  rfl

/-- A text without the byte of the backquote has no such character. -/
theorem char_ne_backquote {n : Bytes} (h : 0x60 ∉ n) : ∀ r ∈ Bytes.runes n, (r.char != '`') := by
  intro r hr
  rw [bne_iff_ne]
  intro hchar
  have hrune := (readable_runes n).eq_ofChar hr (by rw [hchar]; decide)
  have hbyte : (0x60 : UInt8) ∈ r.bytes := by
    rw [hrune, hchar]
    decide
  have hmem : (0x60 : UInt8) ∈ Bytes.ofRunes (Bytes.runes n) := List.mem_flatMap.2 ⟨r, hr, hbyte⟩
  rw [Bytes.ofRunes_runes] at hmem
  exact h hmem

theorem lexeme_backquoted {n : Bytes} (h : 0x60 ∉ n) :
    lexeme (Bytes.runes (backquoted n)) = .ok ⟨.ident, n, Bytes.runes (backquoted n), []⟩ := by
  have hspan : spanChars (· != '`') (Bytes.runes n ++ [Utf8.single 0x60]) =
      (Bytes.runes n, [Utf8.single 0x60]) := by
    rw [spanChars, List.takeWhile_append_of_pos (char_ne_backquote h),
      List.dropWhile_append_of_pos (char_ne_backquote h)]
    exact Prod.ext (List.append_nil _) rfl
  rw [runes_backquoted]
  show quotedIdent '`' (Utf8.single 0x60 :: (Bytes.runes n ++ [Utf8.single 0x60])) = _
  rw [quotedIdent, hspan]
  show Except.ok (Lexeme.mk .ident (Bytes.ofRunes (Bytes.runes n)) _ _) = _
  rw [Bytes.ofRunes_runes]
  rfl

/-- A quoted name as a text. -/
def Fragment.quoted (n : Bytes) (h : 0x60 ∉ n) : Fragment :=
  .ofLexeme (gap_backquoted n) (lexeme_backquoted h) ident_plain

theorem Fragment.isToken_quoted (n : Bytes) (h : 0x60 ∉ n) :
    (Fragment.quoted n h).IsToken .ident n :=
  ⟨.start, rfl⟩

/-! ## Readers at a quoted name -/

variable {s : Passage} {m : Nat}

theorem Passage.Laid.eq_length (h : s.Laid m []) : m = s.length := by
  cases h
  rfl

namespace Definition

/-- Where no `NOT` can follow, the modifiers are the word `OVERWRITE` or nothing. -/
theorem modifiers_inv (hnot : (s.token (m + 1)).isKeyword "NOT" = false) (hm : m < s.length)
    {u : Unit} {c : Cursor} (h : modifiers (s.cursor m) = .ok (u, c)) :
    ((s.token m).isKeyword "OVERWRITE" ∧ c = s.cursor (m + 1)) ∨
      ((∀ w ∈ (["OVERWRITE", "IF"] : List Bytes), (s.token m).isKeyword w = false) ∧
        c = s.cursor m) := by
  rw [modifiers] at h
  cases hover : (s.token m).isKeyword "OVERWRITE" with
  | true =>
    rw [Reader.bind_ok (acceptKeyword_true hm hover), if_pos rfl] at h
    cases h
    exact .inl ⟨rfl, rfl⟩
  | false =>
    rw [Reader.bind_ok (acceptKeyword_false hover), if_neg (by simp)] at h
    cases hif : (s.token m).isKeyword "IF" with
    | true =>
      rw [Reader.bind_ok (acceptKeyword_true hm hif), if_pos rfl, Reader.expectKeyword, bind_assoc,
        Reader.bind_ok peek_ok, hnot, if_neg (by simp)] at h
      cases h
    | false =>
      rw [Reader.bind_ok (acceptKeyword_false hif), if_neg (by simp)] at h
      cases h
      exact .inr ⟨by simp [hover, hif], rfl⟩

/-- A field has a name before `ON`. -/
theorem fieldName_on (hon : (s.token m).isKeyword "ON") (hm : m < s.length) {x : Bytes}
    {c : Cursor} : fieldName (s.cursor m) ≠ .ok (x, c) := by
  intro h
  have hown := takeWhile_on (m := m) (n := 0) (by omega) hon hm
  have hne : ((s.cursor m).rest.length == 0) = false := by
    rw [length_rest, beq_eq_false_iff_ne]
    omega
  rw [fieldName, Reader.bind_ok (Reader.get_ok _),
    hown, List.take_zero, List.length_nil, BEq.comm, hne, if_neg (by simp)] at h
  cases h

/-- What every step keeps is kept up to the end. -/
theorem untilEnd_keeps {σ : Type} {step : σ → Reader σ} {P : σ → Prop}
    (hstep : ∀ x y c c', step x c = .ok (y, c') → P x → P y) {fuel : Nat} {x y : σ} {c c' : Cursor}
    (h : untilEnd step fuel x c = .ok (y, c')) (hx : P x) : P y := by
  induction fuel generalizing x c with
  | zero => cases h
  | succ fuel ih =>
    rw [untilEnd] at h
    obtain ⟨c₁, c₂, hget, h⟩ := Reader.bind_eq_ok.1 h
    split at h
    · cases h
      exact hx
    · obtain ⟨z, c₃, hz, h⟩ := Reader.bind_eq_ok.1 h
      exact ih h (hstep _ _ _ _ hz hx)

/-- The only action of an event is read up to the end. -/
theorem eventClause_then (hm : m < s.length) (hthen : (s.token m).isKeyword Keyword.then.text)
    (hs : s.Sound)
    {f : Fragment} (h : s.Laid (m + 1) [f]) {v : Value} (hf : f.IsExpr v) (hv : v.isPlain)
    (d : EventDef) : ∃ v', eventClause d (s.cursor m) =
      .ok ({ d with actions := d.actions ++ [v'] }, s.cursor s.length) := by
  have hend := h.head.2.eq_length
  have hstop := hs.kind_end hend.ge
  obtain ⟨v', -, hread⟩ := h.value_eq hf hv (.inl hstop)
  refine ⟨v', ?_⟩
  have hwhen : (s.token m).isKeyword "WHEN" = false := Keyword.isKeyword_eq hthen .when
  have haccept : Reader.acceptKeyword "THEN" (s.cursor m) = .ok (true, s.cursor (m + 1)) :=
    acceptKeyword_true hm hthen
  rw [eventClause, Reader.bind_ok (acceptKeyword_false hwhen), if_neg (by simp),
    Reader.bind_ok haccept, if_pos rfl,
    Reader.bind_ok (Reader.get_ok _),
    values, bind_assoc, Reader.bind_ok hread, bind_assoc, Reader.bind_ok (check_ok .comma), hstop,
    if_neg (by decide), hend]
  rfl

theorem eventClause_keeps {n t : Bytes} (d d' : EventDef) (c c' : Cursor)
    (h : eventClause d c = .ok (d', c')) (hd : d.name = n ∧ d.table = t) :
    d'.name = n ∧ d'.table = t := by
  rw [eventClause] at h
  obtain ⟨_, _, -, h⟩ := Reader.bind_eq_ok.1 h
  split at h
  · obtain ⟨_, _, -, h⟩ := Reader.bind_eq_ok.1 h
    cases h
    exact hd
  obtain ⟨_, _, -, h⟩ := Reader.bind_eq_ok.1 h
  split at h
  · obtain ⟨_, _, -, h⟩ := Reader.bind_eq_ok.1 h
    obtain ⟨_, _, -, h⟩ := Reader.bind_eq_ok.1 h
    cases h
    exact hd
  obtain ⟨_, _, -, h⟩ := Reader.bind_eq_ok.1 h
  split at h
  all_goals
    obtain ⟨_, _, -, h⟩ := Reader.bind_eq_ok.1 h
    cases h
    exact hd

/-- An event has the name and the table of its header. -/
theorem event_inv {pos : Nat} {c c' : Cursor} {d : EventDef} (h : event pos c = .ok (d, c')) :
    ∃ u c₁ c₂ u' c₃ c₄, modifiers c = .ok (u, c₁) ∧ Definition.name "event" c₁ = .ok (d.name, c₂) ∧
      Reader.expectKeyword "ON" c₂ = .ok (u', c₃) ∧ tableName c₃ = .ok (d.table, c₄) := by
  obtain ⟨u, c₁, hmodifiers, h⟩ := Reader.bind_eq_ok.1 h
  obtain ⟨x, c₂, hname, h⟩ := Reader.bind_eq_ok.1 h
  obtain ⟨u', c₃, hon, h⟩ := Reader.bind_eq_ok.1 h
  obtain ⟨y, c₄, htable, h⟩ := Reader.bind_eq_ok.1 h
  obtain ⟨_, _, -, h⟩ := Reader.bind_eq_ok.1 h
  obtain ⟨rfl, rfl⟩ := untilEnd_keeps eventClause_keeps h ⟨rfl, rfl⟩
  exact ⟨u, c₁, c₂, u', c₃, c₄, hmodifiers, hname, hon, htable⟩

end Definition

/-! ## Definitions with quoted names -/

/-- A field of a table, both quoted, and its type. -/
def quotedField (n t k : Bytes) : Bytes :=
  Bytes.join " " ["DEFINE", "FIELD", backquoted n, "ON", "TABLE", backquoted t, "TYPE", k]

def quotedTable (t : Bytes) : Bytes := Bytes.join " " ["DEFINE", "TABLE", backquoted t]

/-- An event of a table, both quoted. -/
def quotedEvent (n t : Bytes) : Bytes :=
  Bytes.join " " ["DEFINE", "EVENT", backquoted n, "ON", backquoted t, "THEN", "\x7b \x7d"]

/-- Empty braces are read as a value. -/
theorem exists_emptyBody :
    ∃ (f : Fragment) (v : Value), f.src = "\x7b \x7d" ∧ f.IsExpr v ∧ v.isPlain := by
  have hread : (Fragment.readAll value "\x7b \x7d").map Value.isPlain = some true := by
    decide +kernel
  obtain ⟨v, hv, hplain⟩ := Option.map_eq_some_iff.1 hread
  obtain ⟨f, hsrc, -, hexpr⟩ := Fragment.exists_of_readAll hv
  exact ⟨f, v, hsrc, hexpr, hplain⟩

section Definitions

variable {n t : Bytes}

/-- A quoted field is read under its name unless that is `ON` or a modifier. The word `TABLE`
protects its table. -/
theorem parse_quotedField (hn : 0x60 ∉ n) (ht : 0x60 ∉ t) {k : Fragment} {K : Kind}
    (hk : k.IsType K) : (∃ d : FieldDef, parse (quotedField n t k.src) = .ok [.field d] ∧
        d.name = n ∧ d.table = t ∧ d.kind = some K) ↔
      ∀ w ∈ (["ON", "OVERWRITE", "IF"] : List Bytes), sameWord n w = false := by
  have hname := Fragment.isToken_quoted n hn
  have htable := Fragment.isToken_quoted t ht
  obtain ⟨f, hsrc, hlaid⟩ :=
    @Fragment.exists_written [Keyword.define.fragment, Keyword.field.fragment,
    .quoted n hn, Keyword.on.fragment, Keyword.table.fragment, .quoted t ht,
      Keyword.type.fragment, k]
    (by simp) (by simp [Keyword.trimmed_fragment, hname.trimmed, htable.trimmed])
  rw [show quotedField n t k.src = f.src from hsrc.symm]
  constructor
  · rintro ⟨d, hparse, -⟩
    obtain ⟨c, hread⟩ := f.parse_eq_ok.1 hparse
    obtain ⟨-, hdefine, hlaid⟩ := hlaid.word
    obtain ⟨hm, hfield, hlaid⟩ := hlaid.word
    obtain ⟨hm', hkind, hlit, hlaid⟩ := hlaid.token hname
    obtain ⟨hm'', hon, -⟩ := hlaid.word
    have hspelled := isKeyword_of_ident hkind hlit
    rw [read_define (by decide) hm hdefine hfield] at hread
    obtain ⟨d', c₁, hread, -⟩ := Reader.bind_eq_ok.1 hread
    obtain ⟨u, c₂, hmodifiers, hread⟩ := Reader.bind_eq_ok.1 hread
    obtain ⟨x, c₃, hread, -⟩ := Reader.bind_eq_ok.1 hread
    obtain ⟨-, rfl⟩ | ⟨hplain, rfl⟩ :=
      Definition.modifiers_inv (Keyword.isKeyword_eq hon .not) hm' hmodifiers
    · exact absurd hread (Definition.fieldName_on hon hm'')
    · refine List.forall_mem_cons.2 ⟨?_, fun w hw => (hspelled w).symm.trans (hplain w hw)⟩
      rw [← hspelled, ← Bool.not_eq_true]
      exact fun hself => Definition.fieldName_on hself hm' hread
  · intro hplain
    let name := FieldName.ofToken hname hplain
    let table : TableName := ⟨_, _, _, true, htable, by decide, nofun⟩
    have hlaid : f.passage.Laid 0 (fieldIntro name table ++ [Keyword.type.fragment, k]) := hlaid
    obtain ⟨i, hclauses, hread⟩ := read_fieldIntro name table hlaid
    obtain ⟨hi, htype, hrest⟩ := hclauses.word
    have hend := hrest.head.2.eq_length
    have hkind := hrest.kind_eq hk (.inl (f.sound.kind_end hend.ge))
    have hclause (d : FieldDef) : fieldClause d (f.passage.cursor i) =
        .ok ({ d with kind := some K }, f.passage.cursor f.passage.length) := by
      rw [fieldClause_keyword rfl hi htype, clauseBody, Reader.bind_ok hkind, hend]
      rfl
    rw [Reader.bind_ok (untilEnd_once hi (hclause _))] at hread
    exact ⟨_, f.parse_eq_ok.2 ⟨_, hread⟩, FieldName.name_ofToken hname hplain, rfl, rfl⟩

/-- A quoted table is read under its name unless that is a modifier. -/
theorem parse_quotedTable (ht : 0x60 ∉ t) :
    (∃ d : TableDef, parse (quotedTable t) = .ok [.table d] ∧ d.name = t) ↔
      ∀ w ∈ (["OVERWRITE", "IF"] : List Bytes), sameWord t w = false := by
  have htable := Fragment.isToken_quoted t ht
  obtain ⟨f, hsrc, hlaid⟩ :=
    @Fragment.exists_written [Keyword.define.fragment, Keyword.table.fragment, .quoted t ht]
    (by simp) (by simp [Keyword.trimmed_fragment])
  rw [show quotedTable t = f.src from hsrc.symm]
  obtain ⟨-, hdefine, hlaid⟩ := hlaid.word
  obtain ⟨hm, htab, hlaid⟩ := hlaid.word
  obtain ⟨hm', hkind, hlit, hlaid⟩ := hlaid.token htable
  have hspelled := isKeyword_of_ident hkind hlit
  have hend := f.sound.kind_end hlaid.eq_length.ge
  have hread := read_define (by decide) hm hdefine htab
  constructor
  · rintro ⟨d, hparse, -⟩
    obtain ⟨c, h⟩ := f.parse_eq_ok.1 hparse
    rw [hread] at h
    obtain ⟨d', c₁, h, -⟩ := Reader.bind_eq_ok.1 h
    obtain ⟨u, c₂, hmodifiers, h⟩ := Reader.bind_eq_ok.1 h
    have hnot : (f.passage.token 3).isKeyword "NOT" = false := by
      rw [Token.isKeyword, hend]
      rfl
    obtain ⟨-, rfl⟩ | ⟨hplain, rfl⟩ := Definition.modifiers_inv hnot hm' hmodifiers
    · -- nothing is left for the name
      rw [Definition.name, bind_assoc, Reader.bind_ok peek_ok, hend] at h
      cases h
    · exact fun w hw => (hspelled w).symm.trans (hplain w hw)
  · intro hplain
    have hmodifiers := modifiers_plain fun w hw => (hspelled w).trans (hplain w hw)
    have hkind' : (f.passage.token 2).kind ∈ [.ident, .string] := List.mem_cons.2 (.inl hkind)
    have hdef : ∃ d c, Definition.table (f.passage.token 0).start.offset (f.passage.cursor 2) =
        .ok (d, c) ∧
        d.name = t := by
      rw [Definition.table, Reader.bind_ok hmodifiers, Reader.bind_ok (name_ok hm' hkind'), hlit]
      exact ⟨_, _, rfl, rfl⟩
    obtain ⟨d, c, hdef, hd⟩ := hdef
    exact ⟨d, f.parse_eq_ok.2 ⟨c, by rw [hread, definitionOf, Reader.bind_ok hdef]; rfl⟩, hd⟩

/-- A quoted event is read under its name and its table unless the name is a modifier or the table
is called `TABLE`. -/
theorem parse_quotedEvent (hn : 0x60 ∉ n) (ht : 0x60 ∉ t) :
    (∃ d : EventDef, parse (quotedEvent n t) = .ok [.event d] ∧ d.name = n ∧ d.table = t) ↔
      (∀ w ∈ (["OVERWRITE", "IF"] : List Bytes), sameWord n w = false) ∧
        sameWord t "TABLE" = false := by
  have hname := Fragment.isToken_quoted n hn
  have htable := Fragment.isToken_quoted t ht
  obtain ⟨body, v, hbody, hexpr, hplain⟩ := exists_emptyBody
  obtain ⟨f, hsrc, hlaid⟩ :=
    @Fragment.exists_written [Keyword.define.fragment, Keyword.event.fragment,
    .quoted n hn, Keyword.on.fragment, .quoted t ht, Keyword.then.fragment, body]
    (by simp) (by simp [Keyword.trimmed_fragment, hname.trimmed, htable.trimmed])
  have hsrc : f.src = quotedEvent n t := by
    rw [hsrc, quotedEvent, ← hbody]
    rfl
  rw [← hsrc]
  generalize hpassage : f.passage = s at hlaid
  have hs : s.Sound := hpassage ▸ f.sound
  obtain ⟨-, hdefine, hlaid⟩ := hlaid.word
  obtain ⟨hm, hevent, hlaid⟩ := hlaid.word
  obtain ⟨hm₂, (hk₂ : (s.token 2).kind = .ident), hn₂, hlaid⟩ := hlaid.token hname
  obtain ⟨hm₃, hon, hlaid⟩ := hlaid.word
  obtain ⟨hm₄, (hk₄ : (s.token 4).kind = .ident), ht₄, hlaid⟩ := hlaid.token htable
  obtain ⟨hm₅, hthen, hlaid⟩ := hlaid.word
  have hnspelled := isKeyword_of_ident hk₂ hn₂
  have htspelled := isKeyword_of_ident hk₄ ht₄
  have hname₂ : Definition.name "event" (s.cursor 2) = .ok (n, s.cursor 3) := by
    rw [name_ok hm₂ (List.mem_cons.2 (.inl hk₂)), hn₂]
  have hon₃ : Reader.expectKeyword "ON" (s.cursor 3) = .ok (⟨⟩, s.cursor 4) :=
    expectKeyword_ok hm₃ hon
  have hread := read_define (by decide) hm hdefine hevent
  simp only [f.parse_eq_ok, hpassage, hread, definitionOf]
  constructor
  · rintro ⟨d, ⟨c, h⟩, hdn, hdt⟩
    obtain ⟨d', c₁, h, hd⟩ := Reader.bind_eq_ok.1 h
    cases hd
    obtain ⟨u, c₁, c₂, u', c₃, c₄, hmodifiers, hx, hc₃, hy⟩ := Definition.event_inv h
    obtain ⟨hover, rfl⟩ | ⟨hplain, rfl⟩ :=
      Definition.modifiers_inv (Keyword.isKeyword_eq hon .not) hm₂ hmodifiers
    · -- the name would be the word `ON`
      obtain ⟨hk, hword⟩ := Keyword.sameWord_of_isKeyword hon .overwrite
      rw [name_ok hm₃ (List.mem_cons.2 (.inl hk)), Except.ok.injEq, Prod.mk.injEq] at hx
      rw [hnspelled, ← hdn, ← hx.1] at hover
      exact absurd (hword.symm.trans hover) (by decide)
    · cases hname₂.symm.trans hx
      cases hon₃.symm.trans hc₃
      refine ⟨fun w hw => (hnspelled w).symm.trans (hplain w hw), ?_⟩
      cases htab : sameWord t "TABLE" with
      | false => rfl
      | true =>
        -- the table would be the word `THEN`
        obtain ⟨hk, hword⟩ := Keyword.sameWord_of_isKeyword hthen .table
        rw [tableName_word hm₅ ((htspelled _).trans htab) (List.mem_cons.2 (.inl hk)),
          Except.ok.injEq, Prod.mk.injEq] at hy
        rw [← hdt, ← hy.1] at htab
        exact absurd (hword.symm.trans htab) (by decide)
  · rintro ⟨hplain', htab⟩
    obtain ⟨v', hclause⟩ := Definition.eventClause_then hm₅ hthen hs hlaid hexpr hplain
      { pos := (s.token 0).start.offset, name := n, table := t }
    have hmodifiers := modifiers_plain fun w hw => (hnspelled w).trans (hplain' w hw)
    have htable₄ := tableName_plain hm₄ (List.mem_cons.2 (.inl hk₄)) ((htspelled _).trans htab)
    rw [event, bind_assoc, Reader.bind_ok hmodifiers, bind_assoc, Reader.bind_ok hname₂, bind_assoc,
      Reader.bind_ok hon₃, bind_assoc, Reader.bind_ok htable₄, bind_assoc,
      Reader.bind_ok (Reader.get_ok _), length_rest, ht₄,
        Reader.bind_ok (untilEnd_once hm₅ hclause)]
    exact ⟨_, ⟨_, rfl⟩, rfl, rfl⟩

/-- Exactly the names that are spelled like a keyword of their place are not read as names, for all
names without a backquote and every type. -/
theorem parse_quoted_iff (hn : 0x60 ∉ n) (ht : 0x60 ∉ t) {k : Fragment} {K : Kind}
    (hk : k.IsType K) : ((∃ d : FieldDef, parse (quotedField n t k.src) = .ok [.field d] ∧
        d.name = n ∧ d.table = t ∧ d.kind = some K) ↔
      ∀ w ∈ (["ON", "OVERWRITE", "IF"] : List Bytes), sameWord n w = false) ∧
    ((∃ d : TableDef, parse (quotedTable t) = .ok [.table d] ∧ d.name = t) ↔
      ∀ w ∈ (["OVERWRITE", "IF"] : List Bytes), sameWord t w = false) ∧
    ((∃ d : EventDef, parse (quotedEvent n t) = .ok [.event d] ∧ d.name = n ∧ d.table = t) ↔
      (∀ w ∈ (["OVERWRITE", "IF"] : List Bytes), sameWord n w = false) ∧
        sameWord t "TABLE" = false) :=
  ⟨parse_quotedField hn ht hk, parse_quotedTable ht, parse_quotedEvent hn ht⟩

end Definitions

/-- Keywords, blanks and brackets are read as names. -/
theorem parse_quoted_iff_words :
    ∃ (k : Fragment) (K : Kind), k.src = "array<int, 2> | none" ∧ k.IsType K ∧
    0x60 ∉ ("define type" : Bytes) ∧ 0x60 ∉ (") on;" : Bytes) ∧
    (∃ d : FieldDef, parse (quotedField "define type" ") on;" k.src) = .ok [.field d] ∧
      d.name = "define type" ∧ d.table = ") on;" ∧ d.kind = some K) ∧
    (∃ d : TableDef, parse (quotedTable ") on;") = .ok [.table d] ∧ d.name = ") on;") ∧
    ∃ d : EventDef, parse (quotedEvent "define type" ") on;") = .ok [.event d] ∧
      d.name = "define type" ∧ d.table = ") on;" := by
  obtain ⟨K, hK⟩ := Option.isSome_iff_exists.1
    (show (Fragment.readAll kind "array<int, 2> | none").isSome = true by decide +kernel)
  obtain ⟨k, hsrc, -, hk⟩ := Fragment.exists_of_readAll hK
  have hn : 0x60 ∉ ("define type" : Bytes) := by decide +kernel
  have ht : 0x60 ∉ (") on;" : Bytes) := by decide +kernel
  obtain ⟨hfield, htable, hevent⟩ := parse_quoted_iff hn ht hk
  exact ⟨k, K, hsrc, hk, hn, ht, hfield.2 (by decide +kernel), htable.2 (by decide +kernel),
    hevent.2 (by decide +kernel)⟩

/-- A table called `overwrite` and fields called `on` or `if` cannot be defined, and an event on a
table called `table` gets another one. -/
theorem quoted_keywords_taken :
    (parse "DEFINE TABLE `overwrite`").isOk = false ∧
    (parse "DEFINE FIELD `on` ON TABLE `t` TYPE int").isOk = false ∧
    (parse "DEFINE FIELD `if` ON TABLE `t` TYPE int").isOk = false ∧
    (parse "DEFINE EVENT `a` ON `table` THEN \x7b \x7d").toOption.map
      (fun statements => (events statements).map fun d => (d.name, d.table)) =
        some [(("a", "THEN") : Bytes × Bytes)] := by
  decide +kernel

end AccessLayer.Surql
