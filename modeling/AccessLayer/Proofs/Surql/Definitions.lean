import AccessLayer.Proofs.Surql.Transfer

/-!
# Definitions put together from texts

A definition is written as texts divided by spaces: words, names, types, expressions. Its header is
read word by word, and its clauses one after the other, each up to the first word of the next one.

* `Keyword`: the words of definitions.
* `FieldName`, `TableName`, `fieldIntro`: the texts before the clauses of a field.
* `Passage.Laid.kind_eq`, `Passage.Laid.value_eq`: types and expressions before a clause or the end.
-/

namespace AccessLayer.Surql

open Reader Definition
open Token (isKeyword sameWord)
open Passage

variable {s : Passage} {m : Nat} {fs : List Fragment} {f : Fragment} {k : Keyword}

/-! ## Words -/

/-- The first of the texts that follow each other. -/
theorem Passage.Laid.head (h : s.Laid m (f :: fs)) :
    (∃ d, f.passage.Embeds s m d) ∧ s.Laid (m + f.length) fs := by
  cases h with
  | cons E h => exact ⟨⟨_, E⟩, h⟩

/-- A text of one token, and the texts that follow it. -/
theorem Passage.Laid.token {f : Fragment} {fs : List Fragment} {k : TokenKind} {w : Bytes}
    (h : s.Laid m (f :: fs)) (hf : f.IsToken k w) :
    m < s.length ∧ (s.token m).kind = k ∧ (s.token m).literal = w ∧ s.Laid (m + 1) fs := by
  obtain ⟨⟨d, E⟩, hfs⟩ := h.head
  obtain ⟨hm, hk, hw⟩ := hf.token E
  rw [hf.length_eq] at hfs
  exact ⟨hm, hk, hw, hfs⟩

/-- The words of definitions. -/
inductive Keyword where
  | define | field | table | event | overwrite | if | not | on
  | flexible | readonly | type | default | always | value | assert | comment | when | then
deriving DecidableEq

namespace Keyword

variable {k : Keyword}

/-- How a word is written. -/
def text : Keyword → Bytes
  | define => "DEFINE"
  | field => "FIELD"
  | table => "TABLE"
  | event => "EVENT"
  | overwrite => "OVERWRITE"
  | .if => "IF"
  | not => "NOT"
  | on => "ON"
  | flexible => "FLEXIBLE"
  | readonly => "READONLY"
  | type => "TYPE"
  | default => "DEFAULT"
  | always => "ALWAYS"
  | value => "VALUE"
  | assert => "ASSERT"
  | comment => "COMMENT"
  | when => "WHEN"
  | .then => "THEN"

def all : List Keyword :=
  [define, field, table, event, overwrite, .if, not, on, flexible, readonly, type, default, always,
    value, assert, comment, when, .then]

/-- No two words are spelled alike. -/
theorem sameWord_text (k k' : Keyword) : sameWord k.text k'.text = decide (k = k') := by
  have hmem : ∀ k : Keyword, k ∈ all := by
    intro k
    cases k <;> decide
  have hall : (all.all fun k => all.all fun k' => sameWord k.text k'.text == decide (k = k')) =
      true := by
    decide
  exact beq_iff_eq.1 (List.all_eq_true.1 (List.all_eq_true.1 hall k (hmem k)) k' (hmem k'))

/-- A token that is one of the words is spelled like no other. -/
theorem sameWord_of_isKeyword {t : Token} (h : t.isKeyword k.text) (k' : Keyword) :
    t.kind = .ident ∧ sameWord t.literal k'.text = decide (k = k') := by
  rw [isKeyword, Bool.and_eq_true, beq_iff_eq] at h
  exact ⟨h.1, by rw [Token.sameWord_left h.2, k.sameWord_text]⟩

theorem isKeyword_eq {t : Token} (h : t.isKeyword k.text) (k' : Keyword) :
    t.isKeyword k'.text = decide (k = k') := by
  obtain ⟨hk, hword⟩ := sameWord_of_isKeyword h k'
  rw [isKeyword, hk, hword]
  rfl

def startsClause : Keyword → Bool
  | flexible | readonly | type | default | value | assert | comment => true
  | _ => false

theorem text_mem_clauseWords (h : k.startsClause) : k.text ∈ clauseWords := by
  have hall : (all.all fun k => !k.startsClause || clauseWords.contains k.text) = true := by decide
  have hk := List.all_eq_true.1 hall k (by cases k <;> decide)
  rw [h, Bool.not_true, Bool.false_or] at hk
  exact List.contains_iff_mem.1 hk

theorem isWord_text (k : Keyword) : Fragment.isWord k.text := by
  cases k <;> decide

/-- A word as a text. -/
def fragment (k : Keyword) : Fragment := .word k.text k.isWord_text

theorem trimmed_fragment (k : Keyword) : k.fragment.Trimmed := (Fragment.isToken_word _ _).trimmed

end Keyword

/-- A word, and the texts that follow it. -/
theorem Passage.Laid.word {fs : List Fragment} {k : Keyword} (h : s.Laid m (k.fragment :: fs)) :
    m < s.length ∧ (s.token m).isKeyword k.text ∧ s.Laid (m + 1) fs := by
  obtain ⟨hm, hk, hlit, hfs⟩ := h.token (Fragment.isToken_word _ k.isWord_text)
  refine ⟨hm, ?_, hfs⟩
  rw [isKeyword, hk, hlit, Token.sameWord_refl]
  rfl

/-! ## Parts of a header -/

/-- Whether an identifier is a keyword depends on its spelling alone. -/
theorem isKeyword_of_ident {n : Bytes} (hk : (s.token m).kind = .ident)
    (hlit : (s.token m).literal = n) (w : Bytes) : (s.token m).isKeyword w = sameWord n w := by
  rw [isKeyword, hk, hlit]
  rfl

namespace Definition

variable {σ : Type} {step : σ → Reader σ}

theorem modifiers_plain (h : ∀ w ∈ (["OVERWRITE", "IF"] : List Bytes),
      (s.token m).isKeyword w = false) :
    modifiers (s.cursor m) = .ok (⟨⟩, s.cursor m) := by
  simp only [List.forall_mem_cons] at h
  rw [modifiers, bind_ok (acceptKeyword_false h.1), if_neg (by simp),
    bind_ok (acceptKeyword_false h.2.1)]
  rfl

theorem name_ok {what : Bytes} (hm : m < s.length) (hk : (s.token m).kind ∈ [.ident, .string]) :
    Definition.name what (s.cursor m) = .ok ((s.token m).literal, s.cursor (m + 1)) := by
  have hname : ((s.token m).kind == .ident || (s.token m).kind == .string) = true := by
    simpa using hk
  rw [Definition.name, bind_ok peek_ok, hname, if_pos rfl, bind_ok (discard_ok (advance_ok hm))]
  rfl

theorem tableName_plain (hm : m < s.length) (hk : (s.token m).kind ∈ [.ident, .string])
    (hplain : (s.token m).isKeyword "TABLE" = false) :
    tableName (s.cursor m) = .ok ((s.token m).literal, s.cursor (m + 1)) := by
  rw [tableName, bind_ok (discard_ok (acceptKeyword_false hplain)), name_ok hm hk]

theorem tableName_word (hm : m + 1 < s.length) (hword : (s.token m).isKeyword "TABLE")
    (hk : (s.token (m + 1)).kind ∈ [.ident, .string]) :
    tableName (s.cursor m) = .ok ((s.token (m + 1)).literal, s.cursor (m + 2)) := by
  rw [tableName, bind_ok (discard_ok (acceptKeyword_true (by omega) hword)), name_ok hm hk]

/-- The tokens before the word `ON`. -/
theorem takeWhile_on {n : Nat} (hown : ∀ i < n, (s.token (m + i)).isKeyword "ON" = false)
    (hon : (s.token (m + n)).isKeyword "ON") (hlen : m + n < s.length) :
    ((s.cursor m).rest.takeWhile fun t => !t.isKeyword "ON") = (s.span.tokens.drop m).take n := by
  have hrest : (s.cursor m).rest =
      (s.span.tokens.drop m).take n ++ s.token (m + n) :: s.span.tokens.drop (m + n + 1) := by
    rw [← s.drop_eq_cons hlen, ← List.drop_drop, List.take_append_drop]
    rfl
  have hfree : ∀ t ∈ (s.span.tokens.drop m).take n, (!t.isKeyword "ON") = true := by
    intro t ht
    obtain ⟨i, hi, rfl⟩ := List.getElem_of_mem ht
    rw [List.getElem_take, List.getElem_drop, getElem_eq_token, hown i (by simp at hi; omega)]
    rfl
  rw [hrest, List.takeWhile_append_of_pos hfree, List.takeWhile_cons, hon]
  exact List.append_nil _

/-- The name of a field is read up to the word `ON`: the literal of one token, or the source text of
several. -/
theorem fieldName_ok (hs : s.Sound) {n : Nat} (hn : 0 < n)
    (hown : ∀ i < n, (s.token (m + i)).isKeyword "ON" = false)
    (hon : (s.token (m + n)).isKeyword "ON") : fieldName (s.cursor m) =
      .ok (if n = 1 then (s.token m).literal else s.text m (m + n - 1), s.cursor (m + n)) := by
  have hlen := hs.lt_of_isKeyword hon
  have hlength : ((s.span.tokens.drop m).take n).length = n := by
    rw [List.length_take, List.length_drop]
    have : m + n < s.span.tokens.length := hlen
    omega
  have hne : (n == (s.cursor m).rest.length) = false := by
    rw [length_rest, beq_eq_false_iff_ne]
    omega
  rw [fieldName, bind_ok (get_ok _)]
  rw [takeWhile_on hown hon hlen, hlength, hne, if_neg (by simp), skip_cursor s hlen.le]
  obtain ⟨k, rfl⟩ : ∃ k, n = k + 1 := ⟨n - 1, by omega⟩
  rw [s.drop_eq_cons (by omega), List.take_succ_cons]
  cases k with
  | zero => rfl
  | succ k =>
    rw [s.drop_eq_cons (by omega), List.take_succ_cons, if_neg (by omega)]
    exact raw_cursor hs (by omega) hlen.le

theorem untilEnd_end {x : σ} {fuel : Nat} :
    untilEnd step (fuel + 1) x (s.cursor s.length) = .ok (x, s.cursor s.length) := by
  rw [untilEnd,
    bind_ok (get_ok _),
    atEnd_cursor, decide_eq_true le_rfl]
  rfl

theorem untilEnd_step {x y : σ} {n fuel : Nat} (hm : m < s.length)
    (h : step x (s.cursor m) = .ok (y, s.cursor n)) :
    untilEnd step (fuel + 1) x (s.cursor m) = untilEnd step fuel y (s.cursor n) := by
  rw [untilEnd,
    bind_ok (get_ok _),
    atEnd_cursor, decide_eq_false (by omega), if_neg (by simp), bind_ok h]

/-- A step that takes all tokens that are left is the only one. -/
theorem untilEnd_once {x y : σ} (hm : m < s.length)
    (h : step x (s.cursor m) = .ok (y, s.cursor s.length)) :
    untilEnd step (s.length - m + 1) x (s.cursor m) = .ok (y, s.cursor s.length) := by
  obtain ⟨fuel, hfuel⟩ : ∃ fuel, s.length - m = fuel + 1 := ⟨s.length - m - 1, by omega⟩
  rw [untilEnd_step hm h, hfuel, untilEnd_end]

end Definition

def definitionOf (pos : Nat) : Keyword → Reader Statement
  | .table => do return .table (← Definition.table pos)
  | .field => do return .field (← Definition.field pos)
  | _ => do return .event (← Definition.event pos)

/-- The second word of a definition says what it defines. -/
theorem read_define (hk : k ∈ [.table, .field, .event]) (hm : 1 < s.length)
    (hdefine : (s.token 0).isKeyword Keyword.define.text) (hword : (s.token 1).isKeyword k.text) :
    Statement.read (s.cursor 0) = definitionOf (s.token 0).start.offset k (s.cursor 2) := by
  have hupper : ∀ k ∈ [Keyword.table, .field, .event], Bytes.toUpper k.text = k.text ∧
      (k.text == "TABLE") = decide (k = .table) ∧ (k.text == "FIELD") = decide (k = .field) ∧
      (k.text == "EVENT") = decide (k = .event) := by
    decide
  obtain ⟨hself, htable, hfield, hevent⟩ := hupper k hk
  obtain ⟨hkind, hlit⟩ := Token.toUpper_of_isKeyword hword hself
  rw [Statement.read, bind_ok peek_ok, show (s.token 0).isKeyword "DEFINE" = true from hdefine,
    if_pos rfl,
    bind_ok (discard_ok (advance_ok (by omega))), any, bind_ok (advance_ok hm), hkind, hlit]
  simp only [bne_self_eq_false, Bool.false_eq_true, if_false]
  rw [htable, hfield, hevent]
  simp only [List.mem_cons, List.not_mem_nil, or_false] at hk
  obtain rfl | rfl | rfl := hk <;> rfl

/-! ## Headers of fields -/

/-- A text that names a field: the word `ON` is not in it, and it starts with no modifier. -/
structure FieldName where
  text : Fragment
  trimmed : text.Trimmed
  noOn : ∀ t ∈ text.tokens, t.isKeyword "ON" = false
  noModifier : ∀ w ∈ (["OVERWRITE", "IF"] : List Bytes), (text.passage.token 0).isKeyword w = false

/-- The name of a field: the literal of one token, or the source text of several. -/
def FieldName.name (f : FieldName) : Bytes :=
  if f.text.length = 1 then (f.text.passage.token 0).literal
  else f.text.passage.text 0 (f.text.length - 1)

/-- The first token of a text of one. -/
theorem Fragment.IsToken.token_zero {k : TokenKind} {w : Bytes} (h : f.IsToken k w) :
    (f.passage.token 0).kind = k ∧ (f.passage.token 0).literal = w := (h.token f.embeds_refl).2

/-- A text of one identifier is no keyword but those it is spelled like. -/
theorem Fragment.IsToken.isKeyword_eq_false {w k : Bytes} (h : f.IsToken .ident w)
    (hk : sameWord w k = false) :
    (∀ t ∈ f.tokens, t.isKeyword k = false) ∧ (f.passage.token 0).isKeyword k = false := by
  refine ⟨?_, by rw [isKeyword, h.token_zero.2, hk, Bool.and_false]⟩
  obtain ⟨p, hp⟩ := h
  rw [hp, List.forall_mem_singleton, isKeyword, hk, Bool.and_false]

/-- An identifier that is none of the words with a meaning of their own names a field. -/
def FieldName.ofToken {f : Fragment} {w : Bytes} (h : f.IsToken .ident w)
    (hplain : ∀ k ∈ (["ON", "OVERWRITE", "IF"] : List Bytes), sameWord w k = false) :
    FieldName where
  text := f
  trimmed := h.trimmed
  noOn := (h.isKeyword_eq_false (hplain _ (.head _))).1
  noModifier k hk := (h.isKeyword_eq_false (hplain k (.tail _ hk))).2

theorem FieldName.name_ofToken {w : Bytes} (h : f.IsToken .ident w)
    (hplain : ∀ k ∈ (["ON", "OVERWRITE", "IF"] : List Bytes), sameWord w k = false) :
    (FieldName.ofToken h hplain).name = w :=
  (if_pos h.length_eq).trans h.token_zero.2

/-- A text of one token that names a table. The word `TABLE` may stand before it, and it has to if
the name is spelled like that word. -/
structure TableName where
  text : Fragment
  kind : TokenKind
  name : Bytes
  word : Bool
  isToken : text.IsToken kind name
  isName : kind ∈ [.ident, .string]
  plain : word = false → kind = .ident → sameWord name "TABLE" = false

def TableName.texts (t : TableName) : List Fragment :=
  if t.word then [Keyword.table.fragment, t.text] else [t.text]

/-- The texts of a field definition before its clauses. -/
def fieldIntro (name : FieldName) (table : TableName) : List Fragment :=
  [Keyword.define.fragment, Keyword.field.fragment, name.text, Keyword.on.fragment] ++ table.texts

theorem trimmed_fieldIntro (name : FieldName) (table : TableName) :
    ∀ f ∈ fieldIntro name table, f.Trimmed := by
  have htable : ∀ f ∈ table.texts, f.Trimmed := by
    unfold TableName.texts
    split
    · simp [Keyword.trimmed_fragment, table.isToken.trimmed]
    · simp [table.isToken.trimmed]
  simpa [fieldIntro, Keyword.trimmed_fragment, name.trimmed] using htable

theorem FieldName.read (name : FieldName) {fs : List Fragment}
    (h : s.Laid m (name.text :: Keyword.on.fragment :: fs)) :
    modifiers (s.cursor m) = .ok (⟨⟩, s.cursor m) ∧
      fieldName (s.cursor m) = .ok (name.name, s.cursor (m + name.text.length)) := by
  obtain ⟨⟨d, E⟩, hon⟩ := h.head
  obtain ⟨-, hon, -⟩ := hon.word
  have hpos : 0 < name.text.passage.length := List.length_pos_iff.2 name.text.tokens_ne_nil
  refine ⟨Definition.modifiers_plain fun w hw => ?_, ?_⟩
  · rw [← name.noModifier w hw]
    exact (E.token hpos).isKeyword_eq w
  · have hown : ∀ i < name.text.length, (s.token (m + i)).isKeyword "ON" = false := fun i hi => by
      rw [(E.token hi).isKeyword_eq, ← getElem_eq_token _ hi]
      exact name.noOn _ (List.getElem_mem _)
    rw [Definition.fieldName_ok E.sound' hpos hown hon, FieldName.name]
    have hfirst : (s.token m).literal = (name.text.passage.token 0).literal :=
      (E.token hpos).literal
    have htext := E.text (i := 0) (j := name.text.passage.length - 1) (Nat.zero_le _)
      (Nat.sub_one_lt_of_lt hpos)
    rw [Nat.add_zero] at htext
    rw [hfirst, Nat.add_sub_assoc hpos, htext]
    rfl

theorem TableName.read (table : TableName) {fs : List Fragment} (h : s.Laid m (table.texts ++ fs)) :
    ∃ n, s.Laid n fs ∧ tableName (s.cursor m) = .ok (table.name, s.cursor n) := by
  unfold TableName.texts at h
  split at h
  · next hword =>
    obtain ⟨-, hkeyword, hfs⟩ := Laid.word h
    obtain ⟨hm, hk, hlit, hfs⟩ := hfs.token table.isToken
    refine ⟨m + 2, hfs, ?_⟩
    rw [Definition.tableName_word hm hkeyword (hk ▸ table.isName), hlit]
  · next hword =>
    obtain ⟨hm, hk, hlit, hfs⟩ := Laid.token h table.isToken
    refine ⟨m + 1, hfs, ?_⟩
    have hplain : (s.token m).isKeyword "TABLE" = false := by
      rw [isKeyword, hk, hlit]
      by_cases hident : table.kind = .ident
      · rw [table.plain (by simpa using hword) hident, Bool.and_false]
      · rw [beq_eq_false_iff_ne.2 hident, Bool.false_and]
    rw [Definition.tableName_plain hm (hk ▸ table.isName) hplain, hlit]

theorem read_fieldIntro (name : FieldName) (table : TableName)
    (h : s.Laid 0 (fieldIntro name table ++ fs)) : ∃ n, s.Laid n fs ∧ Statement.read (s.cursor 0) =
      (do return .field (← untilEnd fieldClause (s.length - n + 1)
        { pos := (s.token 0).start.offset, name := name.name, table := table.name }) : Reader
          Statement)
      (s.cursor n) := by
  obtain ⟨-, hdefine, hfield⟩ := Laid.word h
  obtain ⟨hm, hfield, hname⟩ := hfield.word
  obtain ⟨hmodifiers, hread⟩ := name.read hname
  obtain ⟨hlen, hon, htable⟩ := hname.head.2.word
  obtain ⟨n, hfs, htable⟩ := table.read htable
  refine ⟨n, hfs, ?_⟩
  rw [read_define (by decide) hm hdefine hfield, definitionOf, Definition.field, bind_assoc,
    bind_ok hmodifiers, bind_assoc, bind_ok hread, bind_assoc,
    bind_ok (discard_ok (advance_ok hlen)), bind_assoc, bind_ok htable, bind_assoc,
    bind_ok (get_ok _), length_rest]

/-! ## Types and expressions -/

theorem Passage.Laid.kind_eq (h : s.Laid m (f :: fs)) {k : Kind} (hf : f.IsType k)
    (hbreak : (s.token (m + f.length)).IsBreak) :
    kind (s.cursor m) = .ok (k, s.cursor (m + f.length)) := by
  obtain ⟨⟨d, E⟩, -⟩ := h.head
  exact hf.kind_eq E hbreak

theorem Passage.Laid.value_eq (h : s.Laid m (f :: fs)) {v : Value} (hf : f.IsExpr v)
    (hv : v.isPlain) (hbreak : (s.token (m + f.length)).IsBreak) :
    ∃ v', v'.view .unplaced = v.view .unplaced ∧
      value (s.cursor m) = .ok (v', s.cursor (m + f.length)) := by
  obtain ⟨⟨d, E⟩, -⟩ := h.head
  exact hf.value_eq hv E hbreak

/-! ## Choosing a clause -/

/-- At a word of a definition, only that word is accepted. -/
theorem accept_keyword {α : Type} (hm : m < s.length) (h : (s.token m).isKeyword k.text)
    (k' : Keyword) (f : Bool → Reader α) :
    (acceptKeyword k'.text >>= f) (s.cursor m) =
      if k = k' then f true (s.cursor (m + 1)) else f false (s.cursor m) := by
  by_cases hk : k = k'
  · rw [if_pos hk, ← hk]
    exact bind_ok (acceptKeyword_true hm h) f
  · rw [if_neg hk]
    exact bind_ok (acceptKeyword_false ((Keyword.isKeyword_eq h k').trans (decide_eq_false hk))) f

/-- The rest of a clause after its first word. -/
def clauseBody (d : FieldDef) : Keyword → Reader FieldDef
  | .flexible => return { d with flexible := true }
  | .readonly => return { d with readonly := true }
  | .type => return { d with kind := some (← kind) }
  | .default => do
    discard (acceptKeyword Keyword.always.text)
    return { d with default := some (← value) }
  | .value => return { d with value := some (← value) }
  | .assert => return { d with assert := some (← value) }
  | .comment => do
    discard advance
    return d
  | _ => do
    skipToEnd
    return d

theorem fieldClause_eq (d : FieldDef) : fieldClause d = (do
    if ← acceptKeyword Keyword.flexible.text then clauseBody d .flexible
    else if ← acceptKeyword Keyword.readonly.text then clauseBody d .readonly
    else if ← acceptKeyword Keyword.type.text then clauseBody d .type
    else if ← acceptKeyword Keyword.default.text then clauseBody d .default
    else if ← acceptKeyword Keyword.value.text then clauseBody d .value
    else if ← acceptKeyword Keyword.assert.text then clauseBody d .assert
    else if ← acceptKeyword Keyword.comment.text then clauseBody d .comment
    else clauseBody d .then) := rfl

/-- The first word of a clause says how to read it. -/
theorem fieldClause_keyword (hk : k.startsClause) (hm : m < s.length)
    (h : (s.token m).isKeyword k.text)
    (d : FieldDef) : fieldClause d (s.cursor m) = clauseBody d k (s.cursor (m + 1)) := by
  rw [fieldClause_eq]
  simp only [accept_keyword hm h, Bool.false_eq_true, if_false, if_true]
  cases k with
  | flexible | readonly | type | default | value | assert | comment =>
    simp only [reduceCtorEq, if_false, if_true]
  | _ => cases hk

/-- A clause is read from its first word on. -/
theorem Passage.Laid.clause (hk : k.startsClause) (h : s.Laid m (k.fragment :: fs)) (d : FieldDef) :
    m < s.length ∧ s.Laid (m + 1) fs ∧
      fieldClause d (s.cursor m) = clauseBody d k (s.cursor (m + 1)) := by
  obtain ⟨hm, hword, hfs⟩ := h.word
  exact ⟨hm, hfs, fieldClause_keyword hk hm hword d⟩

end AccessLayer.Surql
