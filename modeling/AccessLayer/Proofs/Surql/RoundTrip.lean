import AccessLayer.Proofs.Surql.Definitions

/-!
# Expressions survive writing and reading

An expression that is written as the value of a field, its tokens divided by single spaces, is read
as itself.

* `fieldHeader`: the tokens before the value.
* `FieldWords`: a name and a table that are not taken for keywords.
* `parse_written_value`: the whole definition.
-/

namespace AccessLayer.Surql

open Reader Definition
open Passage

/-- The names of a field and of its table, neither of which is a keyword where it stands. -/
structure FieldWords where
  name : Word
  table : Word
  name_plain : ∀ w ∈ (["OVERWRITE", "IF", "ON"] : List Bytes),
    Token.sameWord (Bytes.ofChars name.chars) w = false
  table_plain : Token.sameWord (Bytes.ofChars table.chars) "TABLE" = false

/-- The tokens of a field definition before its value. -/
def fieldHeader (w : FieldWords) : List Spelling :=
  [.keyword "DEFINE" (by decide +kernel), .keyword "FIELD" (by decide +kernel), w.name.spelling,
    .keyword "ON" (by decide +kernel), w.table.spelling, .keyword "VALUE" (by decide +kernel)]

theorem balanced_fieldHeader (w : FieldWords) : Balanced (fieldHeader w) := rfl

variable {s : Passage} {m : Nat} {rest : List Spelling}

/-- Reading a tree that nothing follows takes all tokens that are left. -/
theorem value_spellings (hs : s.Sound) {e : ExprTree} (he : e.climbs) (h : s.Ahead m e.spellings) :
    ∃ v, v.view .unplaced = e.value ∧ value (s.cursor m) = .ok (v, s.cursor s.length) := by
  have hlen := h.length
  have h' : s.Ahead m (e.spellings ++ []) := by rwa [List.append_nil]
  have hend : s.Ends (m + e.spellings.length) 1 := .of_kind (by rw [h'.append.kind_nil]; decide) 1
  have hexpr : ReadsExprs s m (exprFuel (s.length - m + 1)) := exprFuel_spellings hs _ (by omega)
  obtain ⟨v, hv, hread⟩ := hexpr e 1 he e.prec_pos le_rfl h' hend
  refine ⟨v, hv, ?_⟩
  rw [value, bind_ok (get_ok _),
    length_rest, hread, hlen]

/-- A definition of a field with a value alone is read as such. -/
theorem read_fieldHeader (hs : s.Sound) (w : FieldWords) {v : Value}
    (h : s.Ahead 0 (fieldHeader w ++ rest))
    (hvalue : value (s.cursor 6) = .ok (v, s.cursor s.length)) :
    Statement.read (s.cursor 0) = .ok (.field
      { pos := (s.token 0).start.offset, name := Bytes.ofChars w.name.chars,
        table := Bytes.ofChars w.table.chars, value := some v }, s.cursor s.length) := by
  have hfield : s.Ahead 1 (.keyword "FIELD" _ :: _) := h.tail
  have hon : s.Ahead 3 (.keyword "ON" _ :: _) := hfield.tail.tail
  have hclause : s.Ahead 5 (.keyword "VALUE" _ :: _) := hon.tail.tail
  have hname : (s.token 2).literal = _ := hfield.tail.literal.trans w.name.literal_spelling
  have htable : (s.token 4).literal = _ := hon.tail.literal.trans w.table.literal_spelling
  have hname_eq := isKeyword_of_ident hfield.tail.kind hname
  have htable_eq := isKeyword_of_ident hon.tail.kind htable
  have hmodifiers := modifiers_plain (m := 2) fun k hk =>
    (hname_eq k).trans (w.name_plain k (@List.mem_append_left _ k ["OVERWRITE", "IF"] ["ON"] hk))
  have hown : ∀ i < 1, (s.token (2 + i)).isKeyword "ON" = false := by
    intro i hi
    obtain rfl : i = 0 := by omega
    exact (hname_eq _).trans (w.name_plain _ (by simp))
  have hfieldName := fieldName_ok hs Nat.one_pos hown (Ahead.isKeyword hon (beq_self_eq_true _))
  have htableName := tableName_plain (m := 4) hon.tail.lt (by rw [hon.tail.kind]; exact .head _)
    ((htable_eq _).trans w.table_plain)
  have hread (d : FieldDef) : fieldClause d (s.cursor 5) =
      .ok ({ d with value := some v }, s.cursor s.length) := by
    rw [fieldClause_keyword (k := .value) rfl hclause.lt
      (Ahead.isKeyword hclause (beq_self_eq_true _)), clauseBody, bind_ok hvalue]
    rfl
  rw [read_define (k := .field) (by decide) hfield.lt (Ahead.isKeyword h (beq_self_eq_true _))
    (Ahead.isKeyword hfield (beq_self_eq_true _)), definitionOf, field, bind_assoc,
      bind_ok hmodifiers,
    bind_assoc, bind_ok hfieldName, bind_assoc, bind_ok hon.discard_advance, bind_assoc,
    bind_ok htableName, bind_assoc, bind_ok (get_ok _), length_rest, if_pos rfl, hname, htable,
    bind_ok (untilEnd_once hclause.lt (hread _))]
  rfl

/-- An expression tree that climbs, written as the value of a field, is read as itself: the text is
one statement, reading the value after the header takes all tokens that are left, and the definition
has that value. -/
theorem parse_written_value (w : FieldWords) (e : ExprTree) (he : e.climbs = true) :
    ∃ (span : Span) (v : Value) (c : Cursor),
      spansOf (written (fieldHeader w ++ e.spellings)) = .ok [span] ∧
      value ((Cursor.ofSpan (written (fieldHeader w ++ e.spellings)) span).skip
        (fieldHeader w).length) =
        .ok (v, c) ∧
      c.atEnd = true ∧
      v.view .unplaced = e.value ∧
      parse (written (fieldHeader w ++ e.spellings)) = .ok [.field
        { pos := 0, name := Bytes.ofChars w.name.chars, table := Bytes.ofChars w.table.chars,
          value := some v }] := by
  have hspans := spansOf_written (show fieldHeader w ++ e.spellings ≠ [] by simp [fieldHeader])
    ((balanced_fieldHeader w).append e.balanced)
  generalize hs' : ofSpellings (fieldHeader w ++ e.spellings) = s at hspans
  have h : s.Ahead 0 (fieldHeader w ++ e.spellings) := ⟨[], hs'.symm, rfl⟩
  have hsrc : s.src = written (fieldHeader w ++ e.spellings) := hs' ▸ rfl
  rw [← hsrc] at hspans ⊢
  have hs : s.Sound := (Passage.sound_of_mem hspans (List.mem_singleton.2 rfl)).1
  have hpos : (s.token 0).start.offset = 0 := by
    rw [← hs', show fieldHeader w ++ e.spellings = [] ++ _ :: _ from rfl]
    exact congrArg (·.start.offset) (token_ofSpellings [] _ _)
  obtain ⟨v, hv, hvalue⟩ := value_spellings hs he h.append
  rw [Nat.zero_add] at hvalue
  have hlen := h.length
  rw [List.length_append] at hlen
  have hread := read_fieldHeader hs w h hvalue
  rw [hpos, cursor_zero] at hread
  refine ⟨s.span, v, s.cursor s.length, hspans, ?_, by simp, hv, ?_⟩
  · rw [← cursor_zero, skip_cursor s (by omega), Nat.zero_add]
    exact hvalue
  · exact (parse_of_spansOf hspans).2 ⟨_, hread⟩

/-- The tree of a chain of operators of one and two words, with a cast of an array on its right. -/
def chainTree : ExprTree :=
  let x : ParamName := ⟨'x', [], forall_mem_of_all (by decide)⟩
  let y : ParamName := ⟨'y', [], forall_mem_of_all (by decide)⟩
  let one : PlainNumber := ⟨⟨⟨'1', [], by decide, by decide⟩, none, none, .none⟩, rfl⟩
  let int : KindName := ⟨⟨.of 'i' ['n', 't'] (by decide), []⟩, by decide +kernel, by decide +kernel⟩
  let option : KindName :=
    ⟨⟨.of 'o' ['p', 't', 'i', 'o', 'n'] (by decide), []⟩, by decide +kernel, by decide +kernel⟩
  let f : QualifiedName := ⟨⟨.of 'f' ['n'] (by decide), [.of 'f' [] (by decide)]⟩, by simp⟩
  .binary (.binary (.binary (.param x) .less (.number one)) .notIn (.param y)) .and
    (.cast (.single (.named option [.single (.named int [])]))
      (.array [.call f [], .string ⟨'\'', ['a'], by decide⟩]))

/-- The chain is written and read. -/
theorem parse_written_value_chain :
    ∃ v, v.view .unplaced = .binary 0
        (.binary 0 (.binary 0 (.param 0 "x") "<" (.literal 0 .number "1" [])) "NOT IN"
          (.param 0 "y")) "AND"
        (.call 0 .cast "option<int>" [.literal 0 .array "[ fn::f ( ) , 'a' ]"
          [.call 0 .custom "fn::f" [], .literal 0 .string "a" []]]) ∧
      parse
        "DEFINE FIELD a ON b VALUE $x < 1 NOT IN $y AND < option < int > > [ fn::f ( ) , 'a' ]" =
        .ok [.field { pos := 0, name := "a", table := "b", value := some v }] := by
  let w : FieldWords :=
    ⟨.of 'a' [] (by decide), .of 'b' [] (by decide), by decide +kernel, by decide +kernel⟩
  have htext : written (fieldHeader w ++ chainTree.spellings) =
      "DEFINE FIELD a ON b VALUE $x < 1 NOT IN $y AND < option < int > > [ fn::f ( ) , 'a' ]" := by
    decide +kernel
  obtain ⟨-, v, -, -, -, -, hv, hparse⟩ := parse_written_value w chainTree (by decide)
  rw [htext] at hparse
  exact ⟨v, hv, hparse⟩

end AccessLayer.Surql
