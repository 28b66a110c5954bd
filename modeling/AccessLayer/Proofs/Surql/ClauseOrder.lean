import AccessLayer.Proofs.Surql.Definitions
import Mathlib.Data.List.Nodup

/-!
# The order of clauses

A field definition may give its clauses in any order. A clause is read up to the first word of the
next one, whichever that is, and sets a part of the definition that no other clause sets.

* `Clause`: a clause with the texts it is made of, each of which can be read on its own.
* `Clause.set`: what a clause says of the field.
* `parse_fieldText_perm`: the clauses in any order.
-/

namespace AccessLayer.Surql

open Reader Definition
open Passage

variable {s : Passage} {m : Nat}

/-! ## Clauses -/

/-- A type as a text. -/
structure TypeText where
  text : Fragment
  trimmed : text.Trimmed
  kind : Kind
  isType : text.IsType kind

/-- A plain expression as a text. -/
structure ExprText where
  text : Fragment
  trimmed : text.Trimmed
  value : Value
  isExpr : text.IsExpr value
  isPlain : value.isPlain = true

/-- A string as a text. -/
structure StringText where
  text : Fragment
  literal : Bytes
  isToken : text.IsToken .string literal

/-- A clause of a field definition. -/
inductive Clause where
  | flexible
  | readonly
  | type (t : TypeText)
  | default (e : ExprText) (h : (e.text.passage.token 0).isKeyword "ALWAYS" = false)
  | defaultAlways (e : ExprText)
  | value (e : ExprText)
  | assert (e : ExprText)
  | comment (c : StringText)

/-- The parts of a field definition that clauses set. -/
inductive Slot where
  | flexible | readonly | type | default | value | assert | comment
deriving DecidableEq

namespace Clause

/-- The part that a clause sets. Both forms of a default set the same one. -/
def slot : Clause → Slot
  | flexible => .flexible
  | readonly => .readonly
  | type _ => .type
  | default _ _ | defaultAlways _ => .default
  | value _ => .value
  | assert _ => .assert
  | comment _ => .comment

def texts : Clause → List Fragment
  | flexible => [Keyword.flexible.fragment]
  | readonly => [Keyword.readonly.fragment]
  | type t => [Keyword.type.fragment, t.text]
  | default e _ => [Keyword.default.fragment, e.text]
  | defaultAlways e => [Keyword.default.fragment, Keyword.always.fragment, e.text]
  | value e => [Keyword.value.fragment, e.text]
  | assert e => [Keyword.assert.fragment, e.text]
  | comment c => [Keyword.comment.fragment, c.text]

/-- The field with what a clause says of it, without places. -/
def set (d : FieldDef) : Clause → FieldDef
  | flexible => { d with flexible := true }
  | readonly => { d with readonly := true }
  | type t => { d with kind := some t.kind }
  | default e _ | defaultAlways e => { d with default := some (e.value.view .unplaced) }
  | value e => { d with value := some (e.value.view .unplaced) }
  | assert e => { d with assert := some (e.value.view .unplaced) }
  | comment _ => d

/-- Clauses that set different parts may change places. -/
theorem set_comm {c c' : Clause} (h : c.slot ≠ c'.slot) (d : FieldDef) :
    set (set d c) c' = set (set d c') c := by
  cases c <;> cases c' <;> first | rfl | exact absurd rfl h

theorem trimmed_texts (c : Clause) : ∀ f ∈ c.texts, f.Trimmed := by
  cases c with
  | flexible => simp [texts, Keyword.trimmed_fragment]
  | readonly => simp [texts, Keyword.trimmed_fragment]
  | type t => simp [texts, Keyword.trimmed_fragment, t.trimmed]
  | comment c => simp [texts, Keyword.trimmed_fragment, c.isToken.trimmed]
  | default e _ | defaultAlways e | value e | assert e =>
    simp [texts, Keyword.trimmed_fragment, e.trimmed]

/-- A clause starts with a word that ends the part before it. -/
theorem isBreak_of_laid (c : Clause) {fs : List Fragment} (h : s.Laid m (c.texts ++ fs)) :
    (s.token m).IsBreak := by
  have hword : ∀ k : Keyword, k.startsClause = true → ∀ gs, s.Laid m (k.fragment :: gs) →
      (s.token m).IsBreak :=
    fun k hk _ h => .inr ⟨_, k.text_mem_clauseWords hk, h.word.2.1⟩
  cases c with
  | flexible => exact hword .flexible rfl _ h
  | readonly => exact hword .readonly rfl _ h
  | type t => exact hword .type rfl _ h
  | default e _ | defaultAlways e => exact hword .default rfl _ h
  | value e => exact hword .value rfl _ h
  | assert e => exact hword .assert rfl _ h
  | comment c => exact hword .comment rfl _ h

end Clause

/-! ## Reading clauses -/

/-- What follows a clause ends it: another one, or nothing. -/
theorem isBreak_of_laid_clauses (hs : s.Sound) {cs : List Clause}
    (h : s.Laid m (cs.flatMap Clause.texts)) : (s.token m).IsBreak := by
  cases cs with
  | nil =>
    cases h
    exact .inl (hs.kind_end le_rfl)
  | cons c cs =>
    rw [List.flatMap_cons] at h
    exact c.isBreak_of_laid h

section Reading

variable {fs : List Fragment} (hfs : ∀ n, s.Laid n fs → (s.token n).IsBreak)

include hfs

/-- An expression is read up to what follows the clause. -/
theorem ExprText.read (e : ExprText) (h : s.Laid m (e.text :: fs)) :
    ∃ v n, Value.view .unplaced v = e.value.view .unplaced ∧ m < n ∧ s.Laid n fs ∧
      Surql.value (s.cursor m) = .ok (v, s.cursor n) := by
  have hpos : 0 < e.text.length := List.length_pos_iff.2 e.text.tokens_ne_nil
  obtain ⟨v, hv, hread⟩ := h.value_eq e.isExpr e.isPlain (hfs _ h.head.2)
  exact ⟨v, _, hv, by omega, h.head.2, hread⟩

/-- A clause is read up to what follows it, and sets its part of the definition. -/
theorem Clause.read (c : Clause) (h : s.Laid m (c.texts ++ fs)) (d : FieldDef) :
    ∃ n d', m < s.length ∧ m < n ∧ s.Laid n fs ∧
      d'.view .unplaced = Clause.set (d.view .unplaced) c ∧
      fieldClause d (s.cursor m) = .ok (d', s.cursor n) := by
  cases c with
  | flexible =>
    obtain ⟨hm, hrest, hbody⟩ := Laid.clause rfl h d
    refine ⟨m + 1, { d with flexible := true }, hm, by omega, hrest, rfl, ?_⟩
    rw [hbody]
    rfl
  | readonly =>
    obtain ⟨hm, hrest, hbody⟩ := Laid.clause rfl h d
    refine ⟨m + 1, { d with readonly := true }, hm, by omega, hrest, rfl, ?_⟩
    rw [hbody]
    rfl
  | type t =>
    obtain ⟨hm, hrest, hbody⟩ := Laid.clause rfl h d
    have hkind := hrest.kind_eq t.isType (hfs _ hrest.head.2)
    refine ⟨_, { d with kind := some t.kind }, hm, by omega, hrest.head.2, rfl, ?_⟩
    rw [hbody, clauseBody, bind_ok hkind]
    rfl
  | default e hplain =>
    obtain ⟨hm, hrest, hbody⟩ := Laid.clause rfl h d
    obtain ⟨⟨_, E⟩, -⟩ := hrest.head
    have hnot : (s.token (m + 1)).isKeyword Keyword.always.text = false := by
      rw [← hplain]
      exact (E.token (i := 0) (List.length_pos_iff.2 e.text.tokens_ne_nil)).isKeyword_eq "ALWAYS"
    obtain ⟨v, n, hv, hn, hlaid, hread⟩ := e.read hfs hrest
    refine ⟨n, { d with default := some v }, hm, by omega, hlaid,
      by simp only [FieldDef.view, Clause.set, Option.map_some, hv], ?_⟩
    rw [hbody, clauseBody, bind_ok (discard_ok (acceptKeyword_false hnot)), bind_ok hread]
    rfl
  | defaultAlways e =>
    obtain ⟨hm, hrest, hbody⟩ := Laid.clause rfl h d
    obtain ⟨hm', hword', hrest⟩ := hrest.word
    obtain ⟨v, n, hv, hn, hlaid, hread⟩ := e.read hfs hrest
    refine ⟨n, { d with default := some v }, hm, by omega, hlaid,
      by simp only [FieldDef.view, Clause.set, Option.map_some, hv], ?_⟩
    rw [hbody, clauseBody, bind_ok (discard_ok (acceptKeyword_true hm' hword')), bind_ok hread]
    rfl
  | value e =>
    obtain ⟨hm, hrest, hbody⟩ := Laid.clause rfl h d
    obtain ⟨v, n, hv, hn, hlaid, hread⟩ := e.read hfs hrest
    refine ⟨n, { d with value := some v }, hm, by omega, hlaid,
      by simp only [FieldDef.view, Clause.set, Option.map_some, hv], ?_⟩
    rw [hbody, clauseBody, bind_ok hread]
    rfl
  | assert e =>
    obtain ⟨hm, hrest, hbody⟩ := Laid.clause rfl h d
    obtain ⟨v, n, hv, hn, hlaid, hread⟩ := e.read hfs hrest
    refine ⟨n, { d with assert := some v }, hm, by omega, hlaid,
      by simp only [FieldDef.view, Clause.set, Option.map_some, hv], ?_⟩
    rw [hbody, clauseBody, bind_ok hread]
    rfl
  | comment c =>
    obtain ⟨hm, hrest, hbody⟩ := Laid.clause rfl h d
    obtain ⟨hm', -, -, hrest⟩ := hrest.token c.isToken
    refine ⟨_, d, hm, by omega, hrest, rfl, ?_⟩
    rw [hbody, clauseBody, bind_ok (discard_ok (advance_ok hm'))]
    rfl

end Reading

/-- Clauses are read one after the other, and each sets its part. -/
theorem untilEnd_clauses (hs : s.Sound) {cs : List Clause} (h : s.Laid m (cs.flatMap Clause.texts))
    (fuel : Nat) (hf : s.length < m + fuel) (d : FieldDef) :
    ∃ d' : FieldDef, d'.view .unplaced = cs.foldl Clause.set (d.view .unplaced) ∧
      untilEnd fieldClause fuel d (s.cursor m) = .ok (d', s.cursor s.length) := by
  induction cs generalizing m fuel d with
  | nil =>
    cases h
    obtain ⟨fuel, rfl⟩ : ∃ k, fuel = k + 1 := ⟨fuel - 1, by omega⟩
    exact ⟨d, rfl, untilEnd_end⟩
  | cons c cs ih =>
    rw [List.flatMap_cons] at h
    obtain ⟨n, d', hm, hmn, hlaid, hset, hread⟩ :=
      c.read (fun n hn => isBreak_of_laid_clauses hs hn) h d
    obtain ⟨fuel, rfl⟩ : ∃ k, fuel = k + 1 := ⟨fuel - 1, by omega⟩
    obtain ⟨d'', hsets, hrest⟩ := ih hlaid fuel (by omega) d'
    refine ⟨d'', by rw [hsets, hset]; rfl, ?_⟩
    rw [untilEnd_step hm hread, hrest]

/-! ## Definitions of fields -/

def fieldText (name : FieldName) (table : TableName) (cs : List Clause) : Bytes :=
  Fragment.written (fieldIntro name table ++ cs.flatMap Clause.texts)

/-- The field that clauses define, without places. -/
def fieldOf (name : FieldName) (table : TableName) (cs : List Clause) : FieldDef :=
  cs.foldl Clause.set { pos := 0, name := name.name, table := table.name }

/-- What clauses define does not depend on their order, if no two of them set the same part. -/
theorem fieldOf_perm (name : FieldName) (table : TableName) {cs cs' : List Clause}
    (hslots : (cs.map Clause.slot).Nodup) (hperm : cs'.Perm cs) :
    fieldOf name table cs' = fieldOf name table cs := by
  refine hperm.foldl_eq' (fun c hc c' hc' d => ?_) _
  by_cases hslot : c.slot = c'.slot
  · rw [List.inj_on_of_nodup_map hslots (hperm.subset hc) (hperm.subset hc') hslot]
  · exact Clause.set_comm hslot d

/-- The text of a field definition is read as the field that its clauses define. -/
theorem parse_fieldText (name : FieldName) (table : TableName) (cs : List Clause) :
    ∃ d : FieldDef, d.view .unplaced = fieldOf name table cs ∧
      parse (fieldText name table cs) = .ok [.field d] := by
  have htrimmed : ∀ f ∈ fieldIntro name table ++ cs.flatMap Clause.texts, f.Trimmed := by
    refine List.forall_mem_append.2 ⟨trimmed_fieldIntro name table, fun f hf => ?_⟩
    obtain ⟨c, -, hf⟩ := List.mem_flatMap.1 hf
    exact c.trimmed_texts f hf
  obtain ⟨f, hsrc, hlaid⟩ := Fragment.exists_written (by simp [fieldIntro])
    fun f hf => htrimmed f (List.dropLast_subset _ hf)
  obtain ⟨n, hclauses, hread⟩ := read_fieldIntro name table hlaid
  obtain ⟨d, hd, hall⟩ := untilEnd_clauses f.sound hclauses (f.passage.length - n + 1) (by omega)
    { pos := (f.passage.token 0).start.offset, name := name.name, table := table.name }
  refine ⟨d, hd, ?_⟩
  rw [fieldText, ← hsrc, f.parse_eq_ok]
  exact ⟨_, by rw [hread, bind_ok hall]; rfl⟩

/-- Clauses of which no two set the same part may stand in any order: each text is read as one
field, with everything that the clauses say, and only the places differ. -/
theorem parse_fieldText_perm (name : FieldName) (table : TableName) {cs cs' : List Clause}
    (hslots : (cs.map Clause.slot).Nodup) (hperm : cs'.Perm cs) :
    ∃ d : FieldDef, d.view .unplaced = fieldOf name table cs ∧
      parse (fieldText name table cs') = .ok [.field d] := by
  rw [← fieldOf_perm name table hslots hperm]
  exact parse_fieldText name table cs'

/-- A text that is read alone as a plain expression. -/
theorem ExprText.exists_of_readAll (src : Bytes)
    (h : (Fragment.readAll Surql.value src).map Value.isPlain = some true) :
    ∃ e : ExprText, e.text.src = src := by
  obtain ⟨v, hv, hplain⟩ := Option.map_eq_some_iff.1 h
  obtain ⟨f, hsrc, htrimmed, hread⟩ := Fragment.exists_of_readAll hv
  exact ⟨⟨f, htrimmed, v, hread, hplain⟩, hsrc⟩

theorem TypeText.exists_of_readAll (src : Bytes) (h : (Fragment.readAll Surql.kind src).isSome) :
    ∃ t : TypeText, t.text.src = src := by
  obtain ⟨k, hk⟩ := Option.isSome_iff_exists.1 h
  obtain ⟨f, hsrc, htrimmed, hread⟩ := Fragment.exists_of_readAll hk
  exact ⟨⟨f, htrimmed, k, hread⟩, hsrc⟩

/-- A chain of operators, a cast of a parameter and a union type, each before a clause and at the
end. -/
theorem parse_fieldText_perm_chain :
    ∃ (name : FieldName) (table : TableName) (cs cs' : List Clause),
    (cs.map Clause.slot).Nodup ∧ cs'.Perm cs ∧
    fieldText name table cs =
      "DEFINE FIELD f ON t TYPE int | array<int, 2> DEFAULT ALWAYS [1] + (2) ASSERT <int> $value > max(1) READONLY" ∧
    fieldText name table cs' =
      "DEFINE FIELD f ON t READONLY ASSERT <int> $value > max(1) DEFAULT ALWAYS [1] + (2) TYPE int | array<int, 2>" ∧
    ∃ d : FieldDef, d.view .unplaced = fieldOf name table cs ∧
      parse (fieldText name table cs') = .ok [.field d] := by
  obtain ⟨t, ht⟩ := TypeText.exists_of_readAll "int | array<int, 2>" (by decide +kernel)
  obtain ⟨e, he⟩ := ExprText.exists_of_readAll "[1] + (2)" (by decide +kernel)
  obtain ⟨e', he'⟩ := ExprText.exists_of_readAll "<int> $value > max(1)" (by decide +kernel)
  let name : FieldName := .ofToken (Fragment.isToken_word "f" (by decide +kernel))
    (by decide +kernel)
  let table : TableName := ⟨_, _, _, false,
    Fragment.isToken_word "t" (by decide +kernel), by decide, fun _ _ => by decide +kernel⟩
  let cs : List Clause := [.type t, .defaultAlways e, .assert e', .readonly]
  have hslots : (cs.map Clause.slot).Nodup := by
    show [Slot.type, .default, .assert, .readonly].Nodup
    decide
  have hperm : cs.reverse.Perm cs := List.reverse_perm cs
  refine ⟨name, table, cs, cs.reverse, hslots, hperm, ?_, ?_,
    parse_fieldText_perm name table hslots hperm⟩
  · show Bytes.join " " ["DEFINE", "FIELD", "f", "ON", "t", "TYPE", t.text.src, "DEFAULT", "ALWAYS",
      e.text.src, "ASSERT", e'.text.src, "READONLY"] = _
    rw [ht, he, he']
    decide +kernel
  · show Bytes.join " " ["DEFINE", "FIELD", "f", "ON", "t", "READONLY", "ASSERT", e'.text.src,
      "DEFAULT", "ALWAYS", e.text.src, "TYPE", t.text.src] = _
    rw [ht, he, he']
    decide +kernel

/-- What the fields of a text are like, if it can be read. -/
def fieldsBy {α : Type} (f : FieldDef → α) (src : Bytes) : Option (List α) :=
  (parse src).toOption.map fun statements => (fields statements).map f

def Value.literalText? : Value → Option Bytes
  | literal _ _ raw _ => some raw
  | _ => none

/-- Two defaults set one part, so the order decides between them. Words are read as keywords where a
clause would not expect them: a key after `true` ends its clause and takes the rest with it, a table
called `table` gives its place to the next word, and a field called `on` or a key of `always` cannot
be read at all. -/
theorem clause_order_matters :
    fieldsBy (·.default.bind Value.literalText?) "DEFINE FIELD f ON t DEFAULT 1 DEFAULT ALWAYS 2" =
      some [some ("2" : Bytes)] ∧
    fieldsBy (·.default.bind Value.literalText?) "DEFINE FIELD f ON t DEFAULT ALWAYS 2 DEFAULT 1" =
      some [some ("1" : Bytes)] ∧
    fieldsBy (·.readonly) "DEFINE FIELD f ON t READONLY VALUE true:1" = some [true] ∧
    fieldsBy (·.readonly) "DEFINE FIELD f ON t VALUE true:1 READONLY" = some [false] ∧
    fieldsBy (·.table) "DEFINE FIELD f ON `table` FLEXIBLE READONLY" = some [("FLEXIBLE" : Bytes)] ∧
    fieldsBy (·.table) "DEFINE FIELD f ON `table` READONLY FLEXIBLE" = some [("READONLY" : Bytes)] ∧
    fieldsBy (·.name) "DEFINE FIELD `on` ON t READONLY" = none ∧
    fieldsBy (·.name) "DEFINE FIELD f ON t DEFAULT always:1" = none := by
  decide +kernel

end AccessLayer.Surql
