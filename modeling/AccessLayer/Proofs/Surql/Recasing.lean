import AccessLayer.Proofs.Surql.Likeness.Statements

/-!
# Keywords in any case

Words of the language may be spelled in any case, and names keep the case that they are written in.
So the letters of identifiers can change their case without a change to what a statement means: it
is read as the same statement, in which a name is spelled as it is now, or it is refused at the same
token.

* `Span.Recased`: two statements that differ in the case of identifiers alone.
* `Span.Recased.likeness`: recased statements are alike for the readers.
* `ofSpan_recased`: recased statements are read as respelled ones, or fail at the same token.
-/

namespace AccessLayer.Surql

open Statement (ofSpan)
open Token (foldByte sameWord)

/-! ## Recased statements -/

/-- The same token, with the letters of an identifier in any case. -/
structure Token.Recased (t t' : Token) : Prop where
  kind : t'.kind = t.kind
  start : t'.start = t.start
  stop : t'.stop = t.stop
  literal : t'.literal = t.literal ∨ t.kind = .ident ∧ sameWord t.literal t'.literal = true

instance Token.Recased.decidable (t t' : Token) : Decidable (t.Recased t') :=
  decidable_of_iff (t'.kind = t.kind ∧ t'.start = t.start ∧ t'.stop = t.stop ∧
      (t'.literal = t.literal ∨ t.kind = .ident ∧ sameWord t.literal t'.literal = true))
    ⟨fun ⟨h1, h2, h3, h4⟩ => ⟨h1, h2, h3, h4⟩, fun ⟨h1, h2, h3, h4⟩ => ⟨h1, h2, h3, h4⟩⟩

theorem Token.Recased.refl (t : Token) : t.Recased t := ⟨rfl, rfl, rfl, .inl rfl⟩

theorem Token.Recased.sameWord {t t' : Token} (h : t.Recased t') :
    sameWord t.literal t'.literal := by
  obtain heq | ⟨-, hw⟩ := h.literal
  · rw [heq]
    exact Token.sameWord_refl _
  · exact hw

/-- The same statement, with the letters of its identifiers in any case. -/
structure Span.Recased (x x' : Span) : Prop where
  tokens : List.Forall₂ Token.Recased x.tokens x'.tokens
  stop : x'.stop = x.stop

instance Span.Recased.decidable (x x' : Span) : Decidable (x.Recased x') :=
  decidable_of_iff (List.Forall₂ Token.Recased x.tokens x'.tokens ∧ x'.stop = x.stop)
    ⟨fun ⟨h1, h2⟩ => ⟨h1, h2⟩, fun ⟨h1, h2⟩ => ⟨h1, h2⟩⟩

/-! ## Respelled statements -/

/-- Two equal texts, or what an identifier that starts at `p` is spelled like in two statements. -/
def Span.Spelled (x x' : Span) (p : Nat) (a b : Bytes) : Prop :=
  a = b ∨ ∃ t t', (t, t') ∈ x.tokens.zip x'.tokens ∧ t.kind = .ident ∧ t.start.offset = p ∧
    t.literal = a ∧ t'.literal = b ∧ sameWord a b = true

/-- Expressions that are equal but for texts, which are related at the place where they stand. -/
inductive Value.Respelled (R : Nat → Bytes → Bytes → Prop) : Value → Value → Prop
  | literal {p : Nat} {kind : LiteralKind} {a b : Bytes} {vs vs' : List Value} (h : R p a b)
    (hs : List.Forall₂ (Respelled R) vs vs') :
    Respelled R (.literal p kind a vs) (.literal p kind b vs')
  | param {p : Nat} {name : Bytes} : Respelled R (.param p name) (.param p name)
  | call {p : Nat} {kind : CallKind} {a b : Bytes} {vs vs' : List Value} (h : R p a b)
    (hs : List.Forall₂ (Respelled R) vs vs') : Respelled R (.call p kind a vs) (.call p kind b vs')
  | binary {p : Nat} {op : Bytes} {v v' w w' : Value} (hleft : Respelled R v v')
    (hright : Respelled R w w') : Respelled R (.binary p v op w) (.binary p v' op w')
  | other {p : Nat} {kind : OpaqueKind} {a b : Bytes} (h : R p a b) :
    Respelled R (.other p kind a) (.other p kind b)

/-- Table definitions that are equal but for the spelling of the name. -/
structure TableDef.Respelled (R : Nat → Bytes → Bytes → Prop) (d d' : TableDef) : Prop where
  pos : d'.pos = d.pos
  name : ∃ p, R p d.name d'.name
  schemafull : d'.schemafull = d.schemafull
  drop : d'.drop = d.drop

/-- Field definitions that are equal but for the spelling of names. -/
structure FieldDef.Respelled (R : Nat → Bytes → Bytes → Prop) (d d' : FieldDef) : Prop where
  pos : d'.pos = d.pos
  name : ∃ p, R p d.name d'.name
  table : ∃ p, R p d.table d'.table
  kind : d'.kind = d.kind
  value : Option.Rel (Value.Respelled R) d.value d'.value
  default : Option.Rel (Value.Respelled R) d.default d'.default
  assert : Option.Rel (Value.Respelled R) d.assert d'.assert
  flexible : d'.flexible = d.flexible
  readonly : d'.readonly = d.readonly

/-- Event definitions that are equal but for the spelling of names. -/
structure EventDef.Respelled (R : Nat → Bytes → Bytes → Prop) (d d' : EventDef) : Prop where
  pos : d'.pos = d.pos
  name : ∃ p, R p d.name d'.name
  table : ∃ p, R p d.table d'.table
  when? : Option.Rel (Value.Respelled R) d.when? d'.when?
  actions : List.Forall₂ (Value.Respelled R) d.actions d'.actions

/-- Statements of one sort that are equal but for the spelling of names. -/
inductive Statement.Respelled (R : Nat → Bytes → Bytes → Prop) : Statement → Statement → Prop
  | table {d d' : TableDef} (h : d.Respelled R d') : Respelled R (.table d) (.table d')
  | field {d d' : FieldDef} (h : d.Respelled R d') : Respelled R (.field d) (.field d')
  | event {d d' : EventDef} (h : d.Respelled R d') : Respelled R (.event d) (.event d')
  /-- Statements that are kept as their source text stay as they are. -/
  | define {p : Nat} {kind source : Bytes} :
  Respelled R (.define p kind source) (.define p kind source)
  | raw {p : Nat} {keyword source : Bytes} :
  Respelled R (.raw p keyword source) (.raw p keyword source)

/-! ## Recased statements are alike -/

namespace Span.Recased

variable {x x' : Span}

theorem length_eq (h : x.Recased x') : x'.tokens.length = x.tokens.length := h.tokens.length_eq.symm

/-- The tokens differ one by one in the case of identifiers. -/
theorem token (h : x.Recased x') (src : Bytes) (i : Nat) :
    Token.Recased (Passage.token ⟨src, x⟩ i) (Passage.token ⟨src, x'⟩ i) := by
  by_cases hi : i < x.tokens.length
  · have hi' : i < x'.tokens.length := h.length_eq ▸ hi
    have := h.tokens.get hi hi'
    rwa [List.get_eq_getElem, List.get_eq_getElem, Passage.getElem_eq_token ⟨src, x⟩ hi,
      Passage.getElem_eq_token ⟨src, x'⟩ hi'] at this
  · rw [Passage.token_of_le ⟨src, x⟩ (Nat.le_of_not_lt hi),
      Passage.token_of_le ⟨src, x'⟩ (h.length_eq.le.trans (Nat.le_of_not_lt hi)), h.stop]
    exact Token.Recased.refl _

theorem inOrder {stop lo : Nat} {ts ts' : List Token} (h : List.Forall₂ Token.Recased ts ts')
    (ho : InOrder stop lo ts) : InOrder stop lo ts' := by
  induction h generalizing lo with
  | nil => exact ho
  | cons h _ ih =>
    obtain ⟨hlo, hlt, ho⟩ := ho
    rw [InOrder, h.start, h.stop]
    exact ⟨hlo, hlt, ih ho⟩

theorem sound {src : Bytes} (h : x.Recased x') (hs : Passage.Sound ⟨src, x⟩) :
    Passage.Sound ⟨src, x'⟩ :=
  ⟨inOrder h.tokens hs.order, by rw [h.stop]; exact hs.stop⟩

theorem text_eq (h : x.Recased x') (src : Bytes) (i j : Nat) :
    Passage.text ⟨src, x'⟩ i j = Passage.text ⟨src, x⟩ i j := by
  rw [Passage.text, Passage.text, (h.token src i).start, (h.token src j).stop]

theorem eq_of_foldByte_colon : ∀ c ∈ ("::" : Bytes), ∀ b, foldByte b = c ↔ b = c := by
  intro c hc b
  have h : ∀ i : Fin 256, foldByte (UInt8.ofFin i) = 0x3A ↔ UInt8.ofFin i = 0x3A := by
    decide +kernel
  obtain rfl : c = 0x3A := List.eq_of_mem_replicate (n := 2) hc
  exact h b.toFin

/-- Recased statements are alike when texts are seen without their case. -/
def likeness {src : Bytes} (h : x.Recased x') (hs : Passage.Sound ⟨src, x⟩) :
    Likeness ⟨src, x⟩ ⟨src, x'⟩ where
  left := ⟨id, List.map foldByte⟩
  right := ⟨id, List.map foldByte⟩
  sound := hs
  sound' := h.sound hs
  length_eq := h.length_eq
  kind_eq i := (h.token src i).kind
  keyword_eq i w := by
    rw [Token.isKeyword, Token.isKeyword, (h.token src i).kind,
      Token.sameWord_left (h.token src i).sameWord]
  literal_eq i hk := (h.token src i).literal.resolve_right fun h => hk h.1
  upper_eq i := (Bytes.toUpper_eq_of_sameWord (h.token src i).sameWord).symm
  lower_eq i := (Bytes.toLower_eq_of_sameWord (h.token src i).sameWord).symm
  part_eq i := (Bytes.hasPart_eq_of_sameWord eq_of_foldByte_colon (h.token src i).sameWord).symm
  name_eq i := Token.sameWord_iff.1 (h.token src i).sameWord
  text_eq _ := rfl
  start_eq i _ := congrArg Position.offset (h.token src i).start.symm
  adjacent_eq i _ := by rw [(h.token src (i + 1)).start, (h.token src i).stop]
  slice_eq i j _ _ := h.text_eq src i j

/-! ## Statements of one layout -/

variable {src : Bytes}

theorem mem_zip (h : x.Recased x') {i : Nat} (hi : i < Passage.length ⟨src, x⟩) :
    (Passage.token ⟨src, x⟩ i, Passage.token ⟨src, x'⟩ i) ∈ x.tokens.zip x'.tokens := by
  have hi' : i < (x.tokens.zip x'.tokens).length := by
    rw [List.length_zip, h.length_eq, Nat.min_self]
    exact hi
  have := List.getElem_mem hi'
  rwa [List.getElem_zip, Passage.getElem_eq_token ⟨src, x⟩,
    Passage.getElem_eq_token ⟨src, x'⟩] at this

/-- Tokens of one number stand opposite each other, the end of input included. -/
theorem mem_zip_stop (h : x.Recased x') {i : Nat} (hi : i ≤ Passage.length ⟨src, x⟩) :
    (Passage.token ⟨src, x⟩ i, Passage.token ⟨src, x'⟩ i) ∈
      (x.tokens ++ [x.stop]).zip (x'.tokens ++ [x'.stop]) := by
  rw [List.zip_append h.length_eq.symm, List.mem_append]
  obtain hlt | rfl := hi.lt_or_eq
  · exact .inl (h.mem_zip hlt)
  · have hstop : Passage.token ⟨src, x'⟩ (Passage.length ⟨src, x⟩) = x'.stop :=
      Passage.token_of_le ⟨src, x'⟩ h.length_eq.le
    rw [Passage.token_of_le ⟨src, x⟩ le_rfl, hstop]
    exact .inr List.mem_cons_self

/-- A token is spelled in two ways at its place. -/
theorem spelled (h : x.Recased x') {i : Nat} (hi : i < Passage.length ⟨src, x⟩) :
    x.Spelled x' (Passage.token ⟨src, x⟩ i).start.offset (Passage.token ⟨src, x⟩ i).literal
      (Passage.token ⟨src, x'⟩ i).literal := by
  obtain heq | ⟨hk, hw⟩ := (h.token src i).literal
  · exact .inl heq.symm
  · exact .inr ⟨_, _, h.mem_zip hi, hk, rfl, rfl, rfl, hw⟩

mutual

theorem respelled_value (h : x.Recased x') (e : Layout) {m n : Nat}
    (he : Passage.Fits ⟨src, x⟩ e m n) :
    Value.Respelled (x.Spelled x') (e.value ⟨src, x⟩) (e.value ⟨src, x'⟩) := by
  have hstart : ∀ i, (Passage.token ⟨src, x'⟩ i).start = (Passage.token ⟨src, x⟩ i).start :=
    fun i => (h.token src i).start
  have hm := he.lt.trans_le he.le
  cases he with
  | token =>
    rw [Layout.value, Layout.value, hstart]
    exact .literal (h.spelled hm) .nil
  | flat =>
    rw [Layout.value, Layout.value, hstart, h.text_eq]
    exact .literal (.inl rfl) .nil
  | array _ he | object _ he =>
    rw [Layout.value, Layout.value, hstart, h.text_eq]
    exact .literal (.inl rfl) (respelled_values h _ he)
  | param _ hk =>
    have hlit := (h.token src m).literal.resolve_right fun h => by
      rw [hk] at h
      cases h.1
    rw [Layout.value, Layout.value, hstart, hlit]
    exact .param
  | call _ _ he =>
    rw [Layout.value, Layout.value, hstart]
    exact .call (h.spelled hm) (respelled_values h _ he)
  | script _ _ he =>
    rw [Layout.value, Layout.value, hstart]
    exact .call (.inl rfl) (respelled_values h _ he)
  | cast _ _ he =>
    rw [Layout.value, Layout.value, hstart]
    exact .call (.inl rfl) (.cons (respelled_value h _ he) .nil)
  | binary hleft _ hright =>
    rw [Layout.value, Layout.value, hstart]
    exact .binary (respelled_value h _ hleft) (respelled_value h _ hright)
  | name =>
    rw [Layout.value, Layout.value, hstart]
    exact .other (h.spelled hm)
  | source =>
    rw [Layout.value, Layout.value, hstart, h.text_eq]
    exact .other (.inl rfl)
termination_by structural e

theorem respelled_values (h : x.Recased x') (es : List Layout) {k m n : Nat}
    (hes : Passage.FitsAll ⟨src, x⟩ k es m n) :
    List.Forall₂ (Value.Respelled (x.Spelled x')) (Layout.values ⟨src, x⟩ es)
      (Layout.values ⟨src, x'⟩ es) := by
  cases hes with
  | nil => exact .nil
  | last he => exact .cons (respelled_value h _ he) .nil
  | cons he _ hes => exact .cons (respelled_value h _ he) (respelled_values h _ hes)
termination_by structural es

end

theorem spelled_name (h : x.Recased x') {l : NameLayout} (hl : l.Fits ⟨src, x⟩) :
    ∃ p, x.Spelled x' p (l.name ⟨src, x⟩) (l.name ⟨src, x'⟩) := by
  cases l with
  | token i => exact ⟨_, h.spelled hl⟩
  | text i j => exact ⟨0, .inl (h.text_eq src i (j - 1)).symm⟩

theorem respelled_option (h : x.Recased x') {e? : Option Layout}
    (he : ∀ e ∈ e?, ∃ m n, Passage.ReadsAs ⟨src, x⟩ e m n) :
    Option.Rel (Value.Respelled (x.Spelled x')) (e?.map (Layout.value ⟨src, x⟩))
      (e?.map (Layout.value ⟨src, x'⟩)) := by
  cases e? with
  | none => exact .none
  | some e =>
    obtain ⟨m, n, he⟩ := he e rfl
    exact .some (h.respelled_value e he.fits)

/-- Statements of one layout differ in the spelling of names alone. -/
theorem respelled_statement (h : x.Recased x') {l : StatementLayout} (hl : l.Fits ⟨src, x⟩) :
    (l.statement ⟨src, x⟩).Respelled (x.Spelled x') (l.statement ⟨src, x'⟩) := by
  have hstart := congrArg Position.offset (h.token src 0).start
  have hlen : Passage.length ⟨src, x'⟩ = Passage.length ⟨src, x⟩ := h.length_eq
  cases l with
  | table name => exact .table ⟨hstart, ⟨_, h.spelled hl⟩, rfl, rfl⟩
  | field l =>
    have hvalue : ∀ e ∈ l.value, ∃ m n, Passage.ReadsAs ⟨src, x⟩ e m n := fun e he => by
      obtain ⟨m, n, -, h⟩ := hl.value e he
      exact ⟨m + 1, n, h⟩
    exact .field ⟨hstart, h.spelled_name hl.name, ⟨_, h.spelled hl.table⟩, rfl,
      h.respelled_option hvalue,
      h.respelled_option hl.default, h.respelled_option hl.assert, rfl, rfl⟩
  | event l =>
    refine .event ⟨hstart, ⟨_, h.spelled hl.name⟩, ⟨_, h.spelled hl.table⟩,
      h.respelled_option hl.when?, ?_⟩
    rw [EventLayout.definition, EventLayout.definition, List.forall₂_map_left_iff,
      List.forall₂_map_right_iff, List.forall₂_same]
    intro e he
    obtain ⟨m, n, he⟩ := hl.actions e he
    exact h.respelled_value e he.fits
  | define =>
    rw [StatementLayout.statement, StatementLayout.statement, hstart, hlen, h.text_eq]
    exact .define
  | raw =>
    rw [StatementLayout.statement, StatementLayout.statement, hstart, hlen, h.text_eq]
    exact .raw

end Span.Recased

/-! ## The statements of recased spans -/

/-- A statement whose identifiers are spelled in another case is read as the same statement with
names in their new spelling, or both are refused with the same fault at the same token. -/
theorem ofSpan_recased {src : Bytes} {spans : List Span} {x x' : Span}
    (hspans : spansOf src = .ok spans) (hx : x ∈ spans) (h : x.Recased x') :
    (∃ st st', ofSpan src x = .ok st ∧ ofSpan src x' = .ok st' ∧
      st.Respelled (x.Spelled x') st') ∨
    ∃ fault t t', (t, t') ∈ (x.tokens ++ [x.stop]).zip (x'.tokens ++ [x'.stop]) ∧
      ofSpan src x = .error ⟨ParseFault.about t fault, t.start⟩ ∧
      ofSpan src x' = .error ⟨ParseFault.about t' fault, t.start⟩ := by
  obtain ⟨hs, hpos⟩ := Passage.sound_of_mem hspans hx
  obtain ⟨l, hl, hst, hst'⟩ | ⟨_, _, he, he', fault, i, -, hi, rfl, rfl⟩ :=
    (h.likeness hs).ofSpan_layout hpos
  · exact .inl ⟨_, _, hst, hst', h.respelled_statement hl⟩
  · rw [(h.token src i).start] at he'
    exact .inr ⟨fault, _, _, h.mem_zip_stop hi, he, he'⟩

/-- Keywords, functions and names in small letters, and the same statement in capitals. -/
theorem ofSpan_recased_capitals :
    ∃ (src src' : Bytes) (spans spans' : List Span) (x x' : Span) (st st' : Statement),
    src = "define field name on user type string value string::trim($value) is not none" ∧
    src' = "DEFINE FIELD NAME ON USER TYPE STRING VALUE STRING::TRIM($value) IS NOT NONE" ∧
    spansOf src = .ok spans ∧ x ∈ spans ∧ spansOf src' = .ok spans' ∧ x' ∈ spans' ∧ x.Recased x' ∧
      x ≠ x' ∧
    ofSpan src x = .ok st ∧ ofSpan src x' = .ok st' ∧ st.Respelled (x.Spelled x') st' := by
  have h : (spansOf
      "define field name on user type string value string::trim($value) is not none").toOption.any
      (fun spans => (spansOf
        "DEFINE FIELD NAME ON USER TYPE STRING VALUE STRING::TRIM($value) IS NOT NONE").toOption.any
          fun spans' =>
          spans.any fun x => spans'.any fun x' => decide (x.Recased x' ∧ x ≠ x') && (ofSpan
            "define field name on user type string value string::trim($value) is not none"
              x).isOk) = true := by
    decide +kernel
  obtain ⟨spans, hspans, h⟩ := (Option.any_eq_true _ _).1 h
  obtain ⟨spans', hspans', h⟩ := (Option.any_eq_true _ _).1 h
  rw [toOption_eq_some] at hspans hspans'
  obtain ⟨x, hx, h⟩ := List.any_eq_true.1 h
  obtain ⟨x', hx', h⟩ := List.any_eq_true.1 h
  rw [Bool.and_eq_true, decide_eq_true_iff] at h
  obtain ⟨⟨hr, hne⟩, hok⟩ := h
  obtain ⟨st, st', hst, hst', hre⟩ | ⟨fault, t, t', -, he, -⟩ := ofSpan_recased hspans hx hr
  · exact ⟨_, _, spans, spans', x, x', st, st', rfl, rfl, hspans, hx, hspans', hx', hr, hne, hst,
      hst', hre⟩
  · rw [he] at hok
    cases hok

end AccessLayer.Surql
