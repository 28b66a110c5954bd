import AccessLayer.Proofs.Surql.Passage
import AccessLayer.Proofs.Surql.WordCase
import AccessLayer.Surql.Parse.Value

/-!
# Precedence climbing

Whatever expression is read, from whatever tokens, its operators are nested by how tightly they
bind. The operators of one chain stand in the tree in the order of their tokens, and reading stops
only before a token that is no operator or one that binds too loosely.

* `BinaryOp.precOf`: how tightly an operator binds, by its name.
* `Value.operators`, `Value.parts`: the operators and operands of a chain from left to right.
* `exprFuel_climbs`: what is read climbs, reproduces its tokens and stops where it should.
-/

namespace AccessLayer.Surql

variable {c c' c₁ : Cursor}

/-! ## Operators by name -/

namespace BinaryOp

variable {op : BinaryOp}

def all : List BinaryOp :=
  [⟨"<", 6, 1⟩, ⟨">", 6, 1⟩, ⟨"OR", 1, 1⟩, ⟨"AND", 2, 1⟩, ⟨"IS", 4, 1⟩, ⟨"IS NOT", 4, 2⟩,
    ⟨"NOT IN", 5, 2⟩, ⟨"NOT INSIDE", 5, 2⟩] ++
  wordOps.map (⟨·, 5, 1⟩) ++ symbolPrec.map fun entry => ⟨entry.1, entry.2, 1⟩

/-- How tightly the operator with a name binds. -/
def precOf (name : Bytes) : Nat := ((all.find? (·.name == name)).map (·.prec)).getD 0

/-- How many tokens the operator with a name takes. -/
def widthOf (name : Bytes) : Nat := ((all.find? (·.name == name)).map (·.width)).getD 0

/-- What a token stands for in the name of an operator. -/
def wordOf (t : Token) : Bytes :=
  match t.kind with
  | .lt => "<"
  | .gt => ">"
  | .ident => Bytes.toUpper t.literal
  | _ => t.literal

/-- The tokens spell the operator with a name: there are as many as it takes, and they make up its
name. -/
def Spelled (name : Bytes) (ts : List Token) : Prop :=
  ts.length = widthOf name ∧ Bytes.join " " (ts.map wordOf) = name

/-- An operator is known by its name. -/
theorem of_mem_all (h : op ∈ all) : precOf op.name = op.prec ∧ widthOf op.name = op.width := by
  have hall : (all.all fun op => precOf op.name == op.prec && widthOf op.name == op.width) =
      true := by
    decide
  simpa using List.all_eq_true.1 hall op h

theorem mem_all_of_word {word : Bytes} (h : word ∈ wordOps) : ⟨word, 5, 1⟩ ∈ all :=
  List.mem_append_left _ (List.mem_append_right _ (List.mem_map_of_mem h))

theorem mem_all_of_symbol {symbol : Bytes} {prec : Nat} (h : symbolPrec.lookup symbol = some prec) :
    ⟨symbol, prec, 1⟩ ∈ all := by
  obtain ⟨before, after, htable, -⟩ := List.lookup_eq_some_iff.1 h
  exact List.mem_append_right _ (List.mem_map.2 ⟨(symbol, prec), by simp [htable], rfl⟩)

/-- The operator that a word is has the word as its name, or the word and the next one. -/
theorem ofWord?_name {word : Bytes} {next : Token} (h : ofWord? word next = some op) :
    op ∈ all ∧ (op.width = 1 ∧ op.name = word ∨
      op.width = 2 ∧ next.kind = .ident ∧ op.name = word ++ " " ++ Bytes.toUpper next.literal) := by
  unfold ofWord? at h
  split_ifs at h with hor hand his hnot hword hin hops <;> cases h
  · rw [beq_iff_eq.1 hor]
    exact ⟨by simp [all], .inl ⟨rfl, rfl⟩⟩
  · rw [beq_iff_eq.1 hand]
    exact ⟨by simp [all], .inl ⟨rfl, rfl⟩⟩
  · obtain ⟨hident, hupper⟩ := Token.toUpper_of_isKeyword hnot (by decide)
    rw [hupper, beq_iff_eq.1 his]
    exact ⟨by simp [all], .inr ⟨rfl, hident, by decide⟩⟩
  · rw [beq_iff_eq.1 his]
    exact ⟨by simp [all], .inl ⟨rfl, rfl⟩⟩
  · rw [beq_iff_eq.1 hword]
    obtain hin | hin := Bool.or_eq_true_iff.1 hin
    · obtain ⟨hident, hupper⟩ := Token.toUpper_of_isKeyword hin (by decide)
      have hname : ("NOT " : Bytes) ++ "IN" = "NOT IN" := by decide
      rw [hupper, hname]
      exact ⟨by simp [all], .inr ⟨rfl, hident, by decide⟩⟩
    · obtain ⟨hident, hupper⟩ := Token.toUpper_of_isKeyword hin (by decide)
      have hname : ("NOT " : Bytes) ++ "INSIDE" = "NOT INSIDE" := by decide
      rw [hupper, hname]
      exact ⟨by simp [all], .inr ⟨rfl, hident, by decide⟩⟩
  · exact ⟨mem_all_of_word (by simpa using hops), .inl ⟨rfl, rfl⟩⟩

/-- The operator at a cursor has the first token as its name, or the first two. -/
theorem at?_name (h : at? c = some op) :
    op ∈ all ∧ c.peek.kind ∈ [.lt, .gt, .operator, .ident] ∧
      (op.width = 1 ∧ op.name = wordOf c.peek ∨
      op.width = 2 ∧ (c.peekAt 1).kind = .ident ∧
        op.name = wordOf c.peek ++ " " ++ wordOf (c.peekAt 1)) := by
  unfold at? at h
  dsimp only at h
  simp only [wordOf]
  split at h
  · next hk =>
    cases h
    exact ⟨by simp [all], by simp [hk], .inl ⟨rfl, by rw [hk]⟩⟩
  · next hk =>
    cases h
    exact ⟨by simp [all], by simp [hk], .inl ⟨rfl, by rw [hk]⟩⟩
  · next hk =>
    obtain ⟨prec, hprec, rfl⟩ := Option.map_eq_some_iff.1 h
    exact ⟨mem_all_of_symbol hprec, by simp [hk], .inl ⟨rfl, by rw [hk]⟩⟩
  · next hk =>
    obtain ⟨hmem, hone | ⟨hwidth, hnext, hname⟩⟩ := ofWord?_name h
    · exact ⟨hmem, by simp [hk], .inl ⟨hone.1, by rw [hk, hone.2]⟩⟩
    · exact ⟨hmem, by simp [hk], .inr ⟨hwidth, hnext, by rw [hk, hnext, hname]⟩⟩
  · cases h

/-- The tokens of the operator at a cursor spell it. -/
theorem at?_spelled (h : at? c = some op) (hw : op.width ≤ c.rest.length) :
    precOf op.name = op.prec ∧ Spelled op.name (c.rest.take op.width) := by
  obtain ⟨hmem, -, hname⟩ := at?_name h
  obtain ⟨hprec, hwidth⟩ := of_mem_all hmem
  refine ⟨hprec, ?_, ?_⟩
  · rw [hwidth, List.length_take_of_le hw]
  · unfold Cursor.peek Cursor.peekAt at hname
    obtain ⟨hone, hname⟩ | ⟨htwo, -, hname⟩ := hname
    · rw [hone] at hw ⊢
      obtain ⟨t, ts, hrest⟩ := List.exists_cons_of_length_pos hw
      rw [hname, hrest]
      rfl
    · rw [htwo] at hw ⊢
      obtain ⟨t, ts, hrest⟩ :=
        List.exists_cons_of_length_pos (Nat.lt_of_lt_of_le Nat.zero_lt_two hw)
      rw [hrest, List.length_cons] at hw
      obtain ⟨t', ts', rfl⟩ := List.exists_cons_of_length_pos (Nat.le_of_succ_le_succ hw)
      rw [hname, hrest]
      rfl

end BinaryOp

/-! ## Chains of operators -/

/-- A part of a chain of operators: an operand, or an operator by its name. -/
inductive ChainPart where
  | operand (v : Value)
  | operator (name : Bytes)

namespace Value

variable {v : Value}

/-- How tightly the outermost operator binds, if there is one. -/
def prec? : Value → Option Nat
  | binary _ _ op _ => some (BinaryOp.precOf op)
  | _ => none

/-- The operators that are reached from the root through left and right operands, from left to
right. -/
def operators : Value → List Bytes
  | binary _ left op right => left.operators ++ op :: right.operators
  | _ => []

/-- The operands and operators of the outermost chain, from left to right. -/
def parts : Value → List ChainPart
  | binary _ left op right => left.parts ++ .operator op :: right.parts
  | v => [.operand v]

mutual

/-- In every part of an expression, a left operand with an operator of its own binds at least as
tightly as the operator it belongs to, and a right one more tightly. -/
def Climbs : Value → Prop
  | literal _ _ _ elems => ClimbAll elems
  | param _ _ => True
  | call _ _ _ args => ClimbAll args
  | binary _ left op right =>
    Climbs left ∧ Climbs right ∧ (∀ p, left.prec? = some p → BinaryOp.precOf op ≤ p) ∧
      ∀ p, right.prec? = some p → BinaryOp.precOf op < p
  | other _ _ _ => True

/-- The same of each of several expressions. -/
def ClimbAll : List Value → Prop
  | [] => True
  | v :: vs => Climbs v ∧ ClimbAll vs

end

/-- An expression without outermost operator. -/
def IsOperand (v : Value) : Prop := v.Climbs ∧ v.prec? = none

theorem parts_of_prec? (h : v.prec? = none) : v.parts = [.operand v] := by
  cases v <;> first | rfl | cases h

theorem operators_of_prec? (h : v.prec? = none) : v.operators = [] := by
  cases v <;> first | rfl | cases h

theorem le_of_prec? {p least : Nat} (h : v.prec? = some p)
    (hleast : ∀ name ∈ v.operators, least ≤ BinaryOp.precOf name) : least ≤ p := by
  cases v with
  | binary _ left op right =>
    cases h
    exact hleast op (by simp [operators])
  | _ => cases h

end Value

/-! ## Tokens that are read -/

namespace Cursor

/-- Reading takes the tokens from the one cursor to the other. -/
def Consumes (c : Cursor) (ts : List Token) (c' : Cursor) : Prop :=
  c.rest = ts ++ c'.rest ∧ c' = c.skip ts.length

theorem rest_skip (n : Nat) (c : Cursor) : (c.skip n).rest = c.rest.drop n := by
  induction n generalizing c with
  | zero => rfl
  | succ n ih =>
    rw [skip, ih, advance]
    split
    · next h => rw [h, List.drop_nil, List.drop_nil]
    · next h => rw [h, List.drop_succ_cons]

theorem skip_add (m n : Nat) (c : Cursor) : c.skip (m + n) = (c.skip m).skip n := by
  induction m generalizing c with
  | zero => rw [Nat.zero_add, skip]
  | succ m ih => rw [Nat.succ_add, skip, skip, ih]

theorem consumes_skip {n : Nat} (h : n ≤ c.rest.length) :
    c.Consumes (c.rest.take n) (c.skip n) := by
  refine ⟨?_, ?_⟩
  · rw [rest_skip, List.take_append_drop]
  · rw [List.length_take_of_le h]

namespace Consumes

theorem refl (c : Cursor) : c.Consumes [] c := ⟨rfl, rfl⟩

theorem trans {c₂ : Cursor} {ts us : List Token} (h : c.Consumes ts c₁) (h' : c₁.Consumes us c₂) :
    c.Consumes (ts ++ us) c₂ := by
  refine ⟨by rw [h.1, h'.1, List.append_assoc], ?_⟩
  rw [h'.2, h.2, List.length_append, skip_add]

/-- What is left of the tokens after a part of them was read. -/
theorem of_append {c₂ : Cursor} {ts us : List Token} (h : c.Consumes (ts ++ us) c₂)
    (h₁ : c.Consumes ts c₁) : c₁.Consumes us c₂ := by
  refine ⟨?_, ?_⟩
  · rw [← List.append_cancel_left_eq ts, ← h₁.1, h.1, List.append_assoc]
  · rw [h.2, h₁.2, List.length_append, skip_add]

end Consumes

end Cursor

/-- What a reader of an operand reads, with the fuel that is left. -/
def operandFuel (fuel : Nat) : Reader Value :=
  Value.unary (Value.withTail (Value.primary (exprFuel fuel 1) fuel) fuel) (kindFuel fuel)
    (fuel + 1)

/-- The parts of a chain are what is read from the tokens one after the other: an operand by the
reader of operands, an operator from the tokens that spell it. -/
inductive Reproduces : Cursor → List ChainPart → List Token → Prop where
  | nil {c : Cursor} : Reproduces c [] []
  | operand {c c' : Cursor} {ts us : List Token} {v : Value} {parts : List ChainPart} {fuel : Nat}
      (hc : c.Consumes ts c') (hv : operandFuel fuel c = .ok (v, c')) (h : Reproduces c' parts us) :
      Reproduces c (.operand v :: parts) (ts ++ us)
  | operator {c c' : Cursor} {ts us : List Token} {name : Bytes} {parts : List ChainPart}
      (hc : c.Consumes ts c') (hname : BinaryOp.Spelled name ts) (h : Reproduces c' parts us) :
      Reproduces c (.operator name :: parts) (ts ++ us)

theorem Reproduces.append {parts parts' : List ChainPart} {ts us : List Token}
    (h : Reproduces c parts ts) (hc : c.Consumes ts c') (h' : Reproduces c' parts' us) :
    Reproduces c (parts ++ parts') (ts ++ us) := by
  induction h generalizing c' with
  | nil =>
    obtain rfl := hc.2
    exact h'
  | operand hc₁ hv _ ih =>
    rw [List.append_assoc]
    exact .operand hc₁ hv (ih (hc.of_append hc₁) h')
  | operator hc₁ hname _ ih =>
    rw [List.append_assoc]
    exact .operator hc₁ hname (ih (hc.of_append hc₁) h')

/-! ## What readers give -/

namespace Reader

/-- Whatever a reader returns has a property, and the reader takes some of the tokens. -/
def Gives {α : Type} (r : Reader α) (P : α → Prop) : Prop :=
  ∀ c a c', r c = .ok (a, c') → (∃ ts, c.Consumes ts c') ∧ P a

/-- A reader of which only the tokens matter. -/
def Moves {α : Type} (r : Reader α) : Prop := r.Gives fun _ => True

section Rules

variable {α β : Type} {r : Reader α} {f : α → Reader β} {P : α → Prop} {Q : β → Prop}

theorem Gives.bind (hr : r.Gives P) (hf : ∀ a, P a → (f a).Gives Q) : (r >>= f).Gives Q := by
  intro c b c' h
  obtain ⟨a, c₁, hr', hf'⟩ := bind_eq_ok.1 h
  obtain ⟨⟨ts, hts⟩, ha⟩ := hr c a c₁ hr'
  obtain ⟨⟨us, hus⟩, hb⟩ := hf a ha c₁ b c' hf'
  exact ⟨⟨ts ++ us, hts.trans hus⟩, hb⟩

/-- A reader whose result does not matter comes first. -/
theorem Moves.bind (hr : r.Moves) (hf : ∀ a, (f a).Gives Q) : (r >>= f).Gives Q :=
  Gives.bind hr fun a _ => hf a

theorem gives_pure {a : α} (h : P a) : (pure a : Reader α).Gives P := by
  intro c b c' he
  cases he
  exact ⟨⟨[], .refl c⟩, h⟩

theorem Gives.discard (h : r.Gives P) : (discard r).Moves := by
  show (r >>= fun _ => (pure PUnit.unit : Reader PUnit)).Gives _
  exact h.bind fun _ _ => gives_pure trivial

theorem gives_failAt (t : Token) (fault : ParseFault) : (failAt t fault : Reader α).Gives P :=
  fun _ _ _ he => by cases he

theorem gives_exhausted : (exhausted : Reader α).Gives P := fun _ _ _ he => by cases he

theorem moves_get : (get : Reader Cursor).Moves := fun c _ _ he => by
  cases he
  exact ⟨⟨[], .refl c⟩, trivial⟩

theorem moves_peek : Reader.peek.Moves := moves_get.bind fun _ => gives_pure trivial

theorem moves_check (k : TokenKind) : (check k).Moves := moves_peek.bind fun _ => gives_pure trivial

theorem moves_advance : advance.Moves := by
  intro c t c' he
  have hstep : c.advance = (t, c') := Except.ok.inj he
  have hskip : c' = c.skip 1 := by rw [Cursor.skip, Cursor.skip, hstep]
  refine ⟨?_, trivial⟩
  by_cases hrest : c.rest = []
  · refine ⟨[], ?_⟩
    rw [hskip, Cursor.skip, Cursor.advance, hrest]
    exact .refl c
  · rw [hskip]
    exact ⟨_, Cursor.consumes_skip (List.length_pos_iff.2 hrest)⟩

theorem moves_drop : (discard advance : Reader PUnit).Moves := Gives.discard moves_advance

theorem moves_skip {n : Cursor → Nat} (hn : ∀ c, n c ≤ c.rest.length) :
    (modify fun c => c.skip (n c) : Reader PUnit).Moves := by
  intro c a c' he
  cases he
  exact ⟨⟨_, Cursor.consumes_skip (hn c)⟩, trivial⟩

theorem moves_skipBalanced : skipBalanced.Moves :=
  moves_skip fun c => Cursor.balancedLength_le 1 c.rest

theorem moves_skipStatement : skipStatement.Moves :=
  moves_skip fun c => Cursor.statementLength_le 0 c.rest

theorem moves_raw (start : Nat) : (raw start).Moves := by
  refine moves_get.bind fun c => ?_
  split
  · exact gives_pure trivial
  · exact gives_failAt _ _

theorem jump_eq_ok {n : Nat} {u : PUnit} (h : jump n c = .ok (u, c')) :
    n ≤ c.rest.length ∧ c' = c.skip n := by
  obtain ⟨c₁, c₂, hget, h⟩ := bind_eq_ok.1 h
  cases hget
  split at h
  · next hn =>
    cases h
    exact ⟨hn, rfl⟩
  · cases h

theorem moves_expect (k : TokenKind) : (expect k).Moves := by
  refine moves_peek.bind fun t => ?_
  split
  · exact moves_drop
  · exact gives_failAt _ _

theorem moves_expectKeyword (w : Bytes) : (expectKeyword w).Moves := by
  refine moves_peek.bind fun t => ?_
  split
  · exact moves_drop
  · exact gives_failAt _ _

theorem moves_acceptKeyword (w : Bytes) : (acceptKeyword w).Moves := by
  refine Moves.bind (moves_peek.bind fun _ => gives_pure trivial) fun b => ?_
  split
  · exact moves_drop.bind fun _ => gives_pure trivial
  · exact gives_pure trivial

end Rules

end Reader

open Reader

/-! ## Types -/

namespace Kind

variable {nested : Reader Kind}

theorem moves_arguments (hr : nested.Moves) (fuel : Nat) : (arguments nested fuel).Moves := by
  induction fuel with
  | zero => exact gives_exhausted
  | succ fuel ih =>
    rw [arguments]
    refine hr.bind fun k => (moves_check .comma).bind fun b => ?_
    split
    · exact moves_drop.bind fun _ => ih.bind fun _ => gives_pure trivial
    · exact gives_pure trivial

theorem moves_single (hr : nested.Moves) (fuel : Nat) : (single nested fuel).Moves := by
  refine moves_advance.bind fun t => ?_
  split
  · refine (moves_check .lt).bind fun b => ?_
    split
    · refine moves_drop.bind fun _ => (moves_arguments hr fuel).bind fun args => ?_
      exact (moves_expect .gt).bind fun _ => gives_pure trivial
    · exact gives_pure trivial
  · exact gives_pure trivial
  · exact gives_pure trivial
  · exact gives_pure trivial
  · exact moves_skipBalanced.bind fun _ => (moves_raw _).bind fun _ => gives_pure trivial
  · exact moves_skipBalanced.bind fun _ => (moves_raw _).bind fun _ => gives_pure trivial
  · exact gives_failAt _ _

theorem moves_alternatives {one : Reader Kind} (hone : one.Moves) (fuel : Nat) :
    (alternatives one fuel).Moves := by
  induction fuel with
  | zero => exact gives_exhausted
  | succ fuel ih =>
    rw [alternatives]
    refine moves_peek.bind fun t => ?_
    split
    · refine moves_drop.bind fun _ => hone.bind fun k => ?_
      exact ih.bind fun _ => gives_pure trivial
    · exact gives_pure trivial

end Kind

theorem moves_kindFuel (fuel : Nat) : (kindFuel fuel).Moves := by
  induction fuel with
  | zero => exact gives_exhausted
  | succ fuel ih =>
    have hone := Kind.moves_single ih fuel
    refine hone.bind fun first => (Kind.moves_alternatives hone fuel).bind fun others => ?_
    split
    · exact gives_pure trivial
    · exact gives_pure trivial

/-! ## Operands -/

namespace Value

variable {nested : Reader Value}

theorem gives_source (pos : Nat) (kind : OpaqueKind) :
    (raw pos >>= fun text => (pure (.other pos kind text) : Reader Value)).Gives IsOperand :=
  (moves_raw pos).bind fun _ => gives_pure ⟨trivial, rfl⟩

theorem moves_recordKey : recordKey.Moves := by
  refine moves_advance.bind fun id => ?_
  split
  · exact gives_pure trivial
  · exact gives_pure trivial
  · exact gives_pure trivial
  · exact moves_skipBalanced
  · exact moves_skipBalanced
  · exact moves_skipBalanced
  · exact gives_failAt _ _

section Nested

variable (hr : nested.Gives Climbs) (fuel : Nat)
include hr

theorem gives_elements (closer : TokenKind) : (elements nested closer fuel).Gives ClimbAll := by
  induction fuel with
  | zero => exact gives_exhausted
  | succ fuel ih =>
    rw [elements]
    refine (moves_check closer).bind fun b => ?_
    split
    · exact gives_pure trivial
    · refine hr.bind fun v hv => (moves_check .comma).bind fun b => ?_
      split
      · exact moves_drop.bind fun _ => ih.bind fun vs hvs => gives_pure ⟨hv, hvs⟩
      · exact gives_pure ⟨hv, trivial⟩

theorem gives_callArgs : (callArgs nested fuel).Gives ClimbAll :=
  (moves_expect .lparen).bind fun _ => (gives_elements hr fuel .rparen).bind fun _ hargs =>
    (moves_expect .rparen).bind fun _ => gives_pure hargs

theorem gives_array : (array nested fuel).Gives IsOperand :=
  moves_advance.bind fun _ => (gives_elements hr fuel .rbracket).bind fun _ helems =>
    (moves_expect .rbracket).bind fun _ => (moves_raw _).bind fun _ => gives_pure ⟨helems, rfl⟩

theorem gives_entry : (entry nested).Gives Climbs := by
  refine moves_advance.bind fun key => ?_
  split
  · exact (moves_expect .colon).bind fun _ => hr
  · exact gives_failAt _ _

theorem gives_objectOrBlock : (objectOrBlock nested fuel).Gives IsOperand := by
  refine moves_get.bind fun c => moves_advance.bind fun start => ?_
  split
  · exact (gives_elements (gives_entry hr) fuel .rbrace).bind fun _ helems =>
      (moves_expect .rbrace).bind fun _ => (moves_raw _).bind fun _ => gives_pure ⟨helems, rfl⟩
  · exact moves_skipBalanced.bind fun _ => (moves_raw _).bind fun _ => gives_pure ⟨trivial, rfl⟩

theorem gives_paren : (paren nested).Gives IsOperand := by
  refine moves_advance.bind fun start => moves_get.bind fun c => ?_
  split
  · exact moves_skipBalanced.bind fun _ => gives_source _ _
  · exact hr.discard.bind fun _ => (moves_expect .rparen).bind fun _ => gives_source _ _

theorem moves_braceBranches : (braceBranches nested fuel).Moves := by
  induction fuel with
  | zero => exact gives_exhausted
  | succ fuel ih =>
    rw [braceBranches]
    have hbody : ∀ _ : PUnit, (expect .lbrace >>= fun _ => skipBalanced >>= fun _ =>
        braceBranches nested fuel).Moves := fun _ =>
      (moves_expect .lbrace).bind fun _ => moves_skipBalanced.bind fun _ => ih
    refine (moves_acceptKeyword _).bind fun b => ?_
    split
    · refine (moves_acceptKeyword _).bind fun b => ?_
      split
      · exact hr.discard.bind hbody
      · exact hbody ⟨⟩
    · exact gives_pure trivial

theorem moves_wordBranches : (wordBranches nested fuel).Moves := by
  induction fuel with
  | zero => exact gives_exhausted
  | succ fuel ih =>
    rw [wordBranches]
    have hbody : ∀ _ : PUnit, (discard nested >>= fun _ => wordBranches nested fuel).Moves :=
      fun _ =>
      hr.discard.bind fun _ => ih
    refine (moves_acceptKeyword _).bind fun b => ?_
    split
    · exact gives_pure trivial
    · refine (moves_acceptKeyword _).bind fun b => ?_
      split
      · refine (moves_acceptKeyword _).bind fun b => ?_
        split
        · exact hr.discard.bind fun _ => (moves_expectKeyword _).bind hbody
        · exact hbody ⟨⟩
      · exact moves_peek.bind fun _ => gives_failAt _ _

theorem gives_conditional : (conditional nested fuel).Gives IsOperand := by
  refine moves_advance.bind fun start => hr.discard.bind fun _ =>
    (moves_check .lbrace).bind fun b => ?_
  split
  · exact moves_drop.bind fun _ => moves_skipBalanced.bind fun _ =>
      (moves_braceBranches hr fuel).bind fun _ => gives_source _ _
  · exact (moves_expectKeyword _).bind fun _ => hr.discard.bind fun _ =>
      (moves_wordBranches hr fuel).bind fun _ => gives_source _ _

theorem gives_wordValue : (wordValue nested fuel).Gives IsOperand := by
  have hcall : ∀ pos kind name, (discard advance >>= fun _ => callArgs nested fuel >>= fun args =>
      (pure (.call pos kind name args) : Reader Value)).Gives IsOperand := fun _ _ _ =>
    moves_drop.bind fun _ => (gives_callArgs hr fuel).bind fun _ hargs => gives_pure ⟨hargs, rfl⟩
  refine moves_get.bind fun c => ?_
  dsimp only
  split
  · exact moves_drop.bind fun _ => gives_pure ⟨trivial, rfl⟩
  · split_ifs
    · exact gives_conditional hr fuel
    · exact moves_skipStatement.bind fun _ => gives_source _ _
    · exact moves_drop.bind fun _ => (gives_callArgs hr fuel).bind fun _ hargs =>
        (moves_expect .lbrace).bind fun _ => moves_skipBalanced.bind fun _ =>
          gives_pure ⟨hargs, rfl⟩
    · exact hcall _ _ _
    · exact hcall _ _ _
    · exact moves_drop.bind fun _ => moves_drop.bind fun _ => moves_recordKey.bind fun _ =>
        (moves_raw _).bind fun _ => gives_pure ⟨trivial, rfl⟩
    · exact moves_drop.bind fun _ => gives_pure ⟨trivial, rfl⟩
    · exact moves_drop.bind fun _ => gives_pure ⟨trivial, rfl⟩

theorem gives_primary : (primary nested fuel).Gives IsOperand := by
  refine moves_peek.bind fun t => ?_
  split
  · exact moves_drop.bind fun _ => gives_pure ⟨trivial, rfl⟩
  · split
    · exact moves_drop.bind fun _ => gives_pure ⟨trivial, rfl⟩
    · exact gives_array hr fuel
    · exact gives_objectOrBlock hr fuel
    · exact gives_paren hr
    · exact gives_wordValue hr fuel
    · exact gives_failAt _ _

end Nested

theorem moves_afterDot : afterDot.Moves := by
  refine moves_advance.bind fun next => ?_
  split
  · refine (moves_check .lparen).bind fun b => ?_
    split
    · exact moves_drop.bind fun _ => moves_skipBalanced
    · exact gives_pure trivial
  · exact moves_skipBalanced
  · exact moves_skipBalanced
  · split
    · exact gives_pure trivial
    · exact gives_failAt _ _

theorem moves_afterArrow : afterArrow.Moves := by
  refine moves_advance.bind fun next => ?_
  split
  · exact gives_pure trivial
  · exact moves_skipBalanced
  · exact moves_skipBalanced
  · split
    · exact gives_pure trivial
    · exact gives_failAt _ _

theorem moves_tailStep : tailStep.Moves := by
  refine moves_peek.bind fun t => ?_
  split_ifs
  · exact moves_drop.bind fun _ => moves_afterDot.bind fun _ => gives_pure trivial
  · exact moves_drop.bind fun _ => moves_skipBalanced.bind fun _ => gives_pure trivial
  · exact moves_drop.bind fun _ => moves_afterArrow.bind fun _ => gives_pure trivial
  · exact gives_pure trivial

theorem moves_tailSteps (fuel : Nat) : (tailSteps fuel).Moves := by
  induction fuel with
  | zero => exact gives_exhausted
  | succ fuel ih =>
    rw [tailSteps]
    refine moves_tailStep.bind fun b => ?_
    split
    · exact ih
    · exact gives_pure trivial

theorem gives_withTail {one : Reader Value} (hone : one.Gives IsOperand) (fuel : Nat) :
    (withTail one fuel).Gives IsOperand := by
  refine hone.bind fun v hv => moves_tailStep.bind fun b => ?_
  split
  · exact (moves_tailSteps fuel).bind fun _ => (moves_raw _).bind fun _ => gives_pure ⟨trivial, rfl⟩
  · exact gives_pure hv

theorem gives_unary {operand : Reader Value} (ho : operand.Gives IsOperand) {type : Reader Kind}
    (ht : type.Moves) (fuel : Nat) : (unary operand type fuel).Gives IsOperand := by
  induction fuel with
  | zero => exact gives_exhausted
  | succ fuel ih =>
    rw [unary]
    refine moves_get.bind fun c => ?_
    dsimp only
    split_ifs
    · exact moves_drop.bind fun _ => moves_drop.bind fun _ => (moves_raw _).bind fun _ =>
        gives_pure ⟨trivial, rfl⟩
    · exact moves_drop.bind fun _ => ih.discard.bind fun _ => gives_source _ _
    · exact moves_drop.bind fun _ => ht.bind fun k => (moves_expect .gt).bind fun _ =>
        ih.bind fun v hv => gives_pure ⟨⟨hv.1, trivial⟩, rfl⟩
    · exact ho

end Value

variable {fuel least : Nat} {v : Value}

theorem gives_operandFuel (hr : (exprFuel fuel 1).Gives Value.Climbs) :
    (operandFuel fuel).Gives Value.IsOperand :=
  Value.gives_unary (Value.gives_withTail (Value.gives_primary hr fuel) fuel) (moves_kindFuel fuel)
    (fuel + 1)

/-! ## Climbing -/

/-- What was read from one cursor up to another, as a chain whose operators bind at least as tightly
as `least`. -/
structure ChainRead (least : Nat) (c : Cursor) (v : Value) (c' : Cursor) : Prop where
  climbs : v.Climbs
  least_le : ∀ name ∈ v.operators, least ≤ BinaryOp.precOf name
  reproduced : ∃ ts, c.Consumes ts c' ∧ Reproduces c v.parts ts

/-- No operator that binds as tightly as `least` comes next. -/
def Stops (least : Nat) (c : Cursor) : Prop := ∀ op, BinaryOp.at? c = some op → op.prec < least

theorem ChainRead.operand (hr : (exprFuel fuel 1).Gives Value.Climbs)
    (h : operandFuel fuel c = .ok (v, c')) : ChainRead least c v c' := by
  obtain ⟨⟨ts, hts⟩, hclimbs, hprec⟩ := gives_operandFuel hr c v c' h
  refine ⟨hclimbs, by simp [Value.operators_of_prec? hprec], ts, hts, ?_⟩
  rw [Value.parts_of_prec? hprec, ← List.append_nil ts]
  exact .operand hts h .nil

/-- A chain goes on with an operator and a chain of operators that bind more tightly. The left chain
ends where its outermost operator binds at least as tightly as the one that follows. -/
theorem ChainRead.binary {c₂ c₃ : Cursor} {left right : Value} {op : BinaryOp}
    (hleft : ChainRead least c left c₁) (hop : BinaryOp.at? c₁ = some op) (hleast : least ≤ op.prec)
    (hspine : ∀ p, left.prec? = some p → op.prec ≤ p) (hwidth : op.width ≤ c₁.rest.length)
    (hskip : c₂ = c₁.skip op.width) (hright : ChainRead (op.prec + 1) c₂ right c₃) :
    ChainRead least c (.binary left.pos left op.name right) c₃ := by
  obtain ⟨hprec, hspelled⟩ := BinaryOp.at?_spelled hop hwidth
  refine ⟨⟨hleft.climbs, hright.climbs, ?_, ?_⟩, ?_, ?_⟩
  · rwa [hprec]
  · intro p hp
    rw [hprec]
    exact Value.le_of_prec? hp hright.least_le
  · intro name hname
    rw [Value.operators, List.mem_append, List.mem_cons] at hname
    obtain hname | rfl | hname := hname
    · exact hleft.least_le name hname
    · rwa [hprec]
    · have := hright.least_le name hname
      omega
  · obtain ⟨ts, hts, hrts⟩ := hleft.reproduced
    obtain ⟨us, hus, hrus⟩ := hright.reproduced
    have hmid := hskip ▸ Cursor.consumes_skip hwidth
    exact ⟨ts ++ (_ ++ us), hts.trans (hmid.trans hus),
      hrts.append hts (.operator hmid hspelled hrus)⟩

/-- Climbing keeps a chain: the operator that comes next never binds more tightly than the outermost
one of the left operand, because the right operand before it has stopped there. -/
theorem ChainRead.climb {expr : Nat → Reader Value}
    (hexpr : ∀ {least c v c'}, expr least c = .ok (v, c') → ChainRead least c v c' ∧ Stops least c')
    {left : Value} (hleft : ChainRead least c left c₁)
    (hspine : ∀ p, left.prec? = some p → Stops (p + 1) c₁)
    (h : Value.climb expr least fuel left c₁ = .ok (v, c')) :
    ChainRead least c v c' ∧ Stops least c' := by
  induction fuel generalizing left c₁ with
  | zero => cases h
  | succ fuel ih =>
    obtain ⟨c₂, c₃, hget, h⟩ := Reader.bind_eq_ok.1 h
    cases hget
    cases hop : BinaryOp.at? c₁ with
    | none =>
      simp only [hop] at h
      cases h
      exact ⟨hleft, fun op hop' => by rw [hop] at hop'; cases hop'⟩
    | some op =>
      simp only [hop] at h
      split at h
      · next hlt =>
        cases h
        refine ⟨hleft, fun op' hop' => ?_⟩
        rw [hop] at hop'
        cases hop'
        exact hlt
      · next hlt =>
        obtain ⟨_, c₂, hjump, h⟩ := Reader.bind_eq_ok.1 h
        obtain ⟨right, c₃, hright, h⟩ := Reader.bind_eq_ok.1 h
        obtain ⟨hwidth, hskip⟩ := Reader.jump_eq_ok hjump
        obtain ⟨hread, hstops⟩ := hexpr hright
        have hbinary := hleft.binary hop (Nat.le_of_not_lt hlt)
          (fun p hp => Nat.le_of_lt_succ (hspine p hp op hop)) hwidth hskip hread
        refine ih hbinary (fun p hp => ?_) h
        cases hp
        rwa [(BinaryOp.at?_spelled hop hwidth).1]

theorem exprFuel_read (h : exprFuel fuel least c = .ok (v, c')) :
    ChainRead least c v c' ∧ Stops least c' := by
  induction fuel generalizing least c c' v with
  | zero => cases h
  | succ fuel ih =>
    obtain ⟨left, c₁, hleft, h⟩ := Reader.bind_eq_ok.1 h
    have hnested : (exprFuel fuel 1).Gives Value.Climbs := fun c v c' h =>
      ⟨(ih h).1.reproduced.imp fun _ hts => hts.1, (ih h).1.climbs⟩
    have hoperand : operandFuel fuel c = .ok (left, c₁) := hleft
    refine ChainRead.climb ih (.operand hnested hoperand) (fun p hp => ?_) h
    rw [(gives_operandFuel hnested c left c₁ hoperand).2.2] at hp
    cases hp

/-- Precedence climbing is right on every input. In whatever is read, left operands bind at least as
tightly as their operators and right operands more tightly; all operators of the outermost chain
bind at least as tightly as asked for; its operands and operators, from left to right, are what the
tokens that were taken spell, each once and in order; and no operator that binds as tightly comes
next. -/
theorem exprFuel_climbs {fuel least : Nat} {c c' : Cursor} {v : Value}
    (h : exprFuel fuel least c = .ok (v, c')) :
    v.Climbs ∧ (∀ name ∈ v.operators, least ≤ BinaryOp.precOf name) ∧
      (∃ ts, c.Consumes ts c' ∧ Reproduces c v.parts ts) ∧
      ∀ op, BinaryOp.at? c' = some op → op.prec < least := by
  obtain ⟨hread, hstops⟩ := exprFuel_read h
  exact ⟨hread.climbs, hread.least_le, hread.reproduced, hstops⟩

/-- The tokens of a chain of three operators, the last of two words. -/
def chainTokens : List Token :=
  let word (text : Bytes) : Token := ⟨.ident, text, .start, 0⟩
  let symbol (text : Bytes) : Token := ⟨.operator, text, .start, 0⟩
  let param (text : Bytes) : Token := ⟨.param, text, .start, 0⟩
  [param "a", symbol "*", param "b", symbol "+", param "c", word "is", word "not", param "d"]

theorem exprFuel_climbs_chain :
    ∃ v c', exprFuel 9 1 ⟨[], chainTokens, .endAt .start, none⟩ = .ok (v, c') ∧ v.Climbs ∧
      v.operators = (["*", "+", "IS NOT"] : List Bytes) := by
  have hread : ((exprFuel 9 1 ⟨[], chainTokens, .endAt .start, none⟩).toOption.map fun p =>
      p.1.operators) = some (["*", "+", "IS NOT"] : List Bytes) := by
    decide +kernel
  obtain ⟨⟨v, c'⟩, hv, hops⟩ := Option.map_eq_some_iff.1 hread
  have hok := toOption_eq_some.1 hv
  exact ⟨v, c', hok, (exprFuel_climbs hok).1, hops⟩

end AccessLayer.Surql
