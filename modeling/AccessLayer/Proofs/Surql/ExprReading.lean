import AccessLayer.Proofs.Surql.ExprTree
import AccessLayer.Proofs.Surql.Likeness.Values

/-!
# Expressions, read

Reading the tokens of an expression tree gives the expression of the tree. Operands are read by
their first token; operators are put together by precedence climbing, along the left spine of the
tree.

* `Passage.Ends`: nothing that follows belongs to an expression.
* `operand_spellings`: an expression without outermost operator.
* `exprFuel_spellings`: any tree that climbs.
-/

namespace AccessLayer.Surql

open Reader
open Value (climb elements isKey primary tokenLiteral? unary view viewAll withTail)
open BinaryOp (at? ofWord? symbolPrec wordOps)

variable {expr : Nat → Reader Value} {e : ExprTree}

/-- Expressions without their places. -/
def View.unplaced : View := ⟨fun _ => 0, id⟩

open Passage

variable {s : Passage} {m : Nat} {q : Spelling} {qs rest : List Spelling}

/-! ## Operators -/

theorem StartsOperand.isKeyword_eq_false (hq : StartsOperand q) (h : s.Ahead m (q :: rest)) :
    (s.token m).isKeyword "NOT" = false := by
  rw [Token.isKeyword, h.kind, h.literal]
  obtain hq | ⟨hq, hcolon⟩ := hq
  · have hident : ∀ k ∈ [TokenKind.number, .string, .param, .lt, .lbracket, .lbrace],
        (k == TokenKind.ident) = false := by
      decide
    rw [hident _ hq, Bool.false_and]
  · rw [Bool.and_eq_false_iff]
    right
    by_contra hword
    rw [Bool.not_eq_false, Token.sameWord, beq_iff_eq] at hword
    have hmem := List.mem_map_of_mem (f := Token.foldByte) hcolon
    rw [hword] at hmem
    revert hmem
    decide

theorem StartsOperand.not_closer (hq : StartsOperand q) :
    q.kind ∉ [.rparen, .rbracket, .rbrace] := by
  obtain hq | ⟨hq, -⟩ := hq
  · revert hq
    generalize q.kind = k
    revert k
    decide
  · rw [hq]
    decide

theorem Op.lookup_symbol : ∀ i : Fin symbolPrec.length,
    symbolPrec.lookup (symbolPrec.get i).1 = some (symbolPrec.get i).2 := by
  decide

theorem Op.plain_word : ∀ i : Fin wordOps.length,
    Bytes.toUpper (wordOps.get i) = wordOps.get i ∧
      wordOps.contains (wordOps.get i) ∧
      wordOps.get i ∉ (["OR", "AND", "IS", "NOT"] : List Bytes) := by
  decide

/-- A word that an operator starts with is in upper case and none of the words tested before it. -/
theorem Op.upper_words : (∀ w ∈ (["OR", "AND", "IS", "NOT"] : List Bytes), Bytes.toUpper w = w) ∧
    ((("AND" : Bytes) == "OR") = false ∧ (("IS" : Bytes) == "OR") = false ∧
      (("NOT" : Bytes) == "OR") = false) ∧
    ((("IS" : Bytes) == "AND") = false ∧ (("NOT" : Bytes) == "AND") = false) ∧
      (("NOT" : Bytes) == "IS") = false := by
  decide

theorem Ahead.isKeyword {w w' : Bytes} {hw : Spelling.check (Bytes.chars w) .ident w = true}
    (h : s.Ahead m (.keyword w hw :: rest)) (hsame : Token.sameWord w w') :
    (s.token m).isKeyword w' := by
  rw [Token.isKeyword, h.kind, h.literal]
  exact hsame

/-- The word `NOT` before a word that tests for membership is an operator with it. -/
theorem Op.ofWord?_not {next : Token} (h : (next.isKeyword "IN" || next.isKeyword "INSIDE")) :
    ofWord? (Bytes.toUpper "NOT") next = some ⟨"NOT " ++ Bytes.toUpper next.literal, 5, 2⟩ := by
  obtain ⟨hupper, ⟨-, -, hor⟩, ⟨-, hand⟩, his⟩ := upper_words
  rw [hupper "NOT" (by simp), ofWord?, hor, hand, his, beq_self_eq_true, h]
  rfl

/-- The operator that a word starts is found by the word and the token after it. -/
theorem Op.at?_keyword {w : Bytes} {hw : Spelling.check (Bytes.chars w) .ident w = true}
    (h : s.Ahead m (.keyword w hw :: rest)) :
    at? (s.cursor m) = ofWord? (Bytes.toUpper w) (s.token (m + 1)) := by
  rw [at?, peek_cursor, peekAt_cursor, h.kind, h.literal]
  rfl

/-- The binary operator before an operand is the one that is written there. -/
theorem Op.at?_spellings (op : Op) (hq : StartsOperand q)
    (h : s.Ahead m (op.spellings ++ q :: rest)) :
    at? (s.cursor m) = some ⟨op.name, op.prec, op.spellings.length⟩ := by
  have hnext := hq.isKeyword_eq_false h.append
  obtain ⟨hcapitals, ⟨hor, hor', -⟩, ⟨hand, -⟩, -⟩ := upper_words
  cases op with
  | less =>
    rw [at?, peek_cursor, Ahead.kind h]
    rfl
  | greater =>
    rw [at?, peek_cursor, Ahead.kind h]
    rfl
  | symbol i =>
    rw [at?, peek_cursor, Ahead.kind h, Ahead.literal h]
    show (symbolPrec.lookup (symbolPrec.get i).1).map _ = _
    rw [lookup_symbol]
    rfl
  | word i =>
    obtain ⟨hupper, hword, hplain⟩ := plain_word i
    simp only [List.mem_cons, List.not_mem_nil, or_false, not_or] at hplain
    rw [at?_keyword h, hupper, ofWord?]
    simp only [beq_eq_false_iff_ne.2 hplain.1, beq_eq_false_iff_ne.2 hplain.2.1,
      beq_eq_false_iff_ne.2 hplain.2.2.1, beq_eq_false_iff_ne.2 hplain.2.2.2, hword,
        Bool.false_eq_true,
      if_false, if_true]
    rfl
  | or =>
    rw [at?_keyword h, hcapitals "OR" (by simp), ofWord?, beq_self_eq_true]
    rfl
  | and =>
    rw [at?_keyword h, hcapitals "AND" (by simp), ofWord?, hor, beq_self_eq_true]
    rfl
  | is =>
    rw [at?_keyword h, hcapitals "IS" (by simp), ofWord?, hor', hand,
      beq_self_eq_true, show (s.token (m + 1)).isKeyword "NOT" = false from hnext]
    rfl
  | isNot =>
    rw [at?_keyword h, hcapitals "IS" (by simp), ofWord?, hor', hand,
      beq_self_eq_true, Ahead.isKeyword (Ahead.tail h) (beq_self_eq_true _)]
    rfl
  | notIn =>
    have hin : (s.token (m + 1)).isKeyword "IN" = true :=
      Ahead.isKeyword (Ahead.tail h) (beq_self_eq_true _)
    rw [at?_keyword h, ofWord?_not (by rw [hin, Bool.true_or]), Ahead.literal (Ahead.tail h),
      Option.some.injEq, BinaryOp.mk.injEq]
    exact ⟨by decide, rfl, rfl⟩
  | notInside =>
    have hin : (s.token (m + 1)).isKeyword "INSIDE" = true :=
      Ahead.isKeyword (Ahead.tail h) (beq_self_eq_true _)
    rw [at?_keyword h, ofWord?_not (by rw [hin, Bool.or_true]), Ahead.literal (Ahead.tail h),
      Option.some.injEq, BinaryOp.mk.injEq]
    exact ⟨by decide, rfl, rfl⟩

/-! ## What follows an expression -/

/-- Whether a token cannot continue an operand. -/
def isNoTail (t : Token) : Bool := t.kind != .dot && t.kind != .lbracket && !Value.isArrow t

theorem isNoTail_of_kind {t : Token} (h : t.kind ∉ [.dot, .lbracket, .operator]) : isNoTail t := by
  simp only [List.mem_cons, List.not_mem_nil, or_false, not_or] at h
  simp [isNoTail, Value.isArrow, Token.isOperator, h]

/-- After `m` tokens comes nothing that continues an operand, and no operator that binds at least as
tightly as `least`. -/
structure Passage.Ends (s : Passage) (m least : Nat) : Prop where
  noTail : isNoTail (s.token m) = true
  prec_lt : ∀ op, at? (s.cursor m) = some op → op.prec < least

theorem Passage.Ends.of_kind
    (h : (s.token m).kind ∈ [.endOfInput, .comma, .rparen, .rbracket, .rbrace])
    (least : Nat) : s.Ends m least := by
  have hall : ∀ k ∈ [TokenKind.endOfInput, .comma, .rparen, .rbracket, .rbrace],
      k ∉ [.dot, .lbracket, .operator] := by
    decide
  refine ⟨isNoTail_of_kind (hall _ h), fun op hop => ?_⟩
  rw [at?, peek_cursor] at hop
  simp only [List.mem_cons, List.not_mem_nil, or_false] at h
  obtain h | h | h | h | h := h <;> rw [h] at hop <;> cases hop

/-- No operator continues an operand. -/
theorem Op.isNoTail_spellings (op : Op) (h : s.Ahead m (op.spellings ++ rest)) :
    isNoTail (s.token m) := by
  cases op with
  | symbol i =>
    have hall : ∀ i : Fin symbolPrec.length,
        (symbolPrec.get i).1 ∉ (["->", "<-", "<->"] : List Bytes) := by
      decide
    have hi := hall i
    have hkind : (s.token m).kind = .operator := Ahead.kind h
    have hliteral : (s.token m).literal = (symbolPrec.get i).1 := Ahead.literal h
    rw [← hliteral] at hi
    simp only [List.mem_cons, List.not_mem_nil, or_false, not_or] at hi
    simp [isNoTail, Value.isArrow, Token.isOperator, hkind, hi]
  | less => exact isNoTail_of_kind (by rw [show (s.token m).kind = .lt from Ahead.kind h]; decide)
  | greater =>
    exact isNoTail_of_kind (by rw [show (s.token m).kind = .gt from Ahead.kind h]; decide)
  | _ => exact isNoTail_of_kind (by rw [show (s.token m).kind = .ident from Ahead.kind h]; decide)

theorem tailStep_noTail (h : isNoTail (s.token m)) :
    Value.tailStep (s.cursor m) = .ok (false, s.cursor m) := by
  rw [isNoTail, Bool.and_eq_true, Bool.and_eq_true, bne_iff_ne, bne_iff_ne, Bool.not_eq_true'] at h
  rw [Value.tailStep, bind_ok peek_ok, beq_eq_false_iff_ne.2 h.1.1,
    beq_eq_false_iff_ne.2 h.1.2, h.2]
  rfl

/-! ## Lists of expressions -/

/-- A reader reads some tokens as the given expression, when a comma or a closing bracket follows.
They do not start with a closing bracket. -/
structure ReadsItem (s : Passage) (least : Nat) (item : Reader Value) (qs : List Spelling)
    (v : Value) : Prop where
  starts : ∃ q rest, qs = q :: rest ∧ q.kind ∉ [.rparen, .rbracket, .rbrace]
  read {m : Nat} {q : Spelling} {rest : List Spelling} : least ≤ m → s.Ahead m (qs ++ q :: rest) →
    q.kind ∈ [.comma, .rparen, .rbracket, .rbrace] →
      ∃ a, a.view .unplaced = v ∧ item (s.cursor m) = .ok (a, s.cursor (m + qs.length))

section Items

variable {lo fuel : Nat} {item : Reader Value} {c : Spelling} {k : TokenKind} (hk : c.kind = k)
  (hcloser : k ∈ [.rparen, .rbracket, .rbrace]) {parts : List (List Spelling)} {vs : List Value}
  (hitems : List.Forall₂ (ReadsItem s lo item) parts vs)
include hk hcloser hitems

/-- Items divided by commas are read up to the closing bracket. -/
theorem elements_divided (hm : lo ≤ m) (hf : s.length < m + fuel)
    (h : s.Ahead m (divided .comma parts ++ c :: rest)) :
    ∃ as, viewAll .unplaced as = vs ∧ elements item k fuel (s.cursor m) =
      .ok (as, s.cursor (m + (divided .comma parts).length)) := by
  obtain ⟨hcomma, hends⟩ : c.kind ≠ .comma ∧ c.kind ∈ [.comma, .rparen, .rbracket, .rbrace] := by
    refine ⟨fun hc => ?_, List.mem_cons_of_mem _ (hk ▸ hcloser)⟩
    rw [← hk, hc] at hcloser
    revert hcloser
    decide
  induction hitems generalizing m fuel with
  | nil =>
    obtain ⟨fuel, rfl⟩ := Nat.exists_eq_add_one.2 (h.fuel_pos hf)
    refine ⟨[], by rw [viewAll], ?_⟩
    rw [elements, bind_ok (Ahead.check_true h k hk)]
    rfl
  | @cons part v parts vs hitem hitems ih =>
    obtain ⟨fuel, rfl⟩ := Nat.exists_eq_add_one.2 (h.fuel_pos hf)
    have hfirst : check k (s.cursor m) = .ok (false, s.cursor m) := by
      obtain ⟨q, qs, rfl, hq⟩ := hitem.starts
      exact Ahead.check_false h k fun hk => hq (hk ▸ hcloser)
    cases hitems with
    | nil =>
      have hparts : divided .comma [part] = part := by simp [divided]
      rw [hparts] at h ⊢
      obtain ⟨a, ha, hread⟩ := hitem.read hm h hends
      refine ⟨[a], by rw [viewAll, viewAll, ha], ?_⟩
      rw [elements, bind_ok hfirst, if_neg (by simp), bind_ok hread,
        bind_ok (h.append.check_false .comma hcomma)]
      rfl
    | @cons next w parts vs hnext hitems =>
      have hlength := congrArg List.length (divided_cons_cons .comma part next parts)
      rw [List.length_append, List.length_cons] at hlength
      rw [divided_cons_cons, List.append_assoc, List.cons_append] at h
      obtain ⟨a, ha, hread⟩ := hitem.read hm h (by decide)
      have hsep := h.append
      have hfuel : s.length < m + part.length + 1 + fuel := by omega
      obtain ⟨as, has, hothers⟩ := ih (by omega) hfuel hsep.tail
      refine ⟨a :: as, by rw [viewAll, ha, has], ?_⟩
      rw [show m + part.length + 1 + _ = m + (divided .comma (part :: next :: parts)).length by
        omega]
        at hothers
      rw [elements, bind_ok hfirst, if_neg (by simp), bind_ok hread,
        bind_ok (hsep.check_true .comma rfl), if_pos rfl,
        bind_ok hsep.discard_advance, bind_ok hothers]
      rfl

/-- Items between brackets are read as a literal that has the text from one bracket to the other. -/
theorem literal_divided (hs : s.Sound) (kind : LiteralKind) {o : Spelling}
    (htrim : Bytes.trim (written (o :: divided .comma parts ++ [c])) =
      written (o :: divided .comma parts ++ [c]))
    (hm : lo ≤ m + 1) (hf : s.length < m + 1 + fuel)
    (h : s.Ahead m ((o :: divided .comma parts ++ [c]) ++ rest)) :
    ∃ v, v.view .unplaced = .literal 0 kind (written (o :: divided .comma parts ++ [c])) vs ∧
      (do
        let elems ← elements item k fuel
        expect k
        return .literal (s.token m).start.offset kind (← raw (s.token m).start.offset) elems :
          Reader Value)
          (s.cursor (m + 1)) = .ok (v,
            s.cursor (m + (o :: divided .comma parts ++ [c]).length)) := by
  have hlen := h.length
  have htext := (h.text (by simp)).trans htrim
  have hend : m + (o :: divided .comma parts ++ [c]).length = m + 1 +
      (divided .comma parts).length + 1 := by
    simp only [List.cons_append, List.length_cons, List.length_append, List.length_nil]
    omega
  rw [List.length_append] at hlen
  have hraw := raw_cursor hs (show m < m + (o :: divided .comma parts ++ [c]).length by omega)
    (by omega)
  rw [htext, hend] at hraw
  rw [List.append_assoc] at h
  have htail : s.Ahead (m + 1) (divided .comma parts ++ c :: rest) := Ahead.tail h
  obtain ⟨as, has, hread⟩ := elements_divided hk hcloser hitems hm hf htail
  refine ⟨.literal (s.token m).start.offset kind (written (o :: divided .comma parts ++ [c])) as,
    ?_, ?_⟩
  · rw [view, has]
    rfl
  · rw [bind_ok hread, bind_ok (htail.append.expect k hk), bind_ok hraw, hend]
    rfl

end Items

/-! ## Operands -/

/-- A reader of expressions, by least precedence, reads the trees that climb from a place of the
statement on. -/
def ReadsExprs (s : Passage) (from_ : Nat) (expr : Nat → Reader Value) : Prop :=
  ∀ (e : ExprTree) (least : Nat) {m : Nat} {rest : List Spelling}, e.climbs = true →
    least ≤ e.prec →
    from_ ≤ m → s.Ahead m (e.spellings ++ rest) → s.Ends (m + e.spellings.length) least →
      ∃ v, v.view .unplaced = e.value ∧
        expr least (s.cursor m) = .ok (v, s.cursor (m + e.spellings.length))

theorem ExprTree.prec_pos (e : ExprTree) : 1 ≤ e.prec := by
  cases e with
  | binary left op right => exact op.prec_pos
  | _ => simp [prec]

section

variable {lo : Nat} {expr : Nat → Reader Value} (hexpr : ReadsExprs s lo expr)
include hexpr

theorem ReadsExprs.item (he : e.climbs) : ReadsItem s lo (expr 1) e.spellings e.value := by
  obtain ⟨q, qs, hqs, hq⟩ := e.starts
  refine ⟨⟨q, qs, hqs, hq.not_closer⟩, fun hm h hq => ?_⟩
  refine hexpr e 1 he e.prec_pos hm h (.of_kind ?_ 1)
  rw [h.append.kind]
  exact List.mem_cons_of_mem _ hq

theorem ReadsExprs.parts {es : List ExprTree} (hes : ExprTree.climbsAll es) :
    List.Forall₂ (ReadsItem s lo (expr 1)) (ExprTree.parts es) (ExprTree.values es) := by
  induction es with
  | nil => exact .nil
  | cons e es ih =>
    rw [ExprTree.climbsAll, Bool.and_eq_true] at hes
    exact .cons (hexpr.item hes.1) (ih hes.2)

theorem ReadsExprs.entryParts {es : List Entry} (hes : ExprTree.climbsEntries es) :
    List.Forall₂ (ReadsItem s lo (Value.entry (expr 1))) (ExprTree.entryParts es)
      (ExprTree.entryValues es) := by
  induction es with
  | nil => exact .nil
  | cons e es ih =>
    obtain ⟨key, e⟩ := e
    rw [ExprTree.climbsEntries, Bool.and_eq_true] at hes
    have hident : key.spelling.kind = .ident := rfl
    refine .cons ⟨⟨_, _, rfl, by rw [hident]; decide⟩, fun {m q rest} hm h hq => ?_⟩ (ih hes.2)
    obtain ⟨v, hv, hread⟩ := (hexpr.item hes.1).read (by omega) (Ahead.tail (Ahead.tail h)) hq
    refine ⟨v, hv, ?_⟩
    have hkey : isKey (s.token m) = true := by
      rw [isKey, Ahead.kind h]
      rfl
    rw [Value.entry, bind_ok (Ahead.advance h), hkey, if_pos rfl,
      bind_ok (Ahead.expect (Ahead.tail h) .colon rfl), hread, List.length_cons, List.length_cons]
    congr 3
    omega

end

/-- A name with `::` in it is no keyword, in whatever case. -/
theorem QualifiedName.toUpper_ne (name : QualifiedName) {w : Bytes} (hw : Bytes.byte ':' ∉ w) :
    Bytes.toUpper (Bytes.ofChars name.1.chars) ≠ w :=
  Bytes.toUpper_ne_of_colon (colon_mem_ofChars name.colon_mem) hw

theorem QualifiedName.wordLiteral?_eq (name : QualifiedName) :
    Value.wordLiteral? (Bytes.toUpper (Bytes.ofChars name.1.chars)) = none := by
  have hall : ∀ w ∈ (["NONE", "NULL", "TRUE", "FALSE"] : List Bytes),
      (Bytes.toUpper (Bytes.ofChars name.1.chars) == w) = false := by
    have hcolon : ∀ w ∈ (["NONE", "NULL", "TRUE", "FALSE"] : List Bytes), Bytes.byte ':' ∉ w := by
      decide
    exact fun w hw => beq_eq_false_iff_ne.2 (name.toUpper_ne (hcolon w hw))
  simp only [List.forall_mem_cons] at hall
  rw [Value.wordLiteral?, hall.1, hall.2.1, hall.2.2.1, hall.2.2.2.1]
  rfl

theorem QualifiedName.startsStatement_eq (name : QualifiedName)
    (h : s.Ahead m (name.1.spelling :: rest)) : startsStatement (s.cursor m) = false := by
  have hword := contains_toUpper_of_colon (colon_mem_ofChars name.colon_mem)
  have hliteral : (s.token m).literal = Bytes.ofChars name.1.chars := h.literal
  rw [startsStatement, peek_cursor, hliteral, hword, Bool.and_false, Bool.false_and]

/-- A brace that a key and a colon follow, or its closing brace, opens an object. -/
theorem isObject_spellings {entries : List Entry}
    (h : s.Ahead m (.lbrace :: (divided .comma (ExprTree.entryParts entries) ++ .rbrace :: rest))) :
    ((s.token (m + 1)).kind == .rbrace ||
      (isKey (s.token (m + 1)) && (s.token (m + 2)).kind == .colon)) := by
  cases entries with
  | nil =>
    rw [Ahead.kind (q := .rbrace) h.tail]
    rfl
  | cons e entries =>
    obtain ⟨key, e⟩ := e
    have hkey : s.Ahead (m + 1) (key.spelling :: .colon :: (e.spellings ++
        ((ExprTree.entryParts entries).flatMap (Spelling.comma :: ·) ++ .rbrace :: rest))) := by
      simpa [ExprTree.entryParts, divided] using h.tail
    rw [isKey, hkey.kind, hkey.tail.kind]
    rfl

/-- Whether a tree is neither an operator nor a cast. -/
def ExprTree.isPrimary : ExprTree → Bool
  | binary _ _ _ | cast _ _ => false
  | _ => true

section Operand

variable {lo fuel : Nat} {expr : Nat → Reader Value} (hexpr : ReadsExprs s lo expr)
include hexpr

/-- The arguments of a call are read between parentheses. -/
theorem callArgs_parts {args : List ExprTree} (hargs : ExprTree.climbsAll args) (hm : lo ≤ m + 1)
    (hf : s.length < m + 1 + fuel)
    (h : s.Ahead m (.lparen :: (divided .comma (ExprTree.parts args) ++ .rparen :: rest))) :
    ∃ as, viewAll .unplaced as = ExprTree.values args ∧
      Value.callArgs (expr 1) fuel (s.cursor m) =
        .ok (as, s.cursor (m + 1 + (divided .comma (ExprTree.parts args)).length + 1)) := by
  obtain ⟨as, has, hread⟩ :=
    elements_divided (k := .rparen) rfl (by decide) (hexpr.parts hargs) hm hf h.tail
  refine ⟨as, has, ?_⟩
  rw [Value.callArgs, bind_ok (h.expect .lparen rfl), bind_ok hread,
    bind_ok (h.tail.append.expect .rparen rfl)]
  rfl

theorem wordValue_call (name : QualifiedName) {args : List ExprTree}
    (hargs : ExprTree.climbsAll args) (hm : lo ≤ m + 2) (hf : s.length < m + 2 + fuel)
    (h : s.Ahead m (ExprTree.spellings (.call name args) ++ rest)) :
    ∃ v, v.view .unplaced = ExprTree.value (.call name args) ∧
      Value.wordValue (expr 1) fuel (s.cursor m) =
      .ok (v, s.cursor (m + (ExprTree.spellings (.call name args)).length)) := by
  have hspellings : ExprTree.spellings (.call name args) = name.1.spelling :: .lparen ::
      (divided .comma (ExprTree.parts args) ++ [.rparen]) := rfl
  have hlength := congrArg List.length hspellings
  rw [hspellings, List.cons_append, List.cons_append, List.append_assoc] at h
  have hliteral : (s.token m).literal = Bytes.ofChars name.1.chars := h.literal
  obtain ⟨as, has, hread⟩ := callArgs_parts hexpr hargs hm hf h.tail
  have hplain : ∀ w ∈ (["IF", "FUNCTION"] : List Bytes), Bytes.byte ':' ∉ w := by decide
  have hif := beq_eq_false_iff_ne.2 (name.toUpper_ne (hplain "IF" (by simp)))
  have hfunction := beq_eq_false_iff_ne.2 (name.toUpper_ne (hplain "FUNCTION" (by simp)))
  have hnext : (s.token (m + 1)).kind = .lparen := h.tail.kind
  refine ⟨.call (s.token m).start.offset (if (Bytes.ofString "fn::").isPrefixOf
    (Bytes.toLower (Bytes.ofChars name.1.chars)) then .custom
      else .normal) (Bytes.ofChars name.1.chars) as,
    ?_, ?_⟩
  · rw [view, has]
    rfl
  · rw [Value.wordValue, bind_ok (get_ok _)]
    dsimp only
    rw [peek_cursor, peekAt_cursor, hliteral, name.wordLiteral?_eq]
    dsimp only
    rw [hif, name.startsStatement_eq h, hfunction, hnext]
    simp only [Bool.false_eq_true, if_false, Bool.false_and, beq_self_eq_true, if_true]
    rw [bind_ok h.discard_advance, bind_ok hread]
    simp only [List.length_cons, List.length_append, List.length_nil] at hlength
    rw [show m + (ExprTree.spellings (.call name args)).length =
      m + 1 + 1 + (divided .comma (ExprTree.parts args)).length + 1 by omega]
    rfl

variable (hs : s.Sound) (hm : lo ≤ m + 1) (hf : s.length < m + 1 + fuel)
include hs hm hf

theorem array_spellings {elems : List ExprTree} (helems : ExprTree.climbsAll elems)
    (h : s.Ahead m (ExprTree.spellings (.array elems) ++ rest)) :
    ∃ v, v.view .unplaced = ExprTree.value (.array elems) ∧ Value.array (expr 1) fuel (s.cursor m) =
      .ok (v, s.cursor (m + (ExprTree.spellings (.array elems)).length)) := by
  rw [Value.array, bind_ok (Ahead.advance h)]
  exact literal_divided rfl (by decide) (hexpr.parts helems) hs .array
    (trim_written_group '[' ']' (by decide) (by decide) .lbracket .rbracket rfl rfl _) hm hf h

theorem objectOrBlock_spellings {entries : List Entry} (hentries : ExprTree.climbsEntries entries)
    (h : s.Ahead m (ExprTree.spellings (.object entries) ++ rest)) :
    ∃ v, v.view .unplaced = ExprTree.value (.object entries) ∧
      Value.objectOrBlock (expr 1) fuel (s.cursor m) =
        .ok (v, s.cursor (m + (ExprTree.spellings (.object entries)).length)) := by
  have hspellings : ExprTree.spellings (.object entries) =
      .lbrace :: divided .comma (ExprTree.entryParts entries) ++ [.rbrace] := rfl
  have hahead : s.Ahead m (.lbrace ::
      (divided .comma (ExprTree.entryParts entries) ++ .rbrace :: rest)) := by
    simpa [hspellings] using h
  rw [Value.objectOrBlock, bind_ok (get_ok _), peekAt_cursor, peekAt_cursor,
    isObject_spellings hahead, bind_ok (Ahead.advance h), if_pos rfl]
  exact literal_divided rfl (by decide) (hexpr.entryParts hentries) hs .object
    (trim_written_group '\x7b' '\x7d' (by decide) (by decide) .lbrace .rbrace rfl rfl _) hm hf h

/-- An expression without operators and casts is read. -/
theorem primary_spellings (he : e.climbs) (hp : e.isPrimary) (h : s.Ahead m (e.spellings ++ rest)) :
    ∃ v, v.view .unplaced = e.value ∧
      primary (expr 1) fuel (s.cursor m) = .ok (v, s.cursor (m + e.spellings.length)) := by
  rw [primary, bind_ok peek_ok]
  cases e with
  | number n =>
    have hkind : (s.token m).kind = .number := (Ahead.kind h).trans n.2
    have hliteral : (s.token m).literal = Bytes.ofChars n.1.chars := Ahead.literal h
    refine ⟨.literal (s.token m).start.offset .number (Bytes.ofChars n.1.chars) [], rfl, ?_⟩
    rw [hkind]
    dsimp only [tokenLiteral?]
    rw [bind_ok (Ahead.discard_advance h), hliteral]
    rfl
  | string w =>
    have hkind : (s.token m).kind = .string := Ahead.kind h
    have hliteral : (s.token m).literal = Bytes.ofChars w.content := Ahead.literal h
    refine ⟨.literal (s.token m).start.offset .string (Bytes.ofChars w.content) [], rfl, ?_⟩
    rw [hkind]
    dsimp only [tokenLiteral?]
    rw [bind_ok (Ahead.discard_advance h), hliteral]
    rfl
  | param name =>
    have hkind : (s.token m).kind = .param := Ahead.kind h
    have hliteral : (s.token m).literal = Bytes.ofChars name.chars := Ahead.literal h
    refine ⟨.param (s.token m).start.offset (Bytes.ofChars name.chars), rfl, ?_⟩
    rw [hkind]
    dsimp only [tokenLiteral?]
    rw [bind_ok (Ahead.discard_advance h), hliteral]
    rfl
  | call name args =>
    rw [show (s.token m).kind = .ident from Ahead.kind h]
    exact wordValue_call hexpr name he (by omega) (by omega) h
  | array elems =>
    rw [show (s.token m).kind = .lbracket from Ahead.kind h]
    exact array_spellings hexpr hs hm hf he h
  | object entries =>
    rw [show (s.token m).kind = .lbrace from Ahead.kind h]
    exact objectOrBlock_spellings hexpr hs hm hf he h
  | cast kind operand => cases hp
  | binary left op right => cases hp

end Operand

/-- A token that starts an operand is no sign and no negation. -/
theorem StartsOperand.not_operator (hq : StartsOperand q) (h : s.Ahead m (q :: rest)) (w : Bytes) :
    (s.token m).isOperator w = false := by
  have hkind : q.kind ≠ .operator := by
    obtain hq | ⟨hq, -⟩ := hq
    · intro hk
      rw [hk] at hq
      revert hq
      decide
    · rw [hq]
      decide
  rw [Token.isOperator, h.kind, beq_eq_false_iff_ne.2 hkind, Bool.false_and]

/-- Before an operand the reader of signs, negations and casts looks for a cast only. -/
theorem unary_start {operand : Reader Value} {type : Reader Kind} (hq : StartsOperand q)
    (h : s.Ahead m (q :: rest)) (k : Nat) :
    unary operand type (k + 1) (s.cursor m) =
      (if q.kind == .lt then do
        discard advance
        let kind ← type
        expect .gt
        let v ← unary operand type k
        return .call (s.token m).start.offset .cast kind.render [v]
      else operand) (s.cursor m) := by
  have hsign : Value.isSign (s.token m) = false := by
    rw [Value.isSign, hq.not_operator h, hq.not_operator h, Bool.or_false]
  rw [unary, bind_ok (get_ok _),
    peek_cursor, hsign, hq.not_operator h, h.kind]
  rfl

/-- An expression without operators, casts and tail is read. -/
theorem withTail_spellings (hs : s.Sound) {lo fuel : Nat} (hexpr : ReadsExprs s lo expr)
    (he : e.climbs) (hp : e.isPrimary) (hm : lo ≤ m + 1) (hf : s.length < m + 1 + fuel)
    (h : s.Ahead m (e.spellings ++ rest)) (hend : isNoTail (s.token (m + e.spellings.length))) :
    ∃ v, v.view .unplaced = e.value ∧
      withTail (primary (expr 1) fuel) fuel (s.cursor m) =
        .ok (v, s.cursor (m + e.spellings.length)) := by
  obtain ⟨v, hv, hread⟩ := primary_spellings hexpr hs hm hf he hp h
  refine ⟨v, hv, ?_⟩
  rw [withTail, bind_ok hread, bind_ok (tailStep_noTail hend)]
  rfl

/-- The first token of an expression without operators and casts opens no cast. -/
theorem ExprTree.kind_ne_lt (hp : e.isPrimary) (hqs : e.spellings = q :: qs) :
    (q.kind == .lt) = false := by
  cases e with
  | number n =>
    obtain ⟨rfl, -⟩ := List.cons.inj hqs
    rw [show n.1.spelling.kind = .number from n.2]
    rfl
  | cast kind operand => cases hp
  | binary left op right => cases hp
  | _ =>
    obtain ⟨rfl, -⟩ := List.cons.inj hqs
    rfl

theorem operand_spellings (hs : s.Sound) {lo : Nat} (fuel : Nat) {type : Reader Kind}
    (hexpr : ReadsExprs s lo expr)
    (htype : ReadsKinds s lo type) (e : ExprTree) (he : e.climbs) (hb : e.isBinary = false)
    {m k : Nat}
    {rest : List Spelling} (hm : lo ≤ m + 1) (hf : s.length < m + 1 + fuel) (hk : s.length < m + k)
    (h : s.Ahead m (e.spellings ++ rest)) (hend : isNoTail (s.token (m + e.spellings.length))) :
    ∃ v, v.view .unplaced = e.value ∧
      unary (withTail (primary (expr 1) fuel) fuel) type k (s.cursor m) =
        .ok (v, s.cursor (m + e.spellings.length)) := by
  obtain ⟨k, rfl⟩ := Nat.exists_eq_add_one.2 (h.fuel_pos hk)
  obtain ⟨q, qs, hqs, hq⟩ := e.starts
  have hfirst : s.Ahead m (q :: (qs ++ rest)) := by
    rw [hqs] at h
    exact h
  rw [unary_start hq hfirst]
  match e with
  | .binary left op right => cases hb
  | .cast kind operand =>
    obtain ⟨rfl, -⟩ := List.cons.inj hqs
    rw [ExprTree.climbs, Bool.and_eq_true, Bool.not_eq_true'] at he
    have hspellings : ExprTree.spellings (.cast kind operand) =
        .lt :: (kind.spellings ++ .gt :: operand.spellings) := rfl
    have hlength := congrArg List.length hspellings
    rw [List.length_cons, List.length_append, List.length_cons] at hlength
    rw [hspellings, List.cons_append, List.append_assoc, List.cons_append] at h
    have hgt := h.tail.append
    rw [show m + (ExprTree.spellings (.cast kind operand)).length =
      m + 1 + kind.spellings.length + 1 + operand.spellings.length by omega] at hend ⊢
    obtain ⟨v, hv, hread⟩ := operand_spellings hs fuel hexpr htype operand he.2 he.1 (k := k)
      (by omega) (by omega) (by omega) hgt.tail hend
    refine ⟨.call (s.token m).start.offset .cast kind.kind.render [v], ?_, ?_⟩
    · rw [view, viewAll, viewAll, hv]
      rfl
    · rw [if_pos (by rfl), bind_ok h.discard_advance,
        bind_ok (htype kind hm h.tail (.inl rfl)), bind_ok (hgt.expect .gt rfl),
        bind_ok hread]
      rfl
  | .number _ | .string _ | .param _ | .call _ _ | .array _ | .object _ =>
    rw [ExprTree.kind_ne_lt rfl hqs]
    exact withTail_spellings hs hexpr he rfl hm hf h hend
termination_by sizeOf e

/-! ## Precedence climbing -/

/-- How many operators stand on the left spine of a tree. -/
def ExprTree.spine : ExprTree → Nat
  | .binary left _ _ => left.spine + 1
  | _ => 0

theorem ExprTree.spine_lt (e : ExprTree) : e.spine < e.spellings.length := by
  match e with
  | .binary left op right =>
    have hleft := left.spine_lt
    obtain ⟨q, qs, hqs, -⟩ := right.starts
    rw [spine, spellings, List.length_append, List.length_append, hqs, List.length_cons]
    omega
  | .number _ | .string _ | .param _ | .call _ _ | .cast _ _ | .array _ | .object _ =>
    simp [spine, spellings]

/-- Where no operator binds tightly enough, the left operand is the result. -/
theorem climb_ends {least fuel : Nat} (h : s.Ends m least) (left : Value) :
    climb expr least (fuel + 1) left (s.cursor m) = .ok (left, s.cursor m) := by
  rw [climb, bind_ok (get_ok _)]
  cases hop : at? (s.cursor m) with
  | none => rfl
  | some op =>
    dsimp only
    rw [if_pos (h.prec_lt op hop)]
    rfl

/-- An operator that binds tightly enough takes its right operand and the climb goes on. -/
theorem climb_op {least fuel n : Nat} {op : Op} {left right : Value} (hq : StartsOperand q)
    (h : s.Ahead m (op.spellings ++ q :: rest)) (hleast : least ≤ op.prec)
    (hright : expr (op.prec + 1) (s.cursor (m + op.spellings.length)) = .ok (right, s.cursor n)) :
    climb expr least (fuel + 1) left (s.cursor m) =
      climb expr least fuel (.binary left.pos left op.name right) (s.cursor n) := by
  rw [climb, bind_ok (get_ok _),
    op.at?_spellings hq h]
  dsimp only
  rw [if_neg (by omega), bind_ok h.jump, bind_ok hright]

theorem Passage.Ends.mono {least least' : Nat} (h : s.Ends m least) (hle : least ≤ least') :
    s.Ends m least' :=
  ⟨h.noTail, fun op hop => (h.prec_lt op hop).trans_le hle⟩

theorem Op.ends_spellings (op : Op) (hq : StartsOperand q)
    (h : s.Ahead m (op.spellings ++ q :: rest)) : s.Ends m (op.prec + 1) := by
  refine ⟨op.isNoTail_spellings h, fun op' hop => ?_⟩
  rw [op.at?_spellings hq h, Option.some.injEq] at hop
  rw [← hop]
  exact Nat.lt_succ_self _

/-- Reading a tree is reading the operators of its left spine, from the innermost one on, and then
going on with whatever follows the tree. -/
theorem exprFuel_spine (hs : s.Sound) {fuel least : Nat} (e : ExprTree) (he : e.climbs)
    (hleast : least ≤ e.prec) {rest : List Spelling} (hf : s.length < m + 1 + fuel)
    (hexpr : ReadsExprs s (m + 1) (exprFuel fuel)) (h : s.Ahead m (e.spellings ++ rest))
    (hend : s.Ends (m + e.spellings.length) (e.prec + 1)) :
    ∃ v, v.view .unplaced = e.value ∧ exprFuel (fuel + 1) least (s.cursor m) =
      climb (exprFuel fuel) least (fuel - e.spine) v (s.cursor (m + e.spellings.length)) := by
  by_cases hb : e.isBinary = true
  · match e with
    | .binary left op right =>
      simp only [ExprTree.climbs, Bool.and_eq_true, decide_eq_true_eq] at he
      obtain ⟨⟨⟨hl, hr⟩, hleft⟩, hright⟩ := he
      have hleast : least ≤ op.prec := hleast
      have hend : s.Ends (m + (ExprTree.spellings (.binary left op right)).length) (op.prec + 1) :=
        hend
      obtain ⟨q, qs, hqs, hq⟩ := right.starts
      have hspellings : ExprTree.spellings (.binary left op right) =
          left.spellings ++ (op.spellings ++ right.spellings) := by
        rw [ExprTree.spellings, List.append_assoc]
      have hlen := h.length
      have hlength := congrArg List.length hspellings
      rw [List.length_append, List.length_append] at hlength
      rw [List.length_append] at hlen
      rw [hspellings, List.append_assoc, List.append_assoc] at h
      have hop : s.Ahead (m + left.spellings.length) (op.spellings ++ q :: (qs ++ rest)) := by
        have := h.append
        rwa [hqs] at this
      have hpos := left.spine_lt
      -- the spine of the left operand comes first, and this operator ends it
      obtain ⟨v, hv, hspine⟩ := exprFuel_spine hs left hleft (hleast.trans hl) hf hexpr h
        ((op.ends_spellings hq hop).mono (by omega))
      rw [show m + (ExprTree.spellings (.binary left op right)).length =
        m + left.spellings.length + op.spellings.length + right.spellings.length by omega] at hend ⊢
      obtain ⟨w, hw, hread⟩ := hexpr right (op.prec + 1) hright hr (by omega) h.append.append hend
      refine ⟨.binary v.pos v op.name w, ?_, ?_⟩
      · rw [view, hv, hw]
        rfl
      · obtain ⟨k, hk⟩ : ∃ k, fuel - left.spine = k + 1 := ⟨fuel - left.spine - 1, by omega⟩
        rw [hspine, hk, climb_op hq hop hleast hread, ExprTree.spine,
          show fuel - (left.spine + 1) = k by omega]
  · have hspine : e.spine = 0 := by
      cases e with
      | binary left op right => exact absurd rfl hb
      | _ => simp [ExprTree.spine]
    obtain ⟨v, hv, hread⟩ := operand_spellings hs fuel hexpr
      (kindFuel_spellings hs fuel (by omega)) e he (by simpa using hb) (k := fuel + 1) le_rfl hf
        (by omega) h
      hend.noTail
    refine ⟨v, hv, ?_⟩
    rw [exprFuel, hspine, Nat.sub_zero]
    exact bind_ok hread _
termination_by sizeOf e

/-- Reading the tokens of a tree that climbs gives the expression of the tree. -/
theorem exprFuel_spellings (hs : s.Sound) (fuel : Nat) {lo : Nat} (hf : s.length < lo + fuel) :
    ReadsExprs s lo (exprFuel fuel) := by
  induction fuel generalizing lo with
  | zero =>
    intro e least m rest he hleast hm h hend
    have := h.length
    omega
  | succ fuel ih =>
    intro e least m rest he hleast hm h hend
    have hnested : ReadsExprs s (m + 1) (exprFuel fuel) := ih (by omega)
    obtain ⟨v, hv, hread⟩ := exprFuel_spine hs e he hleast (by omega) hnested h
      (hend.mono (by omega))
    have hspine := e.spine_lt
    have hlen := h.length
    rw [List.length_append] at hlen
    obtain ⟨k, hk⟩ : ∃ k, fuel - e.spine = k + 1 := ⟨fuel - e.spine - 1, by omega⟩
    exact ⟨v, hv, by rw [hread, hk, climb_ends hend]⟩

end AccessLayer.Surql
