import AccessLayer.Proofs.Surql.KindTree

/-!
# Expressions, written

An expression as a tree with its binary operators, and how it is written without parentheses.

* `Op`: the binary operators.
* `ExprTree.spellings`: the tokens of a tree.
* `ExprTree.balanced`, `ExprTree.starts`: its brackets match, and what it starts with.
-/

namespace AccessLayer.Surql

open BinaryOp

/-! ## Operators -/

/-- A binary operator. -/
inductive Op where
  | less
  | greater
  /-- An operator of the table of symbols. -/
  | symbol (i : Fin symbolPrec.length)
  /-- A word of the table of membership tests. -/
  | word (i : Fin wordOps.length)
  | or
  | and
  | is
  | isNot
  | notIn
  | notInside

namespace Op

def name : Op → Bytes
  | less => "<"
  | greater => ">"
  | symbol i => (symbolPrec.get i).1
  | word i => wordOps.get i
  | or => "OR"
  | and => "AND"
  | is => "IS"
  | isNot => "IS NOT"
  | notIn => "NOT IN"
  | notInside => "NOT INSIDE"

/-- How tightly an operator binds. -/
def prec : Op → Nat
  | symbol i => (symbolPrec.get i).2
  | or => 1
  | and => 2
  | is | isNot => 4
  | word _ | notIn | notInside => 5
  | less | greater => 6

theorem check_symbol : ∀ i : Fin symbolPrec.length,
    Spelling.check (Bytes.chars (symbolPrec.get i).1) .operator (symbolPrec.get i).1 =
      true := by
  decide

theorem check_word : ∀ i : Fin wordOps.length,
    Spelling.check (Bytes.chars (wordOps.get i)) .ident (wordOps.get i) := by
  decide

def spellings : Op → List Spelling
  | less => [.lt]
  | greater => [.gt]
  | symbol i => [.of _ .operator _ (check_symbol i)]
  | word i => [.keyword _ (check_word i)]
  | or => [.keyword "OR" (by decide +kernel)]
  | and => [.keyword "AND" (by decide +kernel)]
  | is => [.keyword "IS" (by decide +kernel)]
  | isNot => [.keyword "IS" (by decide +kernel), .keyword "NOT" (by decide +kernel)]
  | notIn => [.keyword "NOT" (by decide +kernel), .keyword "IN" (by decide +kernel)]
  | notInside => [.keyword "NOT" (by decide +kernel), .keyword "INSIDE" (by decide +kernel)]

theorem prec_pos (op : Op) : 1 ≤ op.prec := by
  cases op with
  | symbol i => revert i; decide
  | _ => simp [prec]

theorem balanced (op : Op) : Balanced op.spellings := by
  cases op <;> rfl

end Op

/-! ## Trees -/

/-- A name of a function in a module: an identifier with `::` in it. -/
abbrev QualifiedName := { name : Path // name.others ≠ [] }

abbrev PlainNumber := { n : Number // n.suffix.kind = .number }

mutual

/-- An expression. -/
inductive ExprTree where
  | number (n : PlainNumber)
  | string (q : Quoted)
  | param (name : ParamName)
  | call (name : QualifiedName) (args : List ExprTree)
  | cast (kind : KindTree) (operand : ExprTree)
  | array (elems : List ExprTree)
  | object (entries : List Entry)
  | binary (left : ExprTree) (op : Op) (right : ExprTree)

/-- A key of an object with its value. -/
inductive Entry where
  | mk (key : Word) (value : ExprTree)

end

namespace ExprTree

/-- How tightly the outermost operator binds; a tree without operator binds tighter than all. -/
def prec : ExprTree → Nat
  | binary _ op _ => op.prec
  | _ => 10

def isBinary : ExprTree → Bool
  | binary _ _ _ => true
  | _ => false

mutual

/-- Whether in every part a left operand binds at least as tightly as its operator, a right operand
tighter, and no operator stands directly after a cast. -/
def climbs : ExprTree → Bool
  | .number _ | .string _ | .param _ => true
  | .call _ args => climbsAll args
  | .cast _ operand => !operand.isBinary && climbs operand
  | .array elems => climbsAll elems
  | .object entries => climbsEntries entries
  | .binary left op right =>
    decide (op.prec ≤ left.prec) && decide (op.prec < right.prec) && climbs left && climbs right

def climbsAll : List ExprTree → Bool
  | [] => true
  | e :: es => climbs e && climbsAll es

def climbsEntries : List Entry → Bool
  | [] => true
  | .mk _ e :: es => climbs e && climbsEntries es

end

/-! ## Tokens -/

mutual

/-- The tokens of an expression. -/
def spellings : ExprTree → List Spelling
  | .number n => [n.1.spelling]
  | .string q => [q.spelling]
  | .param name => [name.spelling]
  | .call name args => name.1.spelling :: .lparen :: divided .comma (parts args) ++ [.rparen]
  | .cast kind operand => .lt :: kind.spellings ++ .gt :: spellings operand
  | .array elems => .lbracket :: divided .comma (parts elems) ++ [.rbracket]
  | .object entries => .lbrace :: divided .comma (entryParts entries) ++ [.rbrace]
  | .binary left op right => spellings left ++ op.spellings ++ spellings right

def parts : List ExprTree → List (List Spelling)
  | [] => []
  | e :: es => spellings e :: parts es

/-- The tokens of each of several entries. -/
def entryParts : List Entry → List (List Spelling)
  | [] => []
  | .mk key e :: es => (key.spelling :: .colon :: spellings e) :: entryParts es

end

/-! ## Values -/

mutual

/-- The expression of a tree, at no particular place. -/
def value : ExprTree → Value
  | .number n => .literal 0 .number (Bytes.ofChars n.1.chars) []
  | .string q => .literal 0 .string (Bytes.ofChars q.content) []
  | .param name => .param 0 (Bytes.ofChars name.chars)
  | .call name args =>
    .call 0 (if (Bytes.ofString "fn::").isPrefixOf
      (Bytes.toLower (Bytes.ofChars name.1.chars)) then .custom
      else .normal) (Bytes.ofChars name.1.chars) (values args)
  | .cast kind operand => .call 0 .cast kind.kind.render [value operand]
  | .array elems => .literal 0 .array (written (spellings (.array elems))) (values elems)
  | .object entries =>
    .literal 0 .object (written (spellings (.object entries))) (entryValues entries)
  | .binary left op right => .binary 0 (value left) op.name (value right)

def values : List ExprTree → List Value
  | [] => []
  | e :: es => value e :: values es

/-- The values of several entries. -/
def entryValues : List Entry → List Value
  | [] => []
  | .mk _ e :: es => value e :: entryValues es

end

/-! ## What expressions are like -/

mutual

/-- The brackets of an expression match. -/
theorem balanced : ∀ e : ExprTree, Balanced e.spellings
  | .number n => by
    show nesting false [] [n.1.suffix.kind] = some []
    rw [n.2]
    rfl
  | .string q => (rfl : Balanced [q.spelling])
  | .param name => (rfl : Balanced [name.spelling])
  | .call _ args =>
    (Balanced.group (o := .lparen) (c := .rparen) rfl
      (Balanced.divided rfl (balanced_parts args)).enclosed).cons rfl
  | .cast kind operand => (kind.balanced.append ((balanced operand).cons (q := .gt) rfl)).cons rfl
  | .array elems =>
    .group (o := .lbracket) (c := .rbracket) rfl
      (Balanced.divided rfl (balanced_parts elems)).enclosed
  | .object entries =>
    .group (o := .lbrace) (c := .rbrace) rfl
      (Balanced.divided rfl (balanced_entryParts entries)).enclosed
  | .binary left op right => ((balanced left).append op.balanced).append (balanced right)

theorem balanced_parts : ∀ es : List ExprTree, ∀ part ∈ parts es, Balanced part
  | [] => fun _ h => absurd h List.not_mem_nil
  | e :: es => List.forall_mem_cons.2 ⟨balanced e, balanced_parts es⟩

theorem balanced_entryParts : ∀ es : List Entry, ∀ part ∈ entryParts es, Balanced part
  | [] => fun _ h => absurd h List.not_mem_nil
  | .mk _ e :: es =>
    List.forall_mem_cons.2 ⟨((balanced e).cons (q := .colon) rfl).cons rfl, balanced_entryParts es⟩

end

end ExprTree

/-- What an operand may start with: a token that is no operator and no keyword. -/
def StartsOperand (q : Spelling) : Prop :=
  q.kind ∈ [.number, .string, .param, .lt, .lbracket, .lbrace] ∨
    (q.kind = .ident ∧ Bytes.byte ':' ∈ q.literal)

theorem QualifiedName.colon_mem (name : QualifiedName) : ':' ∈ name.1.chars := by
  obtain ⟨⟨first, others⟩, h⟩ := name
  obtain ⟨w, ws, rfl⟩ := List.exists_cons_of_ne_nil h
  simp [Path.chars, Path.moreChars]

theorem colon_mem_ofChars {cs : List Char} (h : ':' ∈ cs) : Bytes.byte ':' ∈ Bytes.ofChars cs :=
  List.mem_flatMap.2 ⟨':', h, by decide⟩

theorem ExprTree.starts : ∀ e : ExprTree, ∃ q qs, e.spellings = q :: qs ∧ StartsOperand q
  | .number n => ⟨_, _, rfl, .inl (by rw [show n.1.spelling.kind = .number from n.2]; decide)⟩
  | .string q => ⟨_, _, rfl, .inl (by rw [show q.spelling.kind = .string from rfl]; decide)⟩
  | .param name => ⟨_, _, rfl, .inl (by rw [show name.spelling.kind = .param from rfl]; decide)⟩
  | .call name _ => ⟨_, _, rfl, .inr ⟨rfl, colon_mem_ofChars (QualifiedName.colon_mem name)⟩⟩
  | .cast _ _ => ⟨_, _, rfl, .inl (by decide)⟩
  | .array _ => ⟨_, _, rfl, .inl (by decide)⟩
  | .object _ => ⟨_, _, rfl, .inl (by decide)⟩
  | .binary left op right => by
    obtain ⟨q, qs, h, hq⟩ := starts left
    exact ⟨q, _, by rw [spellings, h]; rfl, hq⟩

end AccessLayer.Surql
