import AccessLayer.Proofs.Surql.Groups

/-!
# Layouts of expressions and statements

A reader turns tokens into an expression in two steps that the result does not show: it decides
which tokens each part of the expression takes, and it fills in what those tokens say. A layout is
the outcome of the first step. It knows tokens by their numbers alone, so that the same layout can
be filled in from another statement.

* `Layout`: the parts of an expression and the tokens that they take.
* `Layout.value`: the expression that a layout is in a statement.
* `Passage.Fits.lt`, `Passage.Fits.le`: a layout takes at least one token, and none past the end.
-/

namespace AccessLayer.Surql

/-- How an expression is laid out over the tokens of a statement, known by their numbers. -/
inductive Layout where
  /-- A literal that is the token `i`. -/
  | token (i : Nat) (kind : LiteralKind)
  /-- A literal that is the source text from token `i` up to token `j`, with its elements. -/
  | text (i j : Nat) (kind : LiteralKind) (elems : List Layout)
  /-- The parameter that is the token `i`. -/
  | param (i : Nat)
  /-- A call of the function that token `i` names. -/
  | call (i : Nat) (kind : CallKind) (args : List Layout)
  /-- A script that starts with token `i` and has its body from token `b` up to token `j`. -/
  | script (i b j : Nat) (args : List Layout)
  /-- A cast that starts with token `i` and has its operand at token `o`. -/
  | cast (i o : Nat) (type : Kind) (operand : Layout)
  | binary (left : Layout) (op : BinaryOp) (right : Layout)
  /-- The name that is the token `i`. -/
  | name (i : Nat)
  /-- Anything else, as the source text from token `i` up to token `j`. -/
  | source (i j : Nat) (kind : OpaqueKind)

namespace Layout

def first : Layout → Nat
  | token i _ | text i _ _ _ | param i | call i _ _ | script i _ _ _ | cast i _ _ _ | name
    i | source i _ _ => i
  | binary left _ _ => left.first

mutual

/-- The expression that a layout is in a statement. -/
def value (s : Passage) : Layout → Value
  | token i kind => .literal (s.token i).start.offset kind (s.token i).literal []
  | text i j kind elems =>
    .literal (s.token i).start.offset kind (s.text i (j - 1)) (values s elems)
  | param i => .param (s.token i).start.offset (s.token i).literal
  | call i kind args => .call (s.token i).start.offset kind (s.token i).literal (values s args)
  | script i _ _ args => .call (s.token i).start.offset .script "function" (values s args)
  | cast i _ type operand => .call (s.token i).start.offset .cast type.render [value s operand]
  | binary left op right =>
    .binary (s.token left.first).start.offset (value s left) op.name (value s right)
  | name i => .other (s.token i).start.offset .idiom (s.token i).literal
  | source i j kind => .other (s.token i).start.offset kind (s.text i (j - 1))

/-- The expressions that layouts are in a statement. -/
def values (s : Passage) : List Layout → List Value
  | [] => []
  | e :: es => value s e :: values s es

end

theorem pos_value (s : Passage) (e : Layout) :
    (e.value s).pos = (s.token e.first).start.offset := by
  cases e <;> rfl

end Layout

namespace Passage

mutual

/-- The layout `e` takes the tokens from `m` up to `n`. -/
inductive Fits (s : Passage) : Layout → Nat → Nat → Prop
  | token {i : Nat} {kind : LiteralKind} (hi : i < s.length) (hk : (s.token i).kind ≠ .param) :
    Fits s (.token i kind) i (i + 1)
  /-- A signed number, or a table with the key of a record. -/
  | flat {i j : Nat} {kind : LiteralKind} (hij : i < j) (hj : j ≤ s.length) :
    Fits s (.text i j kind []) i j
  | array {i j : Nat} {elems : List Layout} (ho : (s.token i).kind = .lbracket)
    (h : FitsAll s 0 elems (i + 1) j) (hc : (s.token j).kind = .rbracket) (hj : j < s.length) :
    Fits s (.text i (j + 1) .array elems) i (j + 1)
  /-- An object: the values of its entries come after a key and a colon. -/
  | object {i j : Nat} {elems : List Layout} (ho : (s.token i).kind = .lbrace)
    (h : FitsAll s 2 elems (i + 1) j) (hc : (s.token j).kind = .rbrace) (hj : j < s.length) :
    Fits s (.text i (j + 1) .object elems) i (j + 1)
  | param {i : Nat} (hi : i < s.length) (hk : (s.token i).kind = .param) :
    Fits s (.param i) i (i + 1)
  | call {i j : Nat} {kind : CallKind} {args : List Layout} (hi : (s.token i).kind = .ident)
    (ho : (s.token (i + 1)).kind = .lparen) (h : FitsAll s 0 args (i + 2) j)
    (hc : (s.token j).kind = .rparen) (hj : j < s.length) :
    Fits s (.call i kind args) i (j + 1)
  | script {i b j : Nat} {args : List Layout} (hi : (s.token i).kind = .ident)
    (ho : (s.token (i + 1)).kind = .lparen) (h : FitsAll s 0 args (i + 2) b)
    (hc : (s.token b).kind = .rparen) (hb : (s.token (b + 1)).kind = .lbrace) (hbj : b + 1 < j)
    (hj : j ≤ s.length) : Fits s (.script i (b + 1) j args) i j
  | cast {i o n : Nat} {type : Kind} {operand : Layout} (hi : (s.token i).kind = .lt) (hio : i < o)
    (h : Fits s operand o n) : Fits s (.cast i o type operand) i n
  | binary {m i n : Nat} {left right : Layout} {op : BinaryOp} (hleft : Fits s left m i)
    (hop : BinaryOp.at? (s.cursor i) = some op) (hright : Fits s right (i + op.width) n) :
    Fits s (.binary left op right) m n
  | name {i : Nat} (hi : i < s.length) : Fits s (.name i) i (i + 1)
  | source {i j : Nat} {kind : OpaqueKind} (hij : i < j) (hj : j ≤ s.length) :
    Fits s (.source i j kind) i j

/-- The layouts take the tokens from `m` up to `n`, with a comma between any two of them and perhaps
after the last. Each comes after `k` tokens of its own. -/
inductive FitsAll (s : Passage) : Nat → List Layout → Nat → Nat → Prop
  | nil {k m : Nat} : FitsAll s k [] m m
  | last {k m n : Nat} {e : Layout} (h : Fits s e (m + k) n) : FitsAll s k [e] m n
  | cons {k m j n : Nat} {e : Layout} {es : List Layout} (h : Fits s e (m + k) j)
    (hc : (s.token j).kind = .comma) (hes : FitsAll s k es (j + 1) n) : FitsAll s k (e :: es) m n

end

variable {s : Passage}

mutual

/-- A layout starts with the first token that it takes, takes at least one and none past the end of
the statement. -/
theorem Fits.bounds {e : Layout} {m n : Nat} (h : s.Fits e m n) :
    e.first = m ∧ m < n ∧ n ≤ s.length := by
  cases h with
  | token hi | param hi | name hi => exact ⟨rfl, Nat.lt_succ_self _, hi⟩
  | flat hij hj | source hij hj => exact ⟨rfl, hij, hj⟩
  | array _ h _ hj =>
    have := FitsAll.le h
    exact ⟨rfl, by omega, hj⟩
  | object _ h _ hj =>
    have := FitsAll.le h
    exact ⟨rfl, by omega, hj⟩
  | call _ _ h _ hj =>
    have := FitsAll.le h
    exact ⟨rfl, by omega, hj⟩
  | script _ _ h _ _ hbj hj =>
    have := FitsAll.le h
    exact ⟨rfl, by omega, hj⟩
  | cast _ hio h =>
    obtain ⟨-, hlt, hle⟩ := Fits.bounds h
    exact ⟨rfl, by omega, hle⟩
  | binary hleft _ hright =>
    obtain ⟨hfirst, hlt, -⟩ := Fits.bounds hleft
    obtain ⟨-, hlt', hle⟩ := Fits.bounds hright
    exact ⟨hfirst, by omega, hle⟩

theorem FitsAll.le {k : Nat} {es : List Layout} {m n : Nat} (h : s.FitsAll k es m n) : m ≤ n := by
  cases h with
  | nil => exact Nat.le_refl _
  | last h =>
    obtain ⟨-, hlt, -⟩ := Fits.bounds h
    omega
  | cons h _ hes =>
    obtain ⟨-, hlt, -⟩ := Fits.bounds h
    have := FitsAll.le hes
    omega

end

variable {e : Layout} {m n : Nat}

theorem Fits.first_eq (h : s.Fits e m n) : e.first = m := h.bounds.1

theorem Fits.lt (h : s.Fits e m n) : m < n := h.bounds.2.1

theorem Fits.le (h : s.Fits e m n) : n ≤ s.length := h.bounds.2.2

end Passage

/-! ## Brackets -/

namespace Layout

mutual

/-- All brackets are closed in the parts that are kept as source text. Arrays and objects are such
parts, and a record is one too unless the token says that it is a record. -/
def Whole (s : Passage) : Layout → Prop
  | token i kind => kind ∉ [.array, .object] ∧ (kind = .record → (s.token i).kind = .recordId)
  | text i j _ elems => s.Whole i j ∧ AllWhole s elems
  | param _ | name _ => True
  | call _ _ args | script _ _ _ args => AllWhole s args
  | cast _ _ _ operand => Whole s operand
  | binary left _ right => Whole s left ∧ Whole s right
  | source i j _ => s.Whole i j

/-- The same of each of several layouts. -/
def AllWhole (s : Passage) : List Layout → Prop
  | [] => True
  | e :: es => Whole s e ∧ AllWhole s es

end

end Layout

namespace Passage

/-- The layout `e` takes the tokens from `m` up to `n`, and neither they nor its parts leave a
bracket open. -/
structure Stands (s : Passage) (e : Layout) (m n : Nat) : Prop where
  fits : s.Fits e m n
  whole : e.Whole s
  run : s.Whole m n

/-- The same of layouts with commas between them, each after `k` tokens of its own. -/
structure StandAll (s : Passage) (k : Nat) (es : List Layout) (m n : Nat) : Prop where
  fits : s.FitsAll k es m n
  whole : Layout.AllWhole s es
  run : s.Whole m n

end Passage

/-! ## Statements -/

/-- A name that is one token, or the source text from token `i` up to token `j`. -/
inductive NameLayout where
  | token (i : Nat)
  | text (i j : Nat)

namespace NameLayout

def name (s : Passage) : NameLayout → Bytes
  | token i => (s.token i).literal
  | text i j => s.text i (j - 1)

def Fits (s : Passage) : NameLayout → Prop
  | token i => i < s.length
  | text i j => i < j ∧ j ≤ s.length

end NameLayout

/-- How a field definition is laid out: the tokens of its name, its table and its expressions. -/
structure FieldLayout where
  name : NameLayout
  table : Nat
  kind : Option Kind := none
  value : Option Layout := none
  default : Option Layout := none
  assert : Option Layout := none
  flexible : Bool := false
  readonly : Bool := false

def FieldLayout.definition (s : Passage) (l : FieldLayout) : FieldDef where
  pos := (s.token 0).start.offset
  name := l.name.name s
  table := (s.token l.table).literal
  kind := l.kind
  value := l.value.map (Layout.value s)
  default := l.default.map (Layout.value s)
  assert := l.assert.map (Layout.value s)
  flexible := l.flexible
  readonly := l.readonly

/-- The layout `e` is what the reader of expressions makes of the tokens from `m` up to `n`. -/
structure Passage.ReadsAs (s : Passage) (e : Layout) (m n : Nat) : Prop where
  fits : s.Fits e m n
  read : value (s.cursor m) = .ok (e.value s, s.cursor n)

/-- The parts of a field definition were read from the statement, and its value after the word
`VALUE`. -/
structure FieldLayout.Fits (s : Passage) (l : FieldLayout) : Prop where
  name : l.name.Fits s
  table : l.table < s.length
  value : ∀ e ∈ l.value, ∃ m n, (s.token m).isKeyword "VALUE" = true ∧ s.ReadsAs e (m + 1) n
  default : ∀ e ∈ l.default, ∃ m n, s.ReadsAs e m n
  assert : ∀ e ∈ l.assert, ∃ m n, s.ReadsAs e m n

/-- How an event definition is laid out. -/
structure EventLayout where
  name : Nat
  table : Nat
  when? : Option Layout := none
  actions : List Layout := []

def EventLayout.definition (s : Passage) (l : EventLayout) : EventDef where
  pos := (s.token 0).start.offset
  name := (s.token l.name).literal
  table := (s.token l.table).literal
  when? := l.when?.map (Layout.value s)
  actions := l.actions.map (Layout.value s)

/-- The parts of an event definition were read from the statement. -/
structure EventLayout.Fits (s : Passage) (l : EventLayout) : Prop where
  name : l.name < s.length
  table : l.table < s.length
  when? : ∀ e ∈ l.when?, ∃ m n, s.ReadsAs e m n
  actions : ∀ e ∈ l.actions, ∃ m n, s.ReadsAs e m n

/-- How a statement is laid out. -/
inductive StatementLayout where
  /-- A table definition that is named by the token `name`. -/
  | table (name : Nat) (schemafull drop : Bool)
  | field (l : FieldLayout)
  | event (l : EventLayout)
  | define (kind : Bytes)
  | raw (keyword : Bytes)

namespace StatementLayout

def statement (s : Passage) : StatementLayout → Statement
  | table name schemafull drop =>
    .table ⟨(s.token 0).start.offset, (s.token name).literal, schemafull, drop⟩
  | field l => .field (l.definition s)
  | event l => .event (l.definition s)
  | define kind => .define (s.token 0).start.offset kind (s.text 0 (s.length - 1))
  | raw keyword => .raw (s.token 0).start.offset keyword (s.text 0 (s.length - 1))

/-- All parts of a statement were read from it. -/
def Fits (s : Passage) : StatementLayout → Prop
  | table name _ _ => name < s.length
  | field l => l.Fits s
  | event l => l.Fits s
  | define _ | raw _ => True

end StatementLayout

end AccessLayer.Surql
