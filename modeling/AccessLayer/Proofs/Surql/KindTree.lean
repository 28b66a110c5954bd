import AccessLayer.Proofs.Surql.Ahead
import AccessLayer.Proofs.Surql.KindTokens
import AccessLayer.Proofs.Surql.LexicalForms

/-!
# Type expressions, written and read

A type expression as a tree, how it is written, and the type that is read from it.

* `KindTree.kind`: the type of a tree.
* `KindTree.spellings`: the tokens of a tree.
* `kindFuel_spellings`: reading the tokens of a tree gives its type.
-/

namespace AccessLayer.Surql

open Bytes

variable {parts : List (List Spelling)} {sep : Spelling}

/-! ## Trees -/

/-- The name of a type: an identifier in lower case that has no meaning of its own. -/
structure KindName where
  path : Path
  lower : Bytes.toLower (ofChars path.chars) = ofChars path.chars
  plain : ofChars path.chars ∉ [Kind.eitherName, Kind.literalName, Kind.recordName]

def KindName.text (n : KindName) : Bytes := ofChars n.path.chars

/-- A literal type: a number or a duration, a string, or anything between brackets. -/
inductive LiteralType where
  | number (n : Number)
  | string (q : Quoted)
  | braces (inner : List Spelling) (h : Enclosed inner)
  | brackets (inner : List Spelling) (h : Enclosed inner)

namespace LiteralType

def spellings : LiteralType → List Spelling
  | number n => [n.spelling]
  | string q => [q.spelling]
  | braces inner _ => .lbrace :: inner ++ [.rbrace]
  | brackets inner _ => .lbracket :: inner ++ [.rbracket]

/-- The text of a literal type: what is written, but that strings are quoted anew. -/
def text : LiteralType → Bytes
  | string q => quote (ofChars q.content)
  | l => written l.spellings

end LiteralType

mutual

/-- A type expression: one type or an alternation of several. -/
inductive KindTree where
  | single (k : SingleKind)
  | either (first second : SingleKind) (others : List SingleKind)

/-- A type that is no alternation: a name with arguments, a link to records of some tables or of
any, or a literal type. -/
inductive SingleKind where
  | named (name : KindName) (args : List KindTree)
  | record (tables : List SingleKind)
  | literal (l : LiteralType)

end

mutual

def KindTree.kind : KindTree → Kind
  | .single k => k.kind
  | .either first second others =>
    .mk Kind.eitherName (first.kind :: second.kind :: SingleKind.kinds others) []

/-- The type of a tree that is no alternation. -/
def SingleKind.kind : SingleKind → Kind
  | .named name args => .mk name.text (KindTree.kinds args) []
  | .record tables => .mk Kind.recordName (SingleKind.kinds tables) []
  | .literal l => .ofLiteral l.text

def KindTree.kinds : List KindTree → List Kind
  | [] => []
  | k :: ks => k.kind :: KindTree.kinds ks

/-- The types of several trees that are no alternations. -/
def SingleKind.kinds : List SingleKind → List Kind
  | [] => []
  | k :: ks => k.kind :: SingleKind.kinds ks

end

/-! ## Tokens -/

/-- Parts with a token between any two of them. -/
def divided (sep : Spelling) : List (List Spelling) → List Spelling
  | [] => []
  | part :: parts => part ++ parts.flatMap (sep :: ·)

/-- Parts between angle brackets; no brackets stand around nothing. -/
def angled (sep : Spelling) (parts : List (List Spelling)) : List Spelling :=
  if parts.isEmpty then [] else .lt :: divided sep parts ++ [.gt]

/-- The word `record`. -/
def Spelling.record : Spelling := .keyword Kind.recordName (by decide +kernel)

mutual

def KindTree.spellings : KindTree → List Spelling
  | .single k => k.spellings
  | .either first second others =>
    divided .bar (first.spellings :: second.spellings :: SingleKind.parts others)

/-- The tokens of a type that is no alternation. -/
def SingleKind.spellings : SingleKind → List Spelling
  | .named name args => name.path.spelling :: angled .comma (KindTree.parts args)
  | .record tables => .record :: angled .bar (SingleKind.parts tables)
  | .literal l => l.spellings

/-- The tokens of each of several type expressions. -/
def KindTree.parts : List KindTree → List (List Spelling)
  | [] => []
  | k :: ks => k.spellings :: KindTree.parts ks

/-- The tokens of each of several types that are no alternations. -/
def SingleKind.parts : List SingleKind → List (List Spelling)
  | [] => []
  | k :: ks => k.spellings :: SingleKind.parts ks

end

theorem divided_cons_cons (sep : Spelling) (part next : List Spelling)
    (parts : List (List Spelling)) :
    divided sep (part :: next :: parts) = part ++ sep :: divided sep (next :: parts) := by
  simp [divided]

/-! ## Brackets -/

theorem Balanced.cons {q : Spelling} {qs : List Spelling} (h : Balanced qs)
    (hq : nesting false [] [q.kind] = some []) : Balanced (q :: qs) :=
  @Balanced.append [q] qs hq h

section

variable (hsep : nesting false [] [sep.kind] = some []) (h : ∀ part ∈ parts, Balanced part)
include hsep h

theorem Balanced.flatMap : Balanced (parts.flatMap (sep :: ·)) := by
  induction parts with
  | nil => exact .nil
  | cons part parts ih =>
    rw [List.flatMap_cons]
    exact ((h part (by simp)).cons hsep).append (ih fun part hp => h part (by simp [hp]))

theorem Balanced.divided : Balanced (divided sep parts) := by
  cases parts with
  | nil => exact .nil
  | cons part parts =>
    exact (h part (by simp)).append (.flatMap hsep fun part hp => h part (by simp [hp]))

theorem Balanced.angled : Balanced (angled sep parts) := by
  rw [Surql.angled]
  split_ifs
  · exact .nil
  · exact ((Balanced.divided hsep h).cons rfl).append (rfl : Balanced [.gt])

end

theorem LiteralType.balanced (l : LiteralType) : Balanced l.spellings := by
  cases l with
  | number n =>
    have hkind : n.suffix.kind = .number ∨ n.suffix.kind = .duration := by
      cases n.suffix <;> simp [Suffix.kind]
    show nesting false [] [n.suffix.kind] = some []
    obtain h | h := hkind <;> rw [h] <;> rfl
  | string q => exact (rfl : Balanced [q.spelling])
  | braces inner h => exact .group (c := .rbrace) rfl h
  | brackets inner h => exact .group (c := .rbracket) rfl h

mutual

/-- The brackets of a type expression match. -/
theorem KindTree.balanced : ∀ k : KindTree, Balanced k.spellings
  | .single k => k.balanced
  | .either first second others =>
    show Balanced (divided .bar (first.spellings :: second.spellings ::
      SingleKind.parts others)) from
      .divided rfl (List.forall_mem_cons.2
        ⟨first.balanced, List.forall_mem_cons.2 ⟨second.balanced,
          SingleKind.balanced_parts others⟩⟩)

theorem SingleKind.balanced : ∀ k : SingleKind, Balanced k.spellings
  | .named _ args => (Balanced.angled rfl (KindTree.balanced_parts args)).cons rfl
  | .record tables => (Balanced.angled rfl (SingleKind.balanced_parts tables)).cons rfl
  | .literal l => l.balanced

theorem KindTree.balanced_parts : ∀ ks : List KindTree, ∀ part ∈ KindTree.parts ks, Balanced part
  | [] => fun _ h => absurd h List.not_mem_nil
  | k :: ks => List.forall_mem_cons.2 ⟨k.balanced, KindTree.balanced_parts ks⟩

theorem SingleKind.balanced_parts :
    ∀ ks : List SingleKind, ∀ part ∈ SingleKind.parts ks, Balanced part
  | [] => fun _ h => absurd h List.not_mem_nil
  | k :: ks => List.forall_mem_cons.2 ⟨k.balanced, SingleKind.balanced_parts ks⟩

end

/-! ## Reading -/

section Reading

open Passage

variable {s : Passage}

/-- The source text of tokens between brackets starts and ends with the brackets. -/
theorem trim_written_group (o c : Char) (ho : isSpace o = false) (hc : isSpace c = false)
    (q q' : Spelling) (hq : q.chars = [o]) (hq' : q'.chars = [c]) (inner : List Spelling) :
    trim (written (q :: inner ++ [q'])) = written (q :: inner ++ [q']) := by
  have hrunes : runes (written (q :: inner ++ [q'])) =
      Rune.ofChar o :: (blank :: spaced inner ++ [Rune.ofChar c]) := by
    rw [runes_written, writtenRunes_append _ (by simp), writtenRunes, spaced, List.flatMap_cons,
      ← spaced]
    simp [Spelling.runes, hq, hq']
  exact trim_eq_self hrunes ho (w := Rune.ofChar o :: blank :: spaced inner) hrunes hc

/-- The spellings are read as the type wherever they stand in the statement. -/
def Reads (s : Passage) (bars : Bool) (part : List Spelling) (k : Kind) : Prop :=
  ∀ {m : Nat} {rest : List Spelling}, s.Ahead m (part ++ rest) → ReadAs s bars k m (m + part.length)

/-- Parts that are read as types are read as types divided by what stands between them. -/
theorem dividedBy_divided {bars : Bool} {sep' : Token → Prop}
    (hsep : ∀ {m : Nat} {rest : List Spelling}, s.Ahead m (sep :: rest) → sep' (s.token m))
    {part : List Spelling} {k : Kind} {ks : List Kind} (hfirst : Reads s bars part k)
    (hparts : List.Forall₂ (Reads s bars) parts ks)
    {m : Nat} {rest : List Spelling} (h : s.Ahead m (divided sep (part :: parts) ++ rest)) :
    DividedBy s sep' bars (k :: ks) m (m + (divided sep (part :: parts)).length) := by
  induction hparts generalizing part k m with
  | nil =>
    have hone : divided sep [part] = part := by simp [divided]
    rw [hone] at h ⊢
    exact .one (hfirst h)
  | @cons next k' parts ks hnext _ ih =>
    rw [divided_cons_cons, List.append_assoc] at h
    rw [divided_cons_cons, List.length_append, List.length_cons, ← Nat.add_assoc, Nat.add_comm _ 1,
      ← Nat.add_assoc]
    exact .cons (hfirst h) (hsep h.append) (ih hnext h.append.tail)

/-- A name without arguments is a type. -/
theorem reads_name (name : Spelling) (hname : name.kind = .ident)
    (hlower : Bytes.toLower name.literal = name.literal) :
    Reads s false [name] (.mk name.literal [] []) := by
  intro m rest h
  exact readAs_name h.lt (h.kind.trans hname) (by rw [h.literal, hlower])

/-- A name and arguments between angle brackets are a type. -/
theorem reads_angled (name : Spelling) (hname : name.kind = .ident)
    (hlower : Bytes.toLower name.literal = name.literal) {part : List Spelling}
    {args kinds : List Kind} (hargs : ∀ {m : Nat} {rest : List Spelling},
      s.Ahead m (divided sep (part :: parts) ++ rest) →
      DividedBy s (·.kind = .comma) true args m (m + (divided sep (part :: parts)).length))
    (hspread : Kind.spread name.literal args = kinds) :
    Reads s false (name :: angled sep (part :: parts)) (.mk name.literal kinds []) := by
  intro m rest h
  have hangled : angled sep (part :: parts) = .lt :: (divided sep (part :: parts) ++ [.gt]) := rfl
  rw [hangled, List.cons_append, List.cons_append, List.append_assoc] at h
  have hgt := h.tail.tail.append
  rw [hangled, List.length_cons, List.length_cons, List.length_append, List.length_singleton,
    show ∀ n, m + (n + 1 + 1 + 1) = m + 2 + n + 1 by omega]
  exact readAs_angled (h.kind.trans hname) (by rw [h.literal, hlower]) h.tail.kind
    (hargs h.tail.tail) hgt.lt hgt.kind
    hspread

/-- Tokens between brackets are a literal type. -/
theorem reads_group (hs : s.Sound) {o c : Spelling} {inner : List Spelling}
    (ho : o.kind = .lbrace ∨ o.kind = .lbracket) (hinner : Enclosed inner) (hc : c.kind.isCloser)
    (htrim : trim (written (o :: inner ++ [c])) = written (o :: inner ++ [c])) :
    Reads s false (o :: inner ++ [c]) (.ofLiteral (written (o :: inner ++ [c]))) := by
  intro m rest h
  have hlength : (o :: inner ++ [c]).length = inner.length + 2 := by simp
  have hend : s.groupEnd m = m + (o :: inner ++ [c]).length := by
    rw [hlength]
    rw [List.append_assoc] at h
    exact h.groupEnd_eq hinner hc
  exact readAs_group hs (Ahead.lt h) (by rwa [Ahead.kind h]) hend ((h.text (by simp)).trans htrim)

theorem LiteralType.reads (hs : s.Sound) (l : LiteralType) :
    Reads s false l.spellings (.ofLiteral l.text) := by
  cases l with
  | number n =>
    intro m rest h
    have hkind : n.suffix.kind = .number ∨ n.suffix.kind = .duration := by
      cases n.suffix <;> simp [Suffix.kind]
    rw [← show (s.token m).kind = n.suffix.kind from Ahead.kind h] at hkind
    exact readAs_number (Ahead.lt h) hkind (Ahead.literal h)
  | string q =>
    intro m rest h
    exact readAs_string (Ahead.lt h) (Ahead.kind h) (Ahead.literal h)
  | braces inner hinner =>
    exact reads_group hs (.inl rfl) hinner rfl
      (trim_written_group '\x7b' '\x7d' (by decide) (by decide) .lbrace .rbrace rfl rfl inner)
  | brackets inner hinner =>
    exact reads_group hs (.inr rfl) hinner rfl
      (trim_written_group '[' ']' (by decide) (by decide) .lbracket .rbracket rfl rfl inner)

theorem KindName.ne_record (n : KindName) : n.text ≠ Kind.recordName := fun h =>
  n.plain (List.mem_cons_of_mem _ (List.mem_cons_of_mem _ (List.mem_singleton.2 h)))

theorem SingleKind.name_kind_ne (k : SingleKind) : k.kind.name ≠ Kind.eitherName := by
  cases k with
  | named name args =>
    have h := name.plain
    simp only [List.mem_cons, not_or] at h
    exact h.1
  | record tables =>
    show Kind.recordName ≠ Kind.eitherName
    decide
  | literal l =>
    show Kind.literalName ≠ Kind.eitherName
    decide

theorem isOperator_bar {m : Nat} {rest : List Spelling} (h : s.Ahead m (.bar :: rest)) :
    (s.token m).isOperator "|" := by
  rw [Token.isOperator, h.kind, h.literal]
  rfl

mutual

/-- The tokens of a type expression are read as its type. -/
theorem KindTree.reads (hs : s.Sound) : ∀ k : KindTree, Reads s true k.spellings k.kind
  | .single k => fun h => readAs_alternationOf (.one (k.reads hs h))
  | .either first second others => fun h => readAs_alternationOf
      (dividedBy_divided isOperator_bar (first.reads hs)
        (.cons (second.reads hs) (SingleKind.reads_parts hs others)) h)

theorem SingleKind.reads (hs : s.Sound) : ∀ k : SingleKind, Reads s false k.spellings k.kind
  | .named name [] => reads_name name.path.spelling rfl name.lower
  | .named name (arg :: args) => reads_angled name.path.spelling rfl name.lower
      (dividedBy_divided Ahead.kind (arg.reads hs) (KindTree.reads_parts hs args))
      (spread_of_ne name.ne_record _)
  | .record [] => reads_name .record rfl (by decide)
  | .record (first :: others) => reads_angled .record rfl (by decide)
      (fun h => .one (readAs_alternationOf
        (dividedBy_divided isOperator_bar (first.reads hs) (SingleKind.reads_parts hs others) h)))
      (spread_alternationOf first.name_kind_ne _)
  | .literal l => l.reads hs

theorem KindTree.reads_parts (hs : s.Sound) :
    ∀ ks : List KindTree, List.Forall₂ (Reads s true) (KindTree.parts ks) (KindTree.kinds ks)
  | [] => .nil
  | k :: ks => .cons (k.reads hs) (KindTree.reads_parts hs ks)

theorem SingleKind.reads_parts (hs : s.Sound) :
    ∀ ks : List SingleKind, List.Forall₂ (Reads s false) (SingleKind.parts ks) (SingleKind.kinds ks)
  | [] => .nil
  | k :: ks => .cons (k.reads hs) (SingleKind.reads_parts hs ks)

end

/-- What may follow a type expression between angle brackets. -/
def EndsKind (q : Spelling) : Prop := q.kind = .gt ∨ q.kind = .comma

/-- A reader reads type expressions from a place of the statement on. -/
def ReadsKinds (s : Passage) (least : Nat) (nested : Reader Kind) : Prop :=
  ∀ (k : KindTree) {m : Nat} {q : Spelling} {rest : List Spelling}, least ≤ m →
    s.Ahead m (k.spellings ++ q :: rest) → EndsKind q →
      nested (s.cursor m) = .ok (k.kind, s.cursor (m + k.spellings.length))

theorem kindFuel_spellings (hs : s.Sound) (fuel : Nat) {least : Nat}
    (hf : s.length < least + fuel) : ReadsKinds s least (kindFuel fuel) := by
  intro k m q rest hm h hq
  have hread := k.reads hs h
  have hle := hread.le
  obtain ⟨fuel, rfl⟩ := Nat.exists_eq_add_one.2 (show 0 < fuel by omega)
  refine hread.read fuel (by omega) (endsReading_of_kind true ?_)
  rwa [h.append.kind]

end Reading

end AccessLayer.Surql
