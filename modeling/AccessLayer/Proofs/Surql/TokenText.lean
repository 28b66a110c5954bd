import AccessLayer.Proofs.Text.Readable
import AccessLayer.Surql.Lexeme

/-!
# Spelling of tokens and gaps

What the text of a gap and the text of a token look like, said without the readers. A token is
either plain, and then its literal is its text, or it stands in a fence of delimiters, and then its
literal is made from the content of the fence.

* `Skipped`: gaps, made of white space and comments.
* `Spells`: the literal of a token by its class and its text.
* `Spells.unique`: the literal is determined by the text.
-/

namespace AccessLayer.Surql

/-! ## Gaps -/

/-- What starts a line comment. -/
def lineMarks : List (List Char) := [['-', '-'], ['/', '/'], ['#']]

/-- `Skipped gap rest`: the text `gap` before `rest` is made of white space, of line comments that
reach to the end of their line, and of block comments that end at the first `*/`. -/
inductive Skipped : List Char → List Char → Prop
  | nil {rest : List Char} : Skipped [] rest
  | space {c : Char} {gap rest : List Char} (hc : isSpace c = true) (h : Skipped gap rest) :
      Skipped (c :: gap) rest
  | line {mark body gap rest : List Char} (hmark : mark ∈ lineMarks) (hbody : '\n' ∉ body)
      (hend : ∀ c ∈ (gap ++ rest).head?, c = '\n') (h : Skipped gap rest) :
      Skipped (mark ++ body ++ gap) rest
  | block {body gap rest : List Char} (hbody : ¬ ['*', '/'] <:+: body ++ ['*'])
      (h : Skipped gap rest) : Skipped (['/', '*'] ++ body ++ ['*', '/'] ++ gap) rest

/-! ## Tokens -/

/-- The classes whose literal is the text of the token, unless it is a quoted identifier. -/
def TokenKind.isPlain : TokenKind → Bool
  | endOfInput | param | string | datetime | uuid | recordId => false
  | _ => true

/-- The characters that set off a token. -/
def delimiters : List Char := ['$', '`', '⟨', '"', '\'']

/-- What follows the backslash of an escape, and what the escape stands for. -/
def escapeTable : List (Char × Char) :=
  [('n', '\n'), ('t', '\t'), ('r', '\r'), ('b', '\x08'), ('f', '\x0c'), ('0', '\x00'), ('\\', '\\'),
    ('"', '"'), ('\'', '\''), ('`', '`'), ('/', '/')]

/-- The content of a string with its escapes replaced. A backslash before any other character stands
for itself. -/
def unescaped : List Char → List Char
  | [] => []
  | [c] => [c]
  | c :: e :: cs =>
    if c = '\\' then
      match escapeTable.lookup e with
      | some d => d :: unescaped cs
      | none => c :: e :: unescaped cs
    else c :: unescaped (e :: cs)

/-- The characters of the content of a string that are part of no escape. -/
def bare : List Char → List Char
  | [] => []
  | [c] => [c]
  | c :: e :: cs => if c = '\\' then bare cs else c :: bare (e :: cs)

/-- A way to set off a token: its class, what stands in front of its content and what stands behind,
and whether escapes in the content are replaced. -/
structure Fence where
  kind : TokenKind
  left : List Char
  right : List Char
  escapes : Bool
deriving DecidableEq

namespace Fence

def around (f : Fence) (content : Bytes) : Bytes :=
  Bytes.ofChars f.left ++ content ++ Bytes.ofChars f.right

/-- The literal of a token: the content, with its escapes replaced. -/
def literal (f : Fence) (content : Bytes) : Bytes :=
  if f.escapes then Bytes.ofChars (unescaped content.chars) else content

/-- The content holds nothing that would end it: no closing character but in an escape, and no
backslash that stands alone. -/
def Encloses (f : Fence) (content : Bytes) : Prop :=
  if f.escapes then ∀ c ∈ bare content.chars, c ≠ '\\' ∧ c ∉ f.right
  else ∀ c ∈ content.chars, c ∉ f.right

end Fence

/-- Parameters, quoted identifiers, and strings without and with a mark in front. -/
def fences : List Fence :=
  [⟨.param, ['$'], [], false⟩, ⟨.ident, ['`'], ['`'], false⟩, ⟨.ident, ['⟨'], ['⟩'], false⟩] ++
    ['"', '\''].flatMap fun quote =>
      [⟨.string, [quote], [quote], true⟩, ⟨.string, ['s', quote], [quote], true⟩,
        ⟨.datetime, ['d', quote], [quote], true⟩, ⟨.uuid, ['u', quote], [quote], true⟩,
        ⟨.recordId, ['r', quote], [quote], true⟩]

/-- `Spells kind text literal`: a token of class `kind` with text `text` has literal `literal`. -/
inductive Spells : TokenKind → Bytes → Bytes → Prop
  | plain {kind : TokenKind} {text : Bytes} (hkind : kind.isPlain = true)
      (htext : ∀ c ∈ text.chars, c ∉ delimiters) : Spells kind text text
  | fenced {f : Fence} {content : Bytes} (hf : f ∈ fences) (hcontent : f.Encloses content) :
      Spells f.kind (f.around content) (f.literal content)

/-! ## The literal is determined by the text -/

namespace Fence

theorem chars_around (f : Fence) (content : Bytes) :
    (f.around content).chars = f.left ++ (content ++ Bytes.ofChars f.right).chars := by
  rw [around, List.append_assoc, Bytes.chars_ofChars_append]

/-- No fence starts like another one. -/
theorem eq_of_left : ∀ f ∈ fences, ∀ g ∈ fences, f.left <+: g.left → f = g := by
  decide

/-- Fence and content are determined by the text. -/
theorem around_inj {f g : Fence} {a b : Bytes} (hf : f ∈ fences) (hg : g ∈ fences)
    (h : f.around a = g.around b) : f = g ∧ a = b := by
  have hchars := congrArg Bytes.chars h
  rw [chars_around, chars_around] at hchars
  obtain rfl : f = g := by
    rcases List.prefix_or_prefix_of_prefix (List.prefix_append f.left _)
      (hchars ▸ List.prefix_append g.left _) with hfg | hgf
    · exact eq_of_left f hf g hg hfg
    · exact (eq_of_left g hg f hf hgf).symm
  exact ⟨rfl, List.append_cancel_left (List.append_cancel_right h)⟩

theorem exists_delimiter {f : Fence} (hf : f ∈ fences) (content : Bytes) :
    ∃ c ∈ (f.around content).chars, c ∈ delimiters := by
  have hall : ∀ f ∈ fences, f.left.any delimiters.contains = true := by decide
  obtain ⟨c, hc, hd⟩ := List.any_eq_true.1 (hall f hf)
  refine ⟨c, ?_, List.contains_iff_mem.1 hd⟩
  rw [chars_around]
  exact List.mem_append_left _ hc

end Fence

namespace Spells

theorem literal_eq {f : Fence} {kind : TokenKind} {content text literal : Bytes} (hf : f ∈ fences)
    (h : Spells kind text literal) (htext : text = f.around content) :
    literal = f.literal content := by
  cases h with
  | plain _ hplain =>
    obtain ⟨c, hc, hd⟩ := f.exists_delimiter hf content
    exact absurd hd (hplain c (htext ▸ hc))
  | fenced hg _ =>
    obtain ⟨rfl, rfl⟩ := Fence.around_inj hg hf htext
    rfl

theorem unique {kind kind' : TokenKind} {text literal literal' : Bytes}
    (h : Spells kind text literal) (h' : Spells kind' text literal') : literal = literal' := by
  cases h with
  | fenced hf _ => exact (h'.literal_eq hf rfl).symm
  | plain hkind htext =>
    cases h' with
    | plain => rfl
    | fenced hf _ => exact (Spells.plain hkind htext).literal_eq hf rfl

end Spells

end AccessLayer.Surql
