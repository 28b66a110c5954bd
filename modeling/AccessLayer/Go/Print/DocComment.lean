import AccessLayer.Go.Token
import AccessLayer.Text.Letter
import AccessLayer.Text.Rune

/-!
# Doc comments

The comment above a declaration is laid out in a standard form: paragraphs, headings, lists and
indented code, with one blank line between them. Paired quotes become typographic ones. Directives
to tools stand apart at the end.

* `DocComment.format`: the standard form of a comment group.
-/

namespace AccessLayer.Go

namespace DocComment

open Bytes

/-! ## Lines -/

def isIndentByte (b : UInt8) : Bool := b == byte ' ' || b == byte '\t'

def leading (line : Bytes) : Bytes := line.takeWhile isIndentByte

def isIndented (line : Bytes) : Bool := !(leading line).isEmpty

def common : Bytes → Bytes → Bytes
  | a :: s, b :: t => if a == b then a :: common s t else []
  | _, _ => []

/-- The lines without empty ones at both ends and without their common indentation. -/
def unindent (lines : List Bytes) : List Bytes :=
  let trimmed := ((lines.dropWhile List.isEmpty).reverse.dropWhile List.isEmpty).reverse
  match trimmed with
  | [] => []
  | first :: rest =>
    let shared := rest.foldl (fun acc l => if l.isEmpty then acc else common acc (leading l))
      (leading first)
    trimmed.map fun l => l.drop shared.length

/-- The number and the text of a list item, the number empty for a bullet. -/
def listMarker? (line : Bytes) : Option (Bytes × Bytes) :=
  let line := line.trim
  let isDigitByte (b : UInt8) : Bool := byte '0' ≤ b && b ≤ byte '9'
  let found : Option (Bytes × Bytes) := match line.runes with
    | [] => none
    | r :: rest =>
      if ['•', '*', '+', '-'].contains r.char then some ([], ofRunes rest)
      else
        let number := line.takeWhile isDigitByte
        match line.dropWhile isDigitByte with
        | b :: after =>
          if !number.isEmpty && (b == byte '.' || b == byte ')') then
            some (number, after)
          else none
        | [] => none
  found.filter fun (_, rest) => isIndented rest && !rest.trim.isEmpty

def isList (line : Bytes) : Bool := (listMarker? line).isSome

def isHeading (line : Bytes) : Bool :=
  match line with
  | a :: b :: _ => a == byte '#' && isIndentByte b && line.trim != "#"
  | _ => false

/-- Every part of the text after an occurrence of the byte. -/
def tailsAfter (sep : UInt8) : Bytes → List Bytes
  | [] => []
  | b :: rest => if b == sep then rest :: tailsAfter sep rest else tailsAfter sep rest

def looksLikeHeading (line : Bytes) : Bool :=
  let line := line.trim
  let cs := line.chars
  let startOk := (cs.head?.map fun c => isLetter c && isUpper c).getD false
  let endOk := (cs.getLast?.map fun c => isLetter c || isDigit c).getD false
  let forbidden := ";:!?+*/=[]\x7b\x7d_^°&§~%#@<\">\\".toList
  let possessive (rest : Bytes) : Bool := rest == "s" || (ofString "s ").isPrefixOf rest
  let midSentence (rest : Bytes) : Bool := !rest.isEmpty && rest.head? != some (byte ' ')
  startOk && endOk && !(cs.any forbidden.contains) &&
    (tailsAfter (byte '\'') line).all possessive &&
    (tailsAfter (byte '.') line).all midSentence

/-! ## Blocks -/

/-- A block of a doc comment. -/
inductive Block where
  | paragraph (lines : List Bytes)
  | heading (text : Bytes)
  | code (lines : List Bytes)
  /-- Items with their numbers and paragraphs; whether a blank line stands before and between. -/
  | list (items : List (Bytes × List (List Bytes))) (before between : Bool)
deriving Repr, Inhabited

/-- A list that is being read: the finished items and paragraphs, everything last first. -/
structure ListDraft where
  items : List (Bytes × List (List Bytes))
  text : List Bytes
  between : Bool
deriving Inhabited

def ListDraft.flush (d : ListDraft) : ListDraft :=
  match d.items, d.text with
  | _, [] => d
  | [], _ => { d with text := [] }
  | (n, ps) :: items, text => { d with items := (n, text.reverse :: ps) :: items, text := [] }

/-- Takes one more line of a list, whose items all have numbers or all have none. -/
def ListDraft.add (numbered : Bool) (d : ListDraft) (line : Bytes) : ListDraft :=
  let (d, line) := match listMarker? line with
    | some (n, rest) =>
      if !n.isEmpty == numbered then
        let d := d.flush
        ({ d with items := (n, []) :: d.items }, rest)
      else (d, line)
    | none => (d, line)
  let line := line.trim
  if line.isEmpty then { d.flush with between := true } else { d with text := line :: d.text }

def listBlock (lines : List Bytes) (before : Bool) : Block :=
  let numbered := (((lines.head?.bind listMarker?).map fun (n, _) => !n.isEmpty)).getD false
  let d := (lines.foldl (ListDraft.add numbered) ⟨[], [], false⟩).flush
  let items := d.items.reverse.map fun (n, ps) => (n, ps.reverse)
  let between := d.between || items.any fun (_, ps) => ps.length != 1
  .list items (before || between) between

/-- The lines at the front that belong to an indented block, given whether unindented list items
may still follow. `forced` lines count as indented. -/
def indentedRun : Nat → Bool → List Bytes → Nat
  | _, _, [] => 0
  | forced, listOk, l :: ls =>
    if l.isEmpty then 1 + indentedRun (forced - 1) false ls
    else if 0 < forced || isIndented l || (listOk && isList l) then
      1 + indentedRun (forced - 1) listOk ls
    else 0

/-- How many lines at the end of an unindented run belong to the indented block after it. -/
def leftForIndented (run : List Bytes) (next : Option Bytes) : Nat :=
  match next, run.getLast? with
  | some n, some last =>
    if n.isEmpty || isList n then 0
    else if isList last then (run.reverse.takeWhile isList).length
    else if (ofString "\x7b").isSuffixOf last || (ofString "\\").isSuffixOf last then 1
    else 0
  | _, _ => 0

/-- The blocks of a comment. `before` says whether the line before is blank, `started` whether
there is one; `forced` lines at the front count as indented. -/
def blocksFuel : Nat → (started before : Bool) → (forced : Nat) → List Bytes → List Block
  | 0, _, _, _, _ => []
  | _, _, _, _, [] => []
  | fuel + 1, started, before, forced, l :: ls =>
    if l.isEmpty then blocksFuel fuel started true (forced - 1) ls
    else if 0 < forced || isIndented l then
      let n := 1 + indentedRun (forced - 1) (isList l && 0 < forced) ls
      let taken := (((l :: ls).take n).reverse.dropWhile List.isEmpty).reverse
      let rest := (l :: ls).drop taken.length
      let closing := match rest.head? with
        | some r => (ofString "\x7d").isPrefixOf r
        | none => false
      let (taken, rest) := if closing then (taken ++ rest.take 1, rest.drop 1) else (taken, rest)
      let block := if isList l then listBlock taken before else .code (unindent taken)
      block :: blocksFuel fuel true false (forced - taken.length) rest
    else
      let run := l :: ls.takeWhile fun m => !m.isEmpty && !isIndented m
      let after := ls.dropWhile fun m => !m.isEmpty && !isIndented m
      let left := leftForIndented run after.head?
      let own := run.take (run.length - left)
      let rest := run.drop (run.length - left) ++ after
      if own.isEmpty then blocksFuel fuel started before left rest
      else
        let alone := own.length == 1 && isHeading l
        let old := own.length == 1 && started && before &&
          (rest.head?.map List.isEmpty).getD false &&
          (rest[1]?.map fun m => !isIndented m).getD false && looksLikeHeading l
        let block := if alone then .heading (trim (l.drop 1))
          else if old then .heading l
          else .paragraph own
        block :: blocksFuel fuel true false left rest

def blocks (lines : List Bytes) : List Block :=
  let ls := unindent lines
  blocksFuel (2 * ls.length + 2) false false 0 ls

/-! ## Text -/

/-- Replaces paired quotes by typographic ones; three or more backquotes stay. `run` counts the
backquotes just passed that stay. -/
def curlQuotes : Bool → Bytes → Bytes
  | _, [] => []
  | true, b :: rest =>
    if b == byte '`' then b :: curlQuotes true rest else b :: curlQuotes false rest
  | false, [b] => [b]
  | false, a :: b :: rest =>
    if a == byte '`' && b == a then
      if rest.head? == some a then a :: b :: curlQuotes true rest
      else ofString "“" ++ curlQuotes false rest
    else if a == byte '\'' && b == a then ofString "”" ++ curlQuotes false rest
    else a :: curlQuotes false (b :: rest)
termination_by _ s => s.length
decreasing_by
  all_goals first | exact Nat.lt_add_one _ | exact Nat.lt_add_of_pos_right (Nat.zero_lt_two)

def proseLines (lines : List Bytes) : List Bytes :=
  splitOn (byte '\n') (curlQuotes false (join "\n" lines))

def blockLines : Block → List Bytes
  | .paragraph ls => proseLines ls
  | .heading t => ["# " ++ curlQuotes false t]
  | .code ls => ls.map fun l => if l.isEmpty then [] else "\t" ++ l
  | .list items _ between =>
    let itemLines (n : Bytes) (ps : List (List Bytes)) : List Bytes :=
      let marker : Bytes := if n.isEmpty then "  - " else " " ++ n ++ ". "
      let paragraphs := ps.map fun p =>
        match proseLines p with
        | [] => []
        | first :: rest => first :: rest.map fun l => ("    " : Bytes) ++ l
      match paragraphs with
      | [] => [marker]
      | p :: more =>
        let rest := more.flatMap fun q =>
          [] :: (match q with
            | [] => []
            | first :: lines => (("    " : Bytes) ++ first) :: lines)
        (match p with
          | [] => [marker]
          | first :: lines => (marker ++ first) :: lines) ++ rest
    (items.zip (false :: items.map fun _ => between)).flatMap fun ((n, ps), gap) =>
      (if gap then [[]] else []) ++ itemLines n ps

def blankBefore : Block → Bool
  | .list _ before _ => before
  | _ => true

def allLines (bs : List Block) : List Bytes :=
  (bs.zip (false :: bs.map fun _ => true)).flatMap fun (b, notFirst) =>
    (if notFirst && blankBefore b then [[]] else []) ++ blockLines b

/-! ## Comments -/

/-- Whether a comment, without its marks, is a directive to a tool. -/
def isDirective (text : Bytes) : Bool :=
  let isLower (b : UInt8) : Bool :=
    (byte 'a' ≤ b && b ≤ byte 'z') || (byte '0' ≤ b && b ≤ byte '9')
  let named := ["line ", "extern ", "export "].any fun w => (ofString w).isPrefixOf text
  let tool := text.takeWhile (· != byte ':')
  let rest := (text.dropWhile (· != byte ':')).drop 1
  named || (!tool.isEmpty && tool.all isLower && (rest.head?.map isLower).getD false)

def marked (line : Bytes) : Bytes :=
  if line.isEmpty then "//"
  else if line.head? == some (byte '\t') then "//" ++ line
  else "// " ++ line

/-- The standard form of a comment group. Only line comments are laid out anew. -/
def format (g : CommentGroup) : CommentGroup :=
  if !(g.all Comment.isLine) || g.isEmpty then g
  else
    let texts := g.map fun c => c.text.drop 2
    let prose := texts.filter fun t => !isDirective t
    let directives := (g.filter fun c => isDirective (c.text.drop 2)).map (·.text)
    if prose.isEmpty then g
    else
      let lines := prose.map fun t => (dropFront? " " t).getD t
      let out := (allLines (blocks lines)).map marked
      let tail := if directives.isEmpty then [] else ofString "//" :: directives
      (out ++ tail).map fun t => ⟨t, CommentGroup.start g⟩

end DocComment

end AccessLayer.Go
