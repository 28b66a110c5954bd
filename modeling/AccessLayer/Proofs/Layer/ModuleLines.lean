import AccessLayer.Proofs.Layer.ModuleFiles
import AccessLayer.Proofs.Surql.Respacing
import Mathlib.Data.List.DropRight

/-!
# Module lines

A module line is the word, a path with or without quotes, white space around both, and perhaps a
comment. White space and quotes are taken off the two ends of the line, so the path is read back
from a line that ends with it. A comment is no white space: it stays, and becomes part of the
module.

* `ModuleLine`: the parts of a module line.
* `moduleOfLine?_text`: the module that is read from a module line.
* `importPath_moduleLine`: the import paths below a module file, which are right just when its line
  has no comment.
-/

namespace AccessLayer

open Bytes

/-! ## White space at the ends -/

/-- Nothing is dropped beyond a part that ends with something to keep. -/
theorem rdropWhile_append {α : Type} {p : α → Bool} {kept : List α} (hne : kept ≠ [])
    (h : p (kept.getLast hne) = false) (xs ys : List α) :
    (xs ++ (kept ++ ys)).rdropWhile p = xs ++ (kept ++ ys.rdropWhile p) := by
  induction ys using List.reverseRecOn with
  | nil =>
    rw [List.append_nil, List.rdropWhile_nil, List.append_nil, List.rdropWhile_eq_self_iff]
    intro _
    simp [List.getLast_append_of_ne_nil _ hne, h]
  | append_singleton ys y ih =>
    rw [← List.append_assoc, ← List.append_assoc]
    by_cases hy : p y = true
    · rw [List.rdropWhile_concat_pos _ _ _ hy, List.rdropWhile_concat_pos _ _ _ hy,
        List.append_assoc, ih]
    · rw [List.rdropWhile_concat_neg _ _ _ hy, List.rdropWhile_concat_neg _ _ _ hy]
      simp

namespace Bytes

/-- The text without the white space at its end. -/
def trimBack (s : Bytes) : Bytes := ofRunes ((runes s).rdropWhile (isSpace ·.char))

/-- A text can be cut in front of a code point other than the replacement character. -/
theorem runes_append_of_head {t : Bytes} (h : ∀ r ∈ (runes t).head?, r.char ≠ replacementChar)
    (s : Bytes) : runes (s ++ t) = runes s ++ runes t := by
  cases t with
  | nil => rw [List.append_nil, runes, List.append_nil]
  | cons a t =>
    rw [runes_cons] at h
    exact runes_append s t ((Utf8.reads_first a t).isTail_eq_false (h _ rfl))

theorem Blank.isSpace_of_mem {s : Bytes} (h : s.Blank) {r : Rune} (hr : r ∈ runes s) :
    isSpace r.char :=
  h r.char (List.mem_map_of_mem hr)

end Bytes

namespace Layer

variable {line : Bytes}

/-- What is read from a line with a path, with its quotes, and something after it. -/
theorem moduleOfLine?_of_runes {lead gap path suffix : List Rune}
    (hline : Bytes.runes line = lead ++ (Bytes.runes moduleWord ++ (gap ++ (path ++ suffix))))
    (hlead : ∀ r ∈ lead, isSpace r.char) (hgap : ∀ r ∈ gap, isSpace r.char) (hne : path ≠ [])
    (hpath : ∀ r ∈ path, isSpace r.char = false) :
    moduleOfLine? line = some (stripBytes (· == byte '"')
      (Bytes.ofRunes (path ++ suffix.rdropWhile (isSpace ·.char)))) := by
  have hword : (Bytes.runes moduleWord).dropWhile (isSpace ·.char) = Bytes.runes moduleWord := by
    decide
  have hfirst : ∀ ys, (path ++ ys).dropWhile (isSpace ·.char) = path ++ ys := by
    intro ys
    obtain ⟨r, rs, rfl⟩ := List.exists_cons_of_ne_nil hne
    rw [List.cons_append, List.dropWhile_cons_of_neg (by simp [hpath])]
  have hlast := rdropWhile_append (p := (isSpace ·.char)) hne (hpath _ (List.getLast_mem hne))
  -- the parts of the line that are left are a part of its code points
  obtain ⟨cut, hcut⟩ := List.rdropWhile_prefix (isSpace ·.char) suffix
  have hread : Readable (gap ++ (path ++ suffix.rdropWhile (isSpace ·.char))) := by
    have hall := readable_runes line
    rw [hline, ← hcut, ← List.append_assoc path, ← List.append_assoc gap] at hall
    exact hall.right.right.left
  refine moduleOfLine?_eq_some_iff.2
    ⟨Bytes.ofRunes (gap ++ (path ++ suffix.rdropWhile (isSpace ·.char))), ?_, ?_⟩
  · change Bytes.ofRunes (((Bytes.runes line).dropWhile _).rdropWhile _) = _
    rw [hline, List.dropWhile_append_of_pos hlead, List.dropWhile_append, hword, if_neg (by decide),
      ← List.append_assoc, hlast, List.append_assoc, ofRunes_append, ofRunes_runes]
  · change _ = stripBytes _
      (Bytes.ofRunes (((Bytes.runes (Bytes.ofRunes _)).dropWhile _).rdropWhile _))
    rw [hread, List.dropWhile_append_of_pos hgap, hfirst, ← List.nil_append (path ++ _), hlast,
      List.rdropWhile_idempotent, List.nil_append]

/-- The parts of a module line. -/
structure ModuleLine where
  lead : Bytes
  gap : Bytes
  quoted : Bool
  path : Bytes
  trail : Bytes
  comment : Option Bytes
  blank : lead.Blank ∧ gap.Blank ∧ trail.Blank
  isPath : IsModulePath path

namespace ModuleLine

variable (l : ModuleLine)

/-- The quotes on either side of the path. -/
def quotes : Bytes := if l.quoted then [byte '"'] else []

/-- What a comment starts with. -/
def slashes : Bytes := "//"

theorem slashes_ne_nil : slashes ≠ [] := by decide

/-- The comment with the white space in front of it. -/
def suffix : Bytes := l.trail ++ l.comment.elim [] (slashes ++ ·)

def text : Bytes := l.lead ++
    (moduleWord ++ (l.gap ++ (l.quotes ++ (l.path ++ (l.quotes ++ l.suffix)))))

/-- What the line names: the path, and with it a comment up to white space and quotes at the end. -/
def named : Bytes :=
  l.path ++ l.comment.elim [] fun comment =>
    l.quotes ++ (l.trail ++ (slashes ++ (Bytes.trimBack comment).rdropWhile (· == byte '"')))

theorem runes_slashes (s : Bytes) :
    Bytes.runes (slashes ++ s) = Bytes.runes slashes ++ Bytes.runes s :=
  runes_ofChars ['/', '/'] s

theorem runes_quotes (s : Bytes) :
    Bytes.runes (l.quotes ++ s) = Bytes.runes l.quotes ++ Bytes.runes s := by
  cases hq : l.quoted with
  | false => simp [quotes, hq, Bytes.runes]
  | true =>
    rw [quotes, if_pos hq]
    exact runes_ofChars ['"'] s

theorem runes_suffix : Bytes.runes l.suffix =
    Bytes.runes l.trail ++ l.comment.elim [] fun comment =>
      Bytes.runes slashes ++ Bytes.runes comment := by
  rw [suffix, l.blank.2.2.runes_append]
  cases l.comment with
  | none => rfl
  | some comment => rw [Option.elim_some, runes_slashes, Option.elim_some]

theorem char_of_mem_quotes {r : Rune} (hr : r ∈ Bytes.runes l.quotes) : r.char = '"' := by
  have hall : ∀ b : Bool, ((Bytes.runes (if b then [byte '"'] else [])).all (·.char == '"')) =
      true := by
    decide
  exact beq_iff_eq.1 (List.all_eq_true.1 (hall l.quoted) r hr)

theorem runes_text :
    Bytes.runes l.text = Bytes.runes l.lead ++ (Bytes.runes moduleWord ++ (Bytes.runes l.gap ++
    ((Bytes.runes l.quotes ++ (Bytes.runes l.path ++ Bytes.runes l.quotes)) ++
      Bytes.runes l.suffix))) := by
  have hword : ∀ s, Bytes.runes (moduleWord ++ s) = Bytes.runes moduleWord ++ Bytes.runes s :=
    runes_ofChars ['m', 'o', 'd', 'u', 'l', 'e', ' ']
  -- a quote, white space or a slash ends the last code point of the path
  have hhead : ∀ r ∈ (Bytes.runes (l.quotes ++ l.suffix)).head?, r.char ≠ replacementChar := by
    intro r hr
    rw [runes_quotes, runes_suffix, List.head?_append, List.head?_append, Option.mem_def,
      Option.or_eq_some_iff, Option.or_eq_some_iff] at hr
    obtain hr | ⟨-, hr | ⟨-, hr⟩⟩ := hr
    · rw [l.char_of_mem_quotes (List.mem_of_head? hr)]
      decide
    · exact l.blank.2.2.char_ne (List.mem_of_head? hr)
    · cases hc : l.comment with
      | none =>
        rw [hc] at hr
        cases hr
      | some comment =>
        rw [hc] at hr
        obtain rfl := Option.some.inj hr
        decide
  rw [text, l.blank.1.runes_append, hword, l.blank.2.1.runes_append, runes_quotes,
    Bytes.runes_append_of_head hhead, runes_quotes]
  simp only [List.append_assoc]

/-- White space at the end of the line is dropped, and what is left of a comment stays. -/
theorem rdropWhile_suffix : Bytes.ofRunes ((Bytes.runes l.suffix).rdropWhile (isSpace ·.char)) =
    l.comment.elim [] fun comment => l.trail ++ (slashes ++ Bytes.trimBack comment) := by
  rw [runes_suffix]
  cases l.comment with
  | none =>
    rw [Option.elim_none, Option.elim_none, List.append_nil, List.rdropWhile_eq_nil_iff.2,
      ofRunes_nil]
    exact fun r hr => l.blank.2.2.isSpace_of_mem hr
  | some comment =>
    have hne : Bytes.runes slashes ≠ [] := by decide
    rw [Option.elim_some, Option.elim_some, rdropWhile_append hne (by decide +revert),
      ofRunes_append, ofRunes_append, ofRunes_runes, ofRunes_runes, Bytes.trimBack]

/-- The quotes of the path are dropped, unless a comment follows the second one. -/
theorem stripBytes_quotes : stripBytes (· == byte '"') (l.quotes ++ (l.path ++ (l.quotes ++
    l.comment.elim [] fun comment => l.trail ++ (slashes ++ Bytes.trimBack comment)))) =
      l.named := by
  have hquotes : ∀ b ∈ l.quotes, (b == byte '"') = true := by
    unfold quotes
    split <;> simp
  have hpath : ∀ b ∈ l.path, (b == byte '"') = false :=
    fun b hb => beq_eq_false_iff_ne.2 fun heq => l.isPath.2.2 (heq ▸ hb)
  have hfirst : ∀ ys, (l.path ++ ys).dropWhile (· == byte '"') = l.path ++ ys := by
    intro ys
    obtain ⟨b, w, hw⟩ := List.exists_cons_of_ne_nil l.isPath.1
    rw [hw] at hpath ⊢
    rw [List.cons_append, List.dropWhile_cons_of_neg (by simp [hpath])]
  change List.rdropWhile _ (List.dropWhile _ _) = _
  rw [List.dropWhile_append_of_pos hquotes, hfirst, named]
  cases l.comment with
  | none =>
    have hkeep := rdropWhile_append (p := (· == byte '"')) l.isPath.1 (hpath _ (List.getLast_mem _))
      [] l.quotes
    rw [Option.elim_none, Option.elim_none, List.append_nil, ← List.nil_append (l.path ++ _), hkeep,
      List.rdropWhile_eq_nil_iff.2 hquotes, List.nil_append]
  | some comment =>
    have hkeep := rdropWhile_append (p := (· == byte '"')) slashes_ne_nil (by decide)
      (l.path ++ (l.quotes ++ l.trail)) (Bytes.trimBack comment)
    simp only [List.append_assoc] at hkeep
    rw [Option.elim_some, Option.elim_some, hkeep]

theorem moduleOfLine?_text : moduleOfLine? l.text = some l.named := by
  have hne : Bytes.runes l.quotes ++ (Bytes.runes l.path ++ Bytes.runes l.quotes) ≠ [] := by
    intro hnil
    have hself := ofRunes_runes l.path
    rw [(List.append_eq_nil_iff.1 (List.append_eq_nil_iff.1 hnil).2).1] at hself
    exact l.isPath.1 hself.symm
  have hpath : ∀ r ∈ Bytes.runes l.quotes ++ (Bytes.runes l.path ++ Bytes.runes l.quotes),
      isSpace r.char = false := by
    have hquotes : ∀ r ∈ Bytes.runes l.quotes, isSpace r.char = false := by
      intro r hr
      rw [l.char_of_mem_quotes hr]
      decide
    simp only [List.forall_mem_append]
    exact ⟨hquotes, fun r hr => l.isPath.2.1 r.char (List.mem_map_of_mem hr), hquotes⟩
  rw [moduleOfLine?_of_runes l.runes_text (fun _ => l.blank.1.isSpace_of_mem) (fun _ =>
    l.blank.2.1.isSpace_of_mem)
    hne hpath, ofRunes_append, rdropWhile_suffix]
  simp only [ofRunes_append, ofRunes_runes, List.append_assoc, stripBytes_quotes]

theorem named_ne_nil : l.named ≠ [] := by
  rw [named, Ne, List.append_eq_nil_iff]
  exact fun h => l.isPath.1 h.1

/-- A comment makes the module longer than the path, whatever is in it. -/
theorem named_eq_path_iff : l.named.length = l.path.length ↔ l.comment = none := by
  cases hc : l.comment with
  | none => simp [named, hc]
  | some comment => simp [named, hc, slashes_ne_nil]

end ModuleLine

variable {z : Place} {text : Bytes} {before after : List Bytes}

theorem length_importBelow (module : Bytes) (rest : List Bytes) :
    (importBelow module rest).length = module.length + (importBelow [] rest).length := by
  unfold importBelow
  split
  · rfl
  · simp

/-- Below a module file whose first module line has some path, an import path is what the line names
and the way down to the directory, and no other line matters. The line names its path if and only if
it has no comment. -/
theorem importPath_moduleLine (l : ModuleLine)
    (hlines : splitOn (byte '\n') text = before ++ l.text :: after)
    (hbefore : ∀ line ∈ before, ¬ moduleWord <+: trim line) {rest : List Bytes}
    (hx : ∀ n ∈ z ++ rest, Path.Proper n) :
    (moduleDirective? text).map
      (importPathIn · (Path.ofNames true z) (Path.ofNames true (z ++ rest))) =
        some (importBelow l.named rest) ∧
      (importBelow l.named rest = importBelow l.path rest ↔ l.comment = none) ∧
      ∀ s : Session, s.tree.WellFormed → Nearest s.tree (z ++ rest) z →
        s.tree.fileAt? (z ++ [moduleFile]) = some text →
        (findImportPath (Path.ofNames true (z ++ rest))).Gives s (importBelow l.named rest) s := by
  have hdirective : Directive text l.named :=
    ⟨before, l.text, after, hlines, hbefore, moduleOfLine?_eq_some_iff.1 l.moduleOfLine?_text⟩
  refine ⟨?_, ?_, ?_⟩
  · rw [moduleDirective?_eq_some_iff.2 ⟨hdirective, l.named_ne_nil⟩, Option.map_some,
      importPathIn_append _ _ hx]
  · rw [← l.named_eq_path_iff]
    constructor
    · intro heq
      have hlength := congrArg List.length heq
      rw [length_importBelow, length_importBelow l.path] at hlength
      exact Nat.add_right_cancel hlength
    · intro hlength
      have heq : l.path = l.named := (List.prefix_append l.path _).eq_of_length hlength.symm
      rw [← heq]
  · intro s hs hnear hfile
    exact NamesModule.gives ⟨hnear, text, hfile, hdirective, l.named_ne_nil⟩ hs hx rfl

/-- The way from the inner module to a directory below it. -/
def crudWay : List Bytes := ["db", "crud"]

def appLine : ModuleLine where
  lead := "\t"
  gap := []
  quoted := false
  path := "example.com/app"
  trail := "\r"
  comment := none
  blank := by decide +kernel
  isPath := ⟨by decide, Surql.forall_mem_of_all (by decide +kernel), by decide⟩

theorem importPath_moduleLine_nested :
    appLine.comment = none ∧
      (findImportPath "/p/db/crud").Gives nestedModules "example.com/app/db/crud"
        nestedModules := by
  obtain ⟨hs, -, hbetween, hname, hfile, hbefore, -, -⟩ := nestedModules_facts
  have hnames : Path.names "/p/db/crud" = Path.names "/p" ++ crudWay := by decide
  have hdir : Path.ofNames true (Path.names "/p" ++ crudWay) = "/p/db/crud" := by decide
  have hproper : ∀ n ∈ Path.names "/p" ++ crudWay, Path.Proper n := by decide
  have hbelow : importBelow appLine.named crudWay = "example.com/app/db/crud" := by decide +kernel
  have hnear : Nearest nestedModules.tree (Path.names "/p" ++ crudWay) (Path.names "/p") := by
    rw [← hnames]
    refine ⟨by decide, ⟨hname, _, Tree.fileAt?_eq_some.1 hfile⟩, fun w hw hwx hhas => ?_⟩
    exact hbetween w ((List.mem_inits _ _).2 hwx) hw (Option.isSome_iff_exists.2 hhas.2)
  have hlines : splitOn (byte '\n')
      (ofString "// the app\n\n\tmodule example.com/app\r\n\ngo 1.22\n") =
      [ofString "// the app", []] ++ appLine.text :: ["", "go 1.22", ""] := by
    decide +kernel
  have hgives := (importPath_moduleLine appLine hlines hbefore hproper).2.2 nestedModules hs
    hnear hfile
  rw [hdir, hbelow] at hgives
  exact ⟨rfl, hgives⟩

/-- A notice behind the path of a module, where such notices stand, gets into all import paths. -/
theorem moduleDirective?_deprecated :
    (moduleDirective? "module example.com/blog // Deprecated: use example.com/blog/v2\n").map
        (importPathIn · "/p" "/p/db/crud") =
      some "example.com/blog // Deprecated: use example.com/blog/v2/db/crud" ∧
    (moduleDirective? "module example.com/blog\n").map (importPathIn · "/p" "/p/db/crud") =
      some "example.com/blog/db/crud" := by
  decide +kernel

end Layer

end AccessLayer
