import AccessLayer.Text.Rune

/-!
# English plurals

The plural of a name, as it appears in the names of functions that work on all records of a table. A
rule looks at the end of the name: it asks for certain letters, takes some of them off and adds an
ending. The first rule that applies is used, and a name that no rule knows stays as it is.

* `Plural.Rule`: one rule.
* `plural`: the plural of a name.
-/

namespace AccessLayer

namespace Plural

/-- A place in the ending that a rule asks for. -/
inductive Place where
  | one (c : Char)
  | among (cs : List Char)
  | except (cs : List Char)
  | letter
deriving DecidableEq, Repr

def spell (s : String) : List Place := s.toList.map .one

/-- How the letters of a rule and of a name are compared. -/
inductive Mode where
  | upper
  | exact
  | folded
deriving DecidableEq, Repr

/-- The lower-case ASCII letter that a character stands for without regard to case, or itself. Two
letters outside of ASCII have one: the long s and the Kelvin sign. -/
def fold (c : Char) : Char :=
  if c.toNat == 0x17F then 's' else if c.toNat == 0x212A then 'k' else c.toLower

namespace Mode

def spelled (m : Mode) (c : Char) : Char := if m == upper then c.toUpper else c

def view (m : Mode) (c : Char) : Char := if m == folded then fold c else c

end Mode

def Place.admits (m : Mode) (p : Place) (c : Char) : Bool :=
  match p with
  | one d => m.view c == m.spelled d
  | among ds => ds.any fun d => m.view c == m.spelled d
  | except ds => !ds.any fun d => m.view c == m.spelled d
  | letter => m.spelled 'a' ≤ m.view c && m.view c ≤ m.spelled 'z'

/-- One form that a rule asks for: letters that stay and letters that are taken off. -/
structure Form where
  kept : List Place
  dropped : List Place

/-- A rule: the forms it takes, whether a form has to be the whole name, and the ending it adds. -/
structure Rule where
  forms : List Form
  ending : String
  whole : Bool := false

def fits (m : Mode) : List Place → List Char → Bool
  | [], [] => true
  | p :: ps, c :: cs => p.admits m c && fits m ps cs
  | _, _ => false

def Form.matches (m : Mode) (whole : Bool) (f : Form) (name : List Char) : Bool :=
  let places := f.kept ++ f.dropped
  places.length ≤ name.length && (!whole || places.length == name.length) &&
    fits m places (name.drop (name.length - places.length))

def Rule.apply? (r : Rule) (m : Mode) (name : List Rune) : Option Bytes :=
  match r.forms.find? (·.matches m r.whole (name.map (·.char))) with
  | none => none
  | some f =>
    some (Bytes.ofRunes (name.take (name.length - f.dropped.length)) ++
      Bytes.ofChars (r.ending.toList.map m.spelled))

/-! ## The rules -/

def uncountable : List String :=
  ["equipment", "information", "rice", "money", "species", "series", "fish", "sheep", "jeans",
    "police"]

def irregular : List (String × String) :=
  [("person", "people"), ("man", "men"), ("child", "children"), ("sex", "sexes"),
    ("move", "moves"), ("mombie", "mombies")]

/-- The forms of words that end in one of the given stems followed by `dropped`. -/
def stems (ws : List String) (dropped : String) : List Form := ws.map fun w =>
    ⟨spell w, spell dropped⟩

/-- The regular rules, the most special one first. -/
def regular : List Rule :=
  [{ forms := stems ["quiz"] "", ending := "zes" },
    { forms := stems ["oxen"] "", ending := "", whole := true },
    { forms := stems ["ox"] "", ending := "en", whole := true },
    { forms := stems ["m", "l"] "ice", ending := "ice", whole := true },
    { forms := stems ["m", "l"] "ouse", ending := "ice", whole := true },
    { forms := stems ["matr", "vert", "ind"] "ix" ++ stems ["matr", "vert", "ind"] "ex",
      ending := "ices" },
    { forms := stems ["x", "ch", "ss", "sh"] "", ending := "es" },
    { forms := [⟨[.except ['a', 'e', 'i', 'o', 'u', 'y']], spell "y"⟩, ⟨spell "qu", spell "y"⟩],
      ending := "ies" },
    { forms := stems ["hive"] "", ending := "s" },
    { forms := [⟨[.except ['f']], spell "fe"⟩, ⟨[.among ['l', 'r']], spell "f"⟩], ending := "ves" },
    { forms := stems [""] "sis", ending := "ses" },
    { forms := [⟨[.among ['t', 'i']], spell "a"⟩], ending := "a" },
    { forms := [⟨[.among ['t', 'i']], spell "um"⟩], ending := "a" },
    { forms := stems ["buffal", "tomat"] "o", ending := "oes" },
    { forms := stems ["bu"] "s", ending := "ses" },
    { forms := stems ["alias", "status"] "", ending := "es" },
    { forms := stems ["octop", "vir"] "i", ending := "i" },
    { forms := stems ["octop", "vir"] "us", ending := "i" },
    { forms := stems ["ax", "test"] "is", ending := "es", whole := true },
    { forms := stems [""] "s", ending := "s" },
    { forms := [⟨[.letter], []⟩], ending := "s" }]

def isUncountable (name : List Char) : Bool :=
  uncountable.any fun w => fits .folded (spell w) name

/-- The word with its first letter in upper case. -/
def title (s : String) : String :=
  match s.toList with
  | [] => s
  | c :: cs => String.ofList (c.toUpper :: cs)

/-- The three spellings in which an irregular ending is looked for. -/
def spellings (e : String × String) : List (String × String) :=
  [(e.1.toUpper, e.2.toUpper), (title e.1, title e.2), e]

/-- The irregular plural of a name, if it has one. -/
def irregular? (name : Bytes) : Option Bytes :=
  (irregular.flatMap spellings).findSome? fun e =>
    (Bytes.dropEnd? (Bytes.ofString e.1) name).map (· ++ Bytes.ofString e.2)

def regular? (name : List Rune) : Option Bytes :=
  regular.findSome? fun r => [Mode.upper, .exact, .folded].findSome? fun m => r.apply? m name

end Plural

def plural (name : Bytes) : Bytes :=
  if Plural.isUncountable (Bytes.chars name) then name
  else ((Plural.irregular? name).or (Plural.regular? (Bytes.runes name))).getD name

end AccessLayer
