import AccessLayer.Proofs.Layer.Places
import AccessLayer.Proofs.Layer.Tasks
import Mathlib.Data.List.Infix

/-!
# Module files

The import path of a directory starts with the module that the settings name, or else with the one
that the nearest module file names. The search for it goes up from the directory, and it ends
because the names of the path run out.

* `Directive`: the module that a module file names.
* `findImportPath_cases`, `gives_findImportPath`: what the search gives.
* `importPath_either_way`: the settings and the module file give the same import paths.
-/

namespace AccessLayer

open AccessLayer.Path (names)

/-! ## Paths below others -/

namespace Path

variable {ns rest : List Bytes}

theorem length_le_ofNames (h : ∀ n ∈ ns, Proper n) : ns.length ≤ (ofNames true ns).length := by
  induction ns using List.reverseRecOn with
  | nil => exact Nat.zero_le _
  | append_singleton ns n ih =>
    have hle := ih fun m hm => h m (by simp [hm])
    rw [ofNames_concat]
    split_ifs with hnil
    · simp [hnil]
    · simp only [List.length_append, List.length_cons, List.length_nil]
      omega

theorem dropCommon_append (ns rest : List Bytes) : dropCommon ns (ns ++ rest) = ([], rest) := by
  induction ns with
  | nil => cases rest <;> rfl
  | cons n ns ih => rw [List.cons_append, dropCommon, if_pos (beq_self_eq_true n), ih]

theorem relative?_append (h : ∀ n ∈ ns ++ rest, Proper n) :
    relative? (ofNames true ns) (ofNames true (ns ++ rest)) = some (ofNames false rest) := by
  rw [relative?, names_ofNames fun n hn => h n (List.mem_append_left _ hn), names_ofNames h,
    dropCommon_append]
  rfl

/-- The way down over some names is not that to the directory itself. -/
theorem join_ne_here (h : ∀ n ∈ rest, Proper n) (hne : rest ≠ []) :
    Bytes.join [separator] rest ≠ here := by
  intro heq
  have hsplit := Bytes.splitOn_join (fun n hn => (h n hn).2.2.2) hne
  rw [heq, Bytes.splitOn_of_notMem (by decide)] at hsplit
  exact (h here (hsplit ▸ List.mem_singleton_self here)).2.1 rfl

end Path

namespace Layer

variable {t u : Tree} {x y z : Place} {s s' : Session} {line text module : Bytes}

/-- The import path of the directory some names below that of a module. -/
def importBelow (module : Bytes) (rest : List Bytes) : Bytes :=
  if rest = [] then module else module ++ "/" ++ Bytes.join "/" rest

theorem importPathIn_append (module : Bytes) (rest : List Bytes)
    (h : ∀ n ∈ z ++ rest, Path.Proper n) :
    importPathIn module (Path.ofNames true z) (Path.ofNames true (z ++ rest)) =
      importBelow module rest := by
  rw [importPathIn, Path.relative?_append h, Option.getD_some, importBelow]
  by_cases hrest : rest = []
  · subst hrest
    rfl
  · have hway : Path.ofNames false rest = Bytes.join [Path.separator] rest := by
      simp [Path.ofNames, hrest]
    have hne := Path.join_ne_here (fun n hn => h n (List.mem_append_right _ hn)) hrest
    rw [hway, if_neg hrest, if_neg (by rwa [beq_iff_eq])]
    rfl

/-! ## The nearest module file -/

theorem proper_moduleFile : Path.Proper moduleFile := by decide

/-- The directory at a place has something with the name of a module file. -/
def HasModuleFile (t : Tree) (x : Place) : Prop :=
  Tree.Nameable (x ++ [moduleFile]) ∧ ∃ e, t.get? (x ++ [moduleFile]) = some e

/-- The nearest directory at or above a place that has a module file. -/
structure Nearest (t : Tree) (x z : Place) : Prop where
  above : z <+: x
  has : HasModuleFile t z
  between : ∀ w, z <+: w → w <+: x → HasModuleFile t w → w = z

theorem Nearest.eq_of_has (h : Nearest t x z) (h' : Nearest u x y) (hy : HasModuleFile t y)
    (hz : HasModuleFile u z) : z = y := by
  obtain hzy | hyz := List.prefix_or_prefix_of_prefix h.above h'.above
  · exact (h.between y hzy h'.above hy).symm
  · exact h'.between z hyz h.above hz

theorem Nearest.unique (h : Nearest t x z) (h' : Nearest t x y) : z = y :=
  h.eq_of_has h' h'.has h.has

/-- The search for a module file, one directory at a time. -/
theorem moduleDir?_succ (ht : t.WellFormed) (cwd : Place) (fuel : Nat)
    (hx : ∀ n ∈ x, Path.Proper n) :
    HasModuleFile t x ∧ moduleDir? t cwd (fuel + 1) (Path.ofNames true x) =
      some (Path.ofNames true x) ∨
      ¬ HasModuleFile t x ∧ moduleDir? t cwd (fuel + 1) (Path.ofNames true x) =
        if x = [] then none else moduleDir? t cwd fuel (Path.ofNames true x.dropLast) := by
  have hstat := Tree.stat_isSome ht cwd (Path.proper_concat hx proper_moduleFile)
  rw [moduleDir?, Path.join_ofNames hx proper_moduleFile]
  by_cases hfound : HasModuleFile t x
  · exact .inl ⟨hfound, if_pos (hstat.2 hfound)⟩
  · rw [if_neg fun h => hfound (hstat.1 h)]
    refine .inr ⟨hfound, ?_⟩
    cases x using List.reverseRecOn with
    | nil => rfl
    | append_singleton y n =>
      have hy : ∀ m ∈ y, Path.Proper m := fun m hm => hx m (by simp [hm])
      have hne : Path.ofNames true y ≠ Path.ofNames true (y ++ [n]) := by
        intro heq
        have hnames := congrArg names heq
        rw [Path.names_ofNames hy, Path.names_ofNames hx] at hnames
        simp at hnames
      rw [Path.dir_ofNames hy (hx n (by simp)), if_neg (by simpa using hne), if_neg (by simp),
        List.dropLast_concat]

/-- With a step for each name and one more the search ends at the nearest module file, or there is
none. -/
theorem moduleDir?_cases (ht : t.WellFormed) (cwd : Place) {fuel : Nat}
    (hx : ∀ n ∈ x, Path.Proper n) (hfuel : x.length < fuel) :
    (∃ z, Nearest t x z ∧ moduleDir? t cwd fuel (Path.ofNames true x) =
      some (Path.ofNames true z)) ∨
      (∀ z, z <+: x → ¬ HasModuleFile t z) ∧
        moduleDir? t cwd fuel (Path.ofNames true x) = none := by
  induction fuel generalizing x with
  | zero => exact absurd hfuel (Nat.not_lt_zero _)
  | succ fuel ih =>
    obtain ⟨hfound, hstop⟩ | ⟨hmiss, hgo⟩ := moduleDir?_succ ht cwd fuel hx
    · refine .inl ⟨x, ⟨List.prefix_refl x, hfound, fun w hxw hwx _ => ?_⟩, hstop⟩
      exact hwx.eq_of_length_le hxw.length_le
    · rw [hgo]
      cases x using List.reverseRecOn with
      | nil =>
        refine .inr ⟨fun z hz => ?_, if_pos rfl⟩
        rwa [List.prefix_nil.1 hz]
      | append_singleton y n =>
        rw [List.length_append, List.length_singleton] at hfuel
        rw [if_neg (by simp), List.dropLast_concat]
        obtain ⟨z, hz, hd⟩ | ⟨hnone, hd⟩ := ih (x := y) (fun m hm => hx m (by simp [hm])) (by omega)
        · refine .inl ⟨z, ⟨hz.above.trans (List.prefix_append y [n]), hz.has,
            fun w hzw hwx hw => ?_⟩, hd⟩
          obtain rfl | hwy := List.prefix_concat_iff.1 hwx
          · exact absurd hw hmiss
          · exact hz.between w hzw hwy hw
        · refine .inr ⟨fun z hz => ?_, hd⟩
          obtain rfl | hzy := List.prefix_concat_iff.1 hz
          · exact hmiss
          · exact hnone z hzy

/-! ## Module directives -/

/-- What a module line starts with. -/
def moduleWord : Bytes := "module "

/-- The text names the module in its first module line, in quotes or without. -/
def Directive (text module : Bytes) : Prop :=
  ∃ before line after, Bytes.splitOn (Bytes.byte '\n') text = before ++ line :: after ∧
    (∀ l ∈ before, ¬ moduleWord <+: Bytes.trim l) ∧
    ∃ rest, Bytes.trim line = moduleWord ++ rest ∧
      module = stripBytes (· == Bytes.byte '"') (Bytes.trim rest)

theorem moduleOfLine?_eq_some_iff :
    moduleOfLine? line = some module ↔
      ∃ rest, Bytes.trim line = moduleWord ++ rest ∧
        module = stripBytes (· == Bytes.byte '"') (Bytes.trim rest) := by
  rw [moduleOfLine?, Option.map_eq_some_iff]
  refine exists_congr fun rest => and_congr ?_ eq_comm
  rw [Bytes.dropFront?]
  constructor
  · intro h
    split_ifs at h with hword
    obtain ⟨rest', hrest⟩ := List.isPrefixOf_iff_prefix.1 hword
    rw [← hrest, List.drop_left, Option.some.injEq] at h
    rw [← hrest, h]
    rfl
  · intro h
    rw [h]
    exact (if_pos (List.isPrefixOf_iff_prefix.2 (List.prefix_append moduleWord rest))).trans
      (congrArg some List.drop_left)

theorem moduleOfLine?_eq_none_iff :
    moduleOfLine? line = none ↔ ¬ moduleWord <+: Bytes.trim line := by
  rw [Option.eq_none_iff_forall_ne_some]
  constructor
  · rintro h ⟨rest, hrest⟩
    exact h _ (moduleOfLine?_eq_some_iff.2 ⟨rest, hrest.symm, rfl⟩)
  · intro h module hmodule
    obtain ⟨rest, hrest, -⟩ := moduleOfLine?_eq_some_iff.1 hmodule
    exact h ⟨rest, hrest.symm⟩

/-- A module file has the module of its first module line, unless it is empty. -/
theorem moduleDirective?_eq_some_iff :
    moduleDirective? text = some module ↔ Directive text module ∧ module ≠ [] := by
  have hfirst : (Bytes.splitOn (Bytes.byte '\n') text).findSome? moduleOfLine? = some module ↔
      Directive text module := by
    rw [List.findSome?_eq_some_iff]
    simp only [moduleOfLine?_eq_some_iff, moduleOfLine?_eq_none_iff, Directive]
    refine exists_congr fun before => exists_congr fun line => exists_congr fun after => ?_
    rw [and_comm (b := ∀ l ∈ before, _)]
  rw [← hfirst, moduleDirective?]
  cases (Bytes.splitOn (Bytes.byte '\n') text).findSome? moduleOfLine? with
  | none => simp
  | some name =>
    by_cases hname : name = []
    · subst hname
      simp
    · simp only [List.isEmpty_iff, hname, if_false, Option.some.injEq]
      refine ⟨fun h => ⟨h, h ▸ hname⟩, And.left⟩

theorem moduleDirective?_eq_none_iff :
    moduleDirective? text = none ↔ ∀ module, Directive text module → module = [] := by
  simp only [Option.eq_none_iff_forall_ne_some, ne_eq, moduleDirective?_eq_some_iff, not_and,
    not_not]

def IsModulePath (module : Bytes) : Prop :=
  module ≠ [] ∧ (∀ c ∈ Bytes.chars module, isSpace c = false) ∧ Bytes.byte '"' ∉ module

theorem trim_append_module (h : IsModulePath module) (cs : List Char)
    (hcs : ∀ c ∈ cs.head?, isSpace c = false) :
    Bytes.trim (Bytes.ofChars cs ++ module) = Bytes.ofChars cs ++ module := by
  have hrunes : Bytes.runes module ≠ [] := by
    intro hnil
    have hself := Bytes.ofRunes_runes module
    rw [hnil] at hself
    exact h.1 hself.symm
  obtain ⟨w, x, hlast⟩ := (List.eq_nil_or_concat _).resolve_left hrunes
  rw [List.concat_eq_append] at hlast
  have hmem : x ∈ Bytes.runes module := by simp [hlast]
  have hx : isSpace x.char = false := h.2.1 x.char (List.mem_map_of_mem hmem)
  have hall := Bytes.runes_ofChars cs module
  cases cs with
  | nil =>
    obtain ⟨r, rs, hfirst⟩ := List.exists_cons_of_ne_nil hrunes
    have hr : isSpace r.char = false :=
      h.2.1 r.char (List.mem_map_of_mem (hfirst ▸ List.mem_cons_self))
    exact Bytes.trim_eq_self hfirst hr hlast hx
  | cons c cs =>
    refine Bytes.trim_eq_self hall (hcs c rfl) (w := (c :: cs).map Rune.ofChar ++ w) ?_ hx
    rw [hall, hlast, List.append_assoc]

theorem stripBytes_eq_self {p : UInt8 → Bool} {s : Bytes} (h : ∀ b ∈ s, p b = false) :
    stripBytes p s = s := by
  have hdrop : ∀ t : Bytes, (∀ b ∈ t, p b = false) → t.dropWhile p = t := by
    intro t ht
    cases t with
    | nil => rfl
    | cons b t => rw [List.dropWhile_cons, if_neg (by simp [ht])]
  rw [stripBytes, hdrop s h, hdrop _ fun b hb => h b (List.mem_reverse.1 hb), List.reverse_reverse]

/-- The module of a line that is the word and a path, up to the white space at its ends. -/
theorem directive_of_line {before after : List Bytes}
    (hlines : Bytes.splitOn (Bytes.byte '\n') text = before ++ line :: after)
    (hbefore : ∀ l ∈ before, ¬ moduleWord <+: Bytes.trim l) (hmodule : IsModulePath module)
    (hline : Bytes.trim line = Bytes.trim (moduleWord ++ module)) : Directive text module := by
  refine ⟨before, line, after, hlines, hbefore, module, ?_, ?_⟩
  · have hword : moduleWord = Bytes.ofChars ['m', 'o', 'd', 'u', 'l', 'e', ' '] := by decide
    rw [hline, hword]
    refine trim_append_module hmodule _ ?_
    rintro _ ⟨⟩
    decide
  · have hquotes : ∀ b ∈ module, (b == Bytes.byte '"') = false :=
      fun b hb => beq_eq_false_iff_ne.2 fun heq => hmodule.2.2 (heq ▸ hb)
    have htrim : Bytes.trim module = module := trim_append_module hmodule [] (by simp)
    rw [htrim, stripBytes_eq_self hquotes]

/-! ## Import paths -/

section

variable (hs : s.tree.WellFormed) (hx : ∀ n ∈ x, Path.Proper n)
include hs hx

/-- The search for the import path of a directory ends at the nearest module file and leaves the
session as it is. -/
theorem findImportPath_cases :
    (∀ z, z <+: x → ¬ HasModuleFile s.tree z) ∧
        (findImportPath (Path.ofNames true x)).Ends s
          (.error (.module (.noFile (Path.ofNames true x)))) s ∨
      ∃ z, Nearest s.tree x z ∧
        ((∃ text, s.tree.fileAt? (z ++ [moduleFile]) = some text ∧
            (findImportPath (Path.ofNames true x)).Ends s ((moduleDirective? text).elim
              (.error (.module (.noDirective (Path.ofNames true (z ++ [moduleFile])))))
              fun module => .ok (importPathIn module (Path.ofNames true z) (Path.ofNames true x)))
                s) ∨
          s.tree.fileAt? (z ++ [moduleFile]) = none ∧
            ∃ path e, (findImportPath (Path.ofNames true x)).Ends s (.error (.file path e)) s) := by
  have hfuel : x.length < (Path.ofNames true x).length + 1 :=
    Nat.lt_succ_of_le (Path.length_le_ofNames hx)
  rw [findImportPath]
  simp only [Task.ends_get_bind]
  obtain ⟨z, hz, hd⟩ | ⟨hnone, hd⟩ := moduleDir?_cases hs s.cwd hx hfuel
  · have hproper : ∀ n ∈ z, Path.Proper n := fun n hn => hx n (hz.above.subset hn)
    refine .inr ⟨z, hz, ?_⟩
    simp only [hd, Path.join_ofNames hproper proper_moduleFile]
    obtain ⟨text, hread, hget, -⟩ | ⟨e, hread, -⟩ :=
      Tree.readFile_cases hs s.cwd (Path.proper_concat hproper proper_moduleFile)
    · refine .inl ⟨text, Tree.fileAt?_eq_some.2 hget, ?_⟩
      simp only [hread]
      cases moduleDirective? text with
      | none => exact Task.ends_throw.2 ⟨rfl, rfl⟩
      | some module => exact Task.ends_pure.2 ⟨rfl, rfl⟩
    · refine .inr ⟨?_, _, e, by simp only [hread]; exact Task.ends_throw.2 ⟨rfl, rfl⟩⟩
      rw [← Option.not_isSome_iff_eq_none, Option.isSome_iff_exists]
      rintro ⟨text, hfile⟩
      rw [Tree.readFile_of_get? hs s.cwd (Tree.fileAt?_eq_some.1 hfile) hz.has.1] at hread
      cases hread
  · simp only [hd]
    exact .inl ⟨hnone, Task.ends_throw.2 ⟨rfl, rfl⟩⟩

theorem gives_findImportPath {path : Bytes} :
    (findImportPath (Path.ofNames true x)).Gives s path s' ↔ s' = s ∧ ∃ z text module,
      Nearest s.tree x z ∧ s.tree.fileAt? (z ++ [moduleFile]) = some text ∧
        moduleDirective? text = some module ∧
        path = importPathIn module (Path.ofNames true z) (Path.ofNames true x) := by
  obtain ⟨hnone, hends⟩ | ⟨z, hz, ⟨text, hfile, hends⟩ | ⟨hfile, _, e, hends⟩⟩ :=
    findImportPath_cases hs hx
  · constructor
    · intro h
      cases (Task.ends_unique h hends).1
    · rintro ⟨-, z, _, _, hz, -⟩
      exact absurd hz.has (hnone z hz.above)
  · constructor
    · intro h
      obtain ⟨hr, rfl⟩ := Task.ends_unique h hends
      cases hmodule : moduleDirective? text with
      | none =>
        rw [hmodule] at hr
        cases hr
      | some module =>
        rw [hmodule] at hr
        exact ⟨rfl, z, text, module, hz, hfile, hmodule, Except.ok.inj hr⟩
    · rintro ⟨rfl, z', text', module, hz', hfile', hmodule, rfl⟩
      obtain rfl := hz.unique hz'
      obtain rfl := Option.some.inj (hfile.symm.trans hfile')
      rwa [hmodule] at hends
  · constructor
    · intro h
      cases (Task.ends_unique h hends).1
    · rintro ⟨-, z', text, _, hz', hfile', -⟩
      obtain rfl := hz.unique hz'
      rw [hfile] at hfile'
      cases hfile'

end

/-- The nearest module file at or above a place names the module. -/
def NamesModule (t : Tree) (x z : Place) (module : Bytes) : Prop :=
  Nearest t x z ∧ ∃ text, t.fileAt? (z ++ [moduleFile]) = some text ∧ Directive text module ∧
    module ≠ []

/-- There is no module file at or above a place, or the nearest one names no module. -/
def NamesNone (t : Tree) (x : Place) : Prop :=
  (∀ z, z <+: x → ¬ HasModuleFile t z) ∨ ∃ z text, Nearest t x z ∧
    t.fileAt? (z ++ [moduleFile]) = some text ∧
    ∀ module, Directive text module → module = []

theorem NamesModule.not_namesNone (h : NamesModule t x z module) : ¬ NamesNone t x := by
  obtain ⟨hz, text, hfile, hmodule, hne⟩ := h
  rintro (hnone | ⟨z', text', hz', hfile', hempty⟩)
  · exact hnone z hz.above hz.has
  · obtain rfl := hz.unique hz'
    obtain rfl := Option.some.inj (hfile.symm.trans hfile')
    exact hne (hempty module hmodule)

theorem NamesModule.gives {module : Bytes} (h : NamesModule s.tree x z module)
    (hs : s.tree.WellFormed)
    (hx : ∀ n ∈ x, Path.Proper n) {rest : List Bytes} (hrest : x = z ++ rest) :
    (findImportPath (Path.ofNames true x)).Gives s (importBelow module rest) s := by
  obtain ⟨hz, text, hfile, hmodule⟩ := h
  refine (gives_findImportPath hs hx).2 ⟨rfl, z, text, module, hz, hfile,
    moduleDirective?_eq_some_iff.2 hmodule, ?_⟩
  subst hrest
  exact (importPathIn_append module rest hx).symm

/-- Where all module files are regular files, the search gives a path or says that there is no
module. -/
theorem findImportPath_regular (hs : s.tree.WellFormed) (hx : ∀ n ∈ x, Path.Proper n)
    (hregular : ∀ z, z <+: x → HasModuleFile s.tree z →
      ∃ text, s.tree.fileAt? (z ++ [moduleFile]) = some text) :
    (∃ z module, NamesModule s.tree x z module) ∨
      NamesNone s.tree x ∧ ∃ f,
        (findImportPath (Path.ofNames true x)).Ends s (.error (.module f)) s := by
  obtain ⟨hnone, hends⟩ | ⟨z, hz, ⟨text, hfile, hends⟩ | ⟨hfile, -⟩⟩ := findImportPath_cases hs hx
  · exact .inr ⟨.inl hnone, _, hends⟩
  · cases hmodule : moduleDirective? text with
    | none =>
      rw [hmodule] at hends
      exact .inr ⟨.inr ⟨z, text, hz, hfile, moduleDirective?_eq_none_iff.1 hmodule⟩, _, hends⟩
    | some module => exact .inl ⟨z, module, hz, text, hfile, moduleDirective?_eq_some_iff.1 hmodule⟩
  · obtain ⟨text, htext⟩ := hregular z hz.above hz.has
    rw [hfile] at htext
    cases htext

def Project.withModule (p : Project) (module : Bytes) : Project :=
  { p with settings := { p.settings with module } }

/-- The import path of a clean absolute directory is found from the nearest module file at or above
it, and the search fails only when there is none or the nearest one names no module. Below a root
with a module file, as long as no other one comes between, it is the same whether the settings name
the module or not. -/
theorem importPath_either_way (hs : s.tree.WellFormed) (dir : Bytes) (hdir : Path.isAbs dir = true)
    (hclean : Path.clean dir = dir)
    (hregular : ∀ z, z <+: names dir → HasModuleFile s.tree z →
      ∃ text, s.tree.fileAt? (z ++ [moduleFile]) = some text) :
    ((∃ path, (findImportPath dir).Gives s path s) ∨
      ∃ f, (findImportPath dir).Ends s (.error (.module f)) s) ∧
    ((∃ f, (findImportPath dir).Ends s (.error (.module f)) s) ↔ NamesNone s.tree (names dir)) ∧
    (∀ z module rest, NamesModule s.tree (names dir) z module → names dir = z ++ rest →
      (findImportPath dir).Gives s (importBelow module rest) s) ∧
    ∀ (p : Project) rest, Path.isAbs p.root = true → Path.clean p.root = p.root →
      Nearest s.tree (names dir) (names p.root) → names dir = names p.root ++ rest →
      ∀ text before line after module, s.tree.fileAt? (names p.root ++ [moduleFile]) = some text →
        Bytes.splitOn (Bytes.byte '\n') text = before ++ line :: after →
        (∀ l ∈ before, ¬ moduleWord <+: Bytes.trim l) → IsModulePath module →
        Bytes.trim line = Bytes.trim (moduleWord ++ module) →
        ((p.withModule module).importPath dir).Gives s (importBelow module rest) s ∧
          ((p.withModule []).importPath dir).Gives s (importBelow module rest) s := by
  have hx := Path.proper_names hdir
  have heq : Path.ofNames true (names dir) = dir := (Path.clean_of_isAbs hdir).symm.trans hclean
  have hgives : ∀ z module rest, NamesModule s.tree (names dir) z module → names dir = z ++ rest →
      (findImportPath dir).Gives s (importBelow module rest) s := by
    intro z module rest hmodule hrest
    have h := hmodule.gives hs hx hrest
    rwa [heq] at h
  have hcases := findImportPath_regular hs hx hregular
  rw [heq] at hcases
  refine ⟨?_, ⟨?_, ?_⟩, hgives, ?_⟩
  · obtain ⟨z, module, hmodule⟩ | ⟨-, hfails⟩ := hcases
    · obtain ⟨rest, hrest⟩ := hmodule.1.above
      exact .inl ⟨_, hgives z module rest hmodule hrest.symm⟩
    · exact .inr hfails
  · rintro ⟨f, hf⟩
    obtain ⟨z, module, hmodule⟩ | ⟨hnone, -⟩ := hcases
    · obtain ⟨rest, hrest⟩ := hmodule.1.above
      cases (Task.ends_unique hf (hgives z module rest hmodule hrest.symm)).1
    · exact hnone
  · intro hnone
    obtain ⟨z, module, hmodule⟩ | ⟨-, hfails⟩ := hcases
    · exact absurd hnone hmodule.not_namesNone
    · exact hfails
  · intro p rest hroot hrootClean hnear hrest text before line after module hfile hlines hbefore
      hmodule hline
    have hdirective := directive_of_line hlines hbefore hmodule hline
    constructor
    · have hnonempty : (p.withModule module).settings.module.isEmpty = false :=
        List.isEmpty_eq_false_iff.2 hmodule.1
      rw [Project.importPath, hnonempty, if_neg Bool.false_ne_true, Task.gives_pure]
      have hbelow := importPathIn_append module rest (z := names p.root) (hrest ▸ hx)
      rw [← hrest, heq, ← Path.clean_of_isAbs hroot, hrootClean] at hbelow
      exact ⟨hbelow.symm, rfl⟩
    · exact hgives _ module rest ⟨hnear, text, hfile, hdirective, hmodule.1⟩ hrest

/-- A session with a module in a directory of another module. -/
def nestedModules : Session where
  tree := ⟨[([moduleFile], .file "module outer\n"), (["p"], .dir),
    (["p", moduleFile], .file "// the app\n\n\tmodule example.com/app\r\n\ngo 1.22\n"),
    (["p", "db"], .dir), (["p", "db", "crud"], .dir)]⟩

def innerProject : Project := { root := "/p", settings := {}, exclude := [] }

theorem nestedModules_facts :
    nestedModules.tree.WellFormed ∧
      (∀ z ∈ (names "/p/db/crud").inits, (nestedModules.tree.get? (z ++ [moduleFile])).isNone ∨
        (nestedModules.tree.fileAt? (z ++ [moduleFile])).isSome) ∧
      (∀ w ∈ (names "/p/db/crud").inits, names "/p" <+: w →
        (nestedModules.tree.get? (w ++ [moduleFile])).isSome → w = names "/p") ∧
      Tree.Nameable (names "/p" ++ [moduleFile]) ∧
      nestedModules.tree.fileAt? (names "/p" ++ [moduleFile]) =
        some (Bytes.ofString "// the app\n\n\tmodule example.com/app\r\n\ngo 1.22\n") ∧
      (∀ l ∈ [Bytes.ofString "// the app", []], ¬ moduleWord <+: Bytes.trim l) ∧
      (Bytes.chars "example.com/app").all (fun c => !isSpace c) ∧
      Bytes.trim "\tmodule example.com/app\r" = Bytes.trim (moduleWord ++ "example.com/app") := by
  decide

theorem importPath_either_way_nested :
    ((innerProject.withModule "example.com/app").importPath "/p/db/crud").Gives nestedModules
        "example.com/app/db/crud" nestedModules ∧
      ((innerProject.withModule []).importPath "/p/db/crud").Gives nestedModules
        "example.com/app/db/crud"
        nestedModules := by
  obtain ⟨hs, hregular, hbetween, hname, hfile, hbefore, hchars, hline⟩ := nestedModules_facts
  have hnear : Nearest nestedModules.tree (names "/p/db/crud") (names "/p") := by
    refine ⟨by decide, ⟨hname, _, Tree.fileAt?_eq_some.1 hfile⟩, fun w hw hwx hhas => ?_⟩
    exact hbetween w ((List.mem_inits _ _).2 hwx) hw (Option.isSome_iff_exists.2 hhas.2)
  refine (importPath_either_way hs "/p/db/crud" (by decide) (by decide) fun z hz hhas => ?_).2.2.2
    innerProject ["db", "crud"] (by decide) (by decide) hnear (by decide) _ _ _ ["", "go 1.22",
      ""] _ hfile
    (by decide) hbefore ⟨by decide, ?_, by decide⟩ hline
  · have hsome : ¬ (nestedModules.tree.get? (z ++ [moduleFile])).isNone = true := by
      rw [Option.isNone_iff_eq_none]
      exact Option.ne_none_iff_exists'.2 hhas.2
    exact Option.isSome_iff_exists.1 ((hregular z ((List.mem_inits _ _).2 hz)).resolve_left hsome)
  · exact fun c hc => by simpa using List.all_eq_true.1 hchars c hc

end Layer

end AccessLayer
