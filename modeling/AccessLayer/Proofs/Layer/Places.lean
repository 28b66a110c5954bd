import AccessLayer.Layer.Pass
import AccessLayer.Proofs.Files.Trees
import AccessLayer.Proofs.Naming.FileStems

/-!
# Places of a project

The directories of a project with an absolute root are places of the tree, whatever the working
directory is, and every file of the access layer is a name in one of them.

* `Project.outputPlace`, `Project.categoryPlace`, `Project.sourcePlace`: the places of the
  directories.
* `Project.join_categoryDir`, `Project.layerIndexPath_eq`: the places of generated files.
* `IsGoFile`: the names of generated files.
-/

namespace AccessLayer.Layer

open AccessLayer.Path (join names ofNames)

/-- A name that ends in the extension of generated files. -/
def IsGoFile (name : Bytes) : Prop := Path.Proper name ∧ goExtension <:+ name

theorem isGoFile_append {stem : Bytes} (h : Path.separator ∉ stem) :
    IsGoFile (stem ++ goExtension) := by
  have hlen : 3 ≤ (stem ++ goExtension).length := by
    rw [List.length_append]
    exact Nat.le_add_left 3 stem.length
  refine ⟨⟨?_, ?_, ?_, ?_⟩, List.suffix_append _ _⟩
  · exact List.ne_nil_of_length_pos (by omega)
  · exact fun heq => absurd (heq ▸ hlen) (by decide)
  · exact fun heq => absurd (heq ▸ hlen) (by decide)
  · rw [List.mem_append, not_or]
    exact ⟨h, by decide⟩

theorem isGoFile_indexFile : IsGoFile indexFile := isGoFile_append (by decide)

theorem IsGoFile.ne {name other : Bytes} (h : IsGoFile name)
    (hother : goExtension.isSuffixOf other = false) : name ≠ other := by
  rintro rfl
  rw [List.isSuffixOf_iff_suffix.2 h.2] at hother
  cases hother

theorem Category.proper_name (c : Category) : Path.Proper c.name := by
  cases c <;> decide

theorem Category.name_injective {c d : Category} (h : c.name = d.name) : c = d := by
  revert h
  cases c <;> cases d <;> decide

namespace Project

/-- The place of the directory of the access layer. -/
def outputPlace (p : Project) : Place := names p.outputDir

/-- The place of the directory of a package. -/
def categoryPlace (p : Project) (c : Category) : Place := names (p.categoryDir c)

def layerIndexFile (p : Project) : Bytes := Naming.flatName (Path.base p.outputDir) ++ goExtension

def layerIndexPlace (p : Project) : Place := p.outputPlace ++ [p.layerIndexFile]

/-- The directory with the definitions of a package. -/
def sourceDir (p : Project) (c : Category) : Bytes := p.place (c.sourceDir p.settings)

/-- The place of the directory with the definitions of a package. -/
def sourcePlace (p : Project) (c : Category) : Place := names (p.sourceDir c)

variable {p : Project} (hroot : Path.isAbs p.root = true)
include hroot

theorem place_eq (path : Bytes) : p.place path = ofNames true (names (p.place path)) :=
  (Path.resolve_eq hroot path).1

theorem proper_place (path : Bytes) : ∀ n ∈ names (p.place path), Path.Proper n :=
  (Path.resolve_eq hroot path).2

theorem join_place (path : Bytes) {name : Bytes} (hname : Path.Proper name) :
    join [p.place path, name] = ofNames true (names (p.place path) ++ [name]) := by
  conv_lhs => rw [place_eq hroot path]
  exact Path.join_ofNames (proper_place hroot path) hname

theorem categoryPlace_eq (c : Category) : p.categoryPlace c = p.outputPlace ++ [c.name] := by
  have hproper := Path.proper_concat (proper_place hroot p.settings.paths.output) c.proper_name
  rw [categoryPlace, categoryDir, outputDir, join_place hroot _ c.proper_name,
    Path.names_ofNames hproper]
  rfl

theorem categoryDir_eq (c : Category) : p.categoryDir c = ofNames true (p.categoryPlace c) := by
  rw [categoryPlace_eq hroot]
  exact join_place hroot _ c.proper_name

theorem proper_categoryPlace (c : Category) : ∀ n ∈ p.categoryPlace c, Path.Proper n := by
  rw [categoryPlace_eq hroot]
  exact Path.proper_concat (proper_place hroot _) c.proper_name

theorem join_categoryDir (c : Category) {name : Bytes} (hname : Path.Proper name) :
    join [p.categoryDir c, name] = ofNames true (p.categoryPlace c ++ [name]) := by
  rw [categoryDir_eq hroot]
  exact Path.join_ofNames (proper_categoryPlace hroot c) hname

theorem base_categoryFile (c : Category) {name : Bytes} (hname : Path.Proper name) :
    Path.base (join [p.categoryDir c, name]) = name := by
  rw [join_categoryDir hroot c hname, Path.base_ofNames hname]

omit hroot in
theorem isGoFile_layerIndexFile (p : Project) : IsGoFile p.layerIndexFile :=
  isGoFile_append (Naming.separator_notMem_flatName _)

theorem layerIndexPath_eq : layerIndexPath p = ofNames true p.layerIndexPlace :=
  join_place hroot _ p.isGoFile_layerIndexFile.1

/-- The directories of packages are side by side. -/
theorem categoryPlace_prefix {c d : Category} (hcd : c ≠ d) {x : Place}
    (hx : p.categoryPlace c <+: x) : ¬ p.categoryPlace d <+: x ∧ ¬ x <+: p.categoryPlace d := by
  have hne : p.categoryPlace c ≠ p.categoryPlace d := by
    rw [categoryPlace_eq hroot, categoryPlace_eq hroot]
    simpa using fun h => hcd (Category.name_injective h)
  have hlen : (p.categoryPlace c).length = (p.categoryPlace d).length := by
    rw [categoryPlace_eq hroot, categoryPlace_eq hroot, List.length_append, List.length_append]
    rfl
  constructor
  · exact fun hd => hne ((List.prefix_of_prefix_length_le hx hd hlen.le).eq_of_length hlen)
  · exact fun hd => hne ((hx.trans hd).eq_of_length hlen)

/-- The index of the layer is beside the directories of packages. -/
theorem layerIndexPlace_apart (c : Category) :
    ¬ p.categoryPlace c <+: p.layerIndexPlace ∧ ¬ p.layerIndexPlace <+: p.categoryPlace c := by
  have hne : p.layerIndexFile ≠ c.name := p.isGoFile_layerIndexFile.ne (by cases c <;> decide)
  rw [categoryPlace_eq hroot, layerIndexPlace, List.prefix_append_right_inj,
    List.prefix_append_right_inj]
  simp [List.cons_prefix_cons, hne, hne.symm]

end Project

end AccessLayer.Layer
