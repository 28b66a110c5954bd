import AccessLayer.Proofs.Layer.Convergence
import AccessLayer.Proofs.Layer.Repetition

/-!
# Passes on their own result

A second pass makes every package again as it is. Only the index of the layer may change: it bears
the name of the package that the other files in its directory name, and the index may have taken the
place of the very file that did so.

* `packageName_congr`: the name of a package comes from the files by hand in its directory.
* `Project.Separate`: projects whose access layer is away from their inputs.
* `generate_idempotent`: what a second pass does, and when it changes nothing.
-/

namespace AccessLayer.Layer

open AccessLayer.Tree (Edited Change Nameable)

variable {p : Project} {c : Category} {s s₁ s' u : Session} {t v : Tree} {x : Place}

/-! ## The name of a package -/

/-- The package that a file of a directory names. -/
def packageIn? (t : Tree) (x : Place) (n : Bytes) : Option Bytes :=
  (t.fileAt? (x ++ [n])).bind fun text => packageOfEntry? (n, .file text)

/-- The names of packages in a directory, with the names of the files. -/
def packagesIn (t : Tree) (x : Place) : List (Bytes × Bytes) :=
  (t.children x).filterMap fun entry => Option.map (entry.1, ·) <| packageOfEntry? entry

theorem findSome?_children (t : Tree) (x : Place) :
    (t.children x).findSome? packageOfEntry? = (packagesIn t x).head?.map (·.2) := by
  rw [packagesIn]
  induction t.children x with
  | nil => rfl
  | cons entry entries ih =>
    rw [List.findSome?_cons, List.filterMap_cons]
    cases packageOfEntry? entry with
    | none => exact ih
    | some name => rfl

theorem mem_packagesIn (ht : t.WellFormed) {n name : Bytes} :
    (n, name) ∈ packagesIn t x ↔ packageIn? t x n = some name := by
  rw [packagesIn, List.mem_filterMap, packageIn?, Option.bind_eq_some_iff]
  constructor
  · rintro ⟨⟨m, entry⟩, hmem, hname⟩
    obtain ⟨name', hname', heq⟩ := Option.map_eq_some_iff.1 hname
    cases heq
    cases entry with
    | dir => cases hname'
    | file text => exact ⟨text, Tree.fileAt?_eq_some.2 (ht.mem_children.1 hmem), hname'⟩
  · rintro ⟨text, hfile, hname⟩
    exact ⟨(n, .file text), ht.mem_children.2 (Tree.fileAt?_eq_some.1 hfile), by rw [hname]; rfl⟩

theorem ascending_packagesIn (ht : t.WellFormed) :
    Bytes.Ascending ((packagesIn t x).map (·.1)) := by
  have hchildren : Bytes.Ascending ((t.children x).map (·.1)) := by
    exact (List.pairwise_map.2 (Bytes.pairwise_sortBy Prod.fst _)).and (ht.nodup_children x)
  refine hchildren.sublist ?_
  rw [packagesIn, List.map_filterMap]
  induction t.children x with
  | nil => exact List.Sublist.slnil
  | cons entry entries ih =>
    rw [List.filterMap_cons, List.map_cons]
    cases packageOfEntry? entry with
    | none => exact ih.cons _
    | some name => exact ih.cons_cons _

/-- The name of a package by the names that files of its directory give. -/
theorem packageName_eq (ht : t.WellFormed) (cwd : Place) (hx : ∀ n ∈ x, Path.Proper n)
    (hname : Nameable x) : packageName t cwd (Path.ofNames true x) =
      ((packagesIn t x).head?.map (·.2)).getD
        (Naming.sanitize (Path.base (Path.ofNames true x))) := by
  rw [packageName, ← findSome?_children]
  obtain ⟨hread, -, -⟩ | ⟨e, hread, -⟩ := Tree.readDir_cases ht cwd hx
  · simp only [hread]
  · have hdir : t.get? x ≠ some .dir := by
      intro hdir
      rw [Tree.readDir_of_get? ht cwd hdir hname] at hread
      cases hread
    have hnil : t.children x = [] := by
      rw [List.eq_nil_iff_forall_not_mem]
      rintro ⟨n, entry⟩ hmem
      have hget := ht.mem_children.1 hmem
      rw [ht.get?_below hdir (List.prefix_append x [n]) (by simp)] at hget
      cases hget
    simp only [hread, hnil, List.findSome?_nil]

theorem packageName_congr (ht : t.WellFormed) (hv : v.WellFormed) (cwd cwd' : Place)
    (hx : ∀ n ∈ x, Path.Proper n)
    (hname : Nameable x) (h : ∀ n, packageIn? t x n = packageIn? v x n) :
    packageName t cwd (Path.ofNames true x) = packageName v cwd' (Path.ofNames true x) := by
  rw [packageName_eq ht cwd hx hname, packageName_eq hv cwd' hx hname]
  have hsame : packagesIn t x = packagesIn v x := by
    refine (ascending_packagesIn ht).eq_of_keys (ascending_packagesIn hv) ?_
    rintro ⟨n, name⟩
    rw [mem_packagesIn ht, mem_packagesIn hv, h]
  rw [hsame]

/-! ## The index of the layer -/

theorem Report.mem_nonEmpty {x : Report} :
    c ∈ x.nonEmpty ↔ ∃ r ∈ x.results, r.category = c ∧ r.modules ≠ [] := by
  have hall : c ∈ Category.indexOrder := by cases c <;> decide
  simp only [Report.nonEmpty, List.mem_filter, hall, true_and, List.any_eq_true, Bool.and_eq_true,
    beq_iff_eq, Bool.not_eq_true', CategoryResult.isEmpty, List.isEmpty_eq_false_iff]

/-- An index with packages has found the module of the first one. -/
theorem gives_findImportPath_of_parts (hmodule : p.settings.module.isEmpty)
    {categories : List Category}
    {parts : List (Category × Bytes)} (h : (layerParts p (c :: categories)).Gives s parts s') :
    ∃ path s₁, (findImportPath (p.categoryDir c)).Gives s path s₁ := by
  rw [layerParts, List.mapM_cons] at h
  obtain ⟨part, s₁, hpart, -⟩ := Task.gives_bind.1 h
  obtain ⟨path, s₂, himport, -⟩ := Task.gives_bind.1 hpart
  rw [Project.categoryImport, Project.importPath, if_pos hmodule] at himport
  exact ⟨path, s₂, himport⟩

/-- How the last step ends in a complete tree: the index is written if it has a text. -/
inductive Reindexed (p : Project) (t : Tree) :
    Option Bytes → Except Failure Unit → Tree → Prop where
  | written (text : Bytes) : Reindexed p t (some text) (.ok ())
    (t.set p.layerIndexPlace (.file text))
  | failed (e : Failure) : Reindexed p t none (.error e) t

namespace Reindexed

variable {w : Tree} {text? : Option Bytes} {q : Except Failure Unit} (h : Reindexed p t text? q w)
include h

theorem get?_other (y : Place) (hy : y ≠ p.layerIndexPlace) : w.get? y = t.get? y := by
  cases h with
  | written text => rw [Tree.get?_set t (by simp [Project.layerIndexPlace]), if_neg hy]
  | failed e => rfl

/-- Nothing changes exactly if the text is the one that is there. -/
theorem same_iff (ht : t.WellFormed) {content : Bytes}
    (hindex : t.get? p.layerIndexPlace = some (.file content)) :
    q = .ok () ∧ w = t ↔ text? = some content := by
  have hne : p.layerIndexPlace ≠ [] := by simp [Project.layerIndexPlace]
  cases h with
  | failed e => simp
  | written text =>
    rw [Option.some.injEq]
    constructor
    · rintro ⟨-, hset⟩
      rw [← hset, Tree.get?_set t hne, if_pos rfl] at hindex
      cases hindex
      rfl
    · rintro rfl
      exact ⟨rfl, Tree.set_self ht hne hindex⟩

end Reindexed

/-! ## Projects with an access layer apart -/

/-- The access layer is away from the inputs: its directory holds no definitions and is not below a
place for a template, none of its files is on the way to the templates, and the places of inputs can
be named. -/
structure Project.Separate (p : Project) : Prop where
  definitions : ∀ c, ¬ p.outputPlace <+: p.sourcePlace c ∧ Nameable (p.sourcePlace c)
  way : ∀ dir, p.templatesDir? = some dir → ∀ w, w <+: Path.names dir → ¬ p.IsOutputFile w
  templates : ∀ dir, p.templatesDir? = some dir → ∀ name : TemplateName,
    ¬ Path.names dir ++ [name.file] <+: p.outputPlace ∧ Nameable (Path.names dir ++ [name.file])

section

variable (hroot : Path.isAbs p.root = true)
include hroot

/-- Output files are below the directory of the access layer. -/
theorem Project.IsOutputFile.below {y : Place} (h : p.IsOutputFile y) : p.outputPlace <+: y := by
  obtain ⟨c, n, -, rfl⟩ | rfl := h
  · rw [Project.categoryPlace_eq hroot, List.append_assoc]
    exact List.prefix_append _ _
  · exact List.prefix_append _ _

/-- A place above a package whose name is not the one of a package is above the directory of the
access layer. -/
theorem prefix_outputPlace {w : Place} {n : Bytes} (hn : ∀ c : Category, n ≠ c.name)
    (h : w ++ [n] <+: p.categoryPlace c) : w ++ [n] <+: p.outputPlace := by
  rw [Project.categoryPlace_eq hroot] at h
  refine (List.prefix_concat_iff.1 h).resolve_left fun heq => hn c ?_
  exact List.singleton_inj.1 (List.append_inj' heq rfl).2

/-- The index of the layer is written in the directory of the access layer, and the packages are not
touched. -/
theorem later_of_edited {content : Bytes}
    (h : Edited p.outputPlace (.put p.layerIndexFile content) v t) :
    Later p p.IsOutputFile v t := by
  intro y
  by_cases hchild : ∃ n, y = p.outputPlace ++ [n]
  · obtain ⟨n, rfl⟩ := hchild
    rw [h.child, Change.put]
    split_ifs with hn
    · exact .inr (.inl (.inr (by rw [hn]; rfl)))
    · exact .inl rfl
  · obtain hsame | ⟨hpre, hv, ht⟩ := h.other y fun n hn => hchild ⟨n, hn⟩
    · exact .inl hsame
    · refine .inr (.inr ⟨⟨.crud, ?_⟩, hv, ht⟩)
      rw [Project.categoryPlace_eq hroot]
      exact hpre.trans (List.prefix_append _ _)

/-! ## The module file -/

/-- When a package finds its module, no directory above it has the name of a module file, unless it
was there at any earlier time. -/
theorem no_new_moduleFile (hs : s.tree.WellFormed) {path : Bytes}
    (himport : (findImportPath (p.categoryDir c)).Gives s path s')
    (hdir : s.tree.get? (p.categoryPlace c) = some .dir)
    (hname : Nameable p.outputPlace) (hv : v.WellFormed)
    (hsame : ∀ z, v.fileAt? (z ++ [moduleFile]) = s.tree.fileAt? (z ++ [moduleFile])) {w : Place}
    (hw : w ++ [moduleFile] <+: p.outputPlace) : v.get? (w ++ [moduleFile]) ≠ none := by
  have hproper := Project.proper_categoryPlace hroot c
  have hwc : w ++ [moduleFile] <+: p.categoryPlace c := by
    rw [Project.categoryPlace_eq hroot]
    exact hw.trans (List.prefix_append _ _)
  rw [Project.categoryDir_eq hroot] at himport
  obtain ⟨-, z, text, module, hz, hfile, -⟩ := (gives_findImportPath hs hproper).1 himport
  -- there is a directory at the place now
  have hthere : s.tree.get? (w ++ [moduleFile]) = some .dir := by
    by_cases heq : w ++ [moduleFile] = p.categoryPlace c
    · rw [heq, hdir]
    · exact hs.get?_above hdir hwc heq
  obtain hzw | hwz :=
    List.prefix_or_prefix_of_prefix hz.above ((List.prefix_append w [moduleFile]).trans hwc)
  · -- the search would have stopped at it
    have heq : w = z := by
      refine hz.between w hzw ((List.prefix_append w [moduleFile]).trans hwc) ⟨?_, _, hthere⟩
      exact Tree.nameable_iff.2 fun n hn => Tree.nameable_iff.1 hname n (hw.subset hn)
    rw [Tree.fileAt?, ← heq, hthere] at hfile
    cases hfile
  · by_cases heq : w = z
    · rw [Tree.fileAt?, ← heq, hthere] at hfile
      cases hfile
    -- the module file is below it and was there before
    have hbelow : w ++ [moduleFile] <+: z := by
      refine List.prefix_of_prefix_length_le hwc hz.above ?_
      rw [List.length_append, List.length_singleton]
      exact Nat.lt_of_le_of_ne hwz.length_le fun hlen => heq (hwz.eq_of_length hlen)
    rw [← hsame] at hfile
    have hup := hv.get?_above (Tree.fileAt?_eq_some.1 hfile)
      (hbelow.trans (List.prefix_append z [moduleFile]))
      (Tree.ne_concat_of_prefix hbelow _)
    rw [hup]
    exact Option.some_ne_none _

/-! ## The tree of a pass -/

/-- A tree is complete when the index of the layer was written last. -/
theorem complete_of_edited (hsep : p.Separate) (hs : s.tree.WellFormed)
    {content : Bytes} (hedit : Edited p.outputPlace (.put p.layerIndexFile content) s.tree t)
    (hname : Nameable p.layerIndexPlace) (hdir : s.tree.get? (p.categoryPlace c) = some .dir)
    (hmodule : p.settings.module.isEmpty →
      ∃ path s', (findImportPath (p.categoryDir c)).Gives s path s') :
    Complete p t := by
  have hfrom : Later p p.IsOutputFile s.tree t := later_of_edited hroot hedit
  have houtput : Nameable p.outputPlace :=
    Tree.nameable_iff.2 fun n hn =>
      Tree.nameable_iff.1 hname n (by simp [Project.layerIndexPlace, hn])
  have hindex : t.get? p.layerIndexPlace = some (.file content) := by
    rw [Project.layerIndexPlace, hedit.child, Change.put, if_pos rfl]
  have hsource : ∀ c w, w <+: p.sourcePlace c → ¬ p.IsOutputFile w :=
    fun c w hw hout => (hsep.definitions c).1 ((hout.below hroot).trans hw)
  have hother : ∀ {w : Place} {n : Bytes}, goExtension.isSuffixOf n = false →
      ¬ p.IsOutputFile (w ++ [n]) :=
    fun hn hout => hout.isGoFile.ne hn rfl
  refine ⟨hedit.wf, hedit.wf.parent_get? hindex, houtput, fun c n hout => ?_, fun v hv hlater =>
    ⟨fun c => ?_, ?_, ?_⟩⟩
  · obtain ⟨d, m, -, heq⟩ | heq := hout
    · refine (hsep.definitions c).1 ?_
      rw [(List.append_inj' heq rfl).1, Project.categoryPlace_eq hroot]
      exact List.prefix_append _ _
    · exact (hsep.definitions c).1 ((List.append_inj' heq rfl).1 ▸ List.prefix_refl _)
  · refine ⟨(hsep.definitions c).2, fun w hw hnone => ?_⟩
    rw [hlater.fileAt? (hsource c w hw), hnone]
  · intro hempty w hnone
    obtain hsame | hout | ⟨⟨d, hup⟩, -, hfile⟩ := hlater (w ++ [moduleFile])
    · rw [hsame, hnone]
    · exact absurd hout (hother (by decide))
    · obtain ⟨path, s', himport⟩ := hmodule hempty
      refine absurd hnone (no_new_moduleFile hroot hs himport hdir houtput hv (fun z => ?_) ?_)
      · rw [← hlater.fileAt? (hother (by decide)), hfrom.fileAt? (hother (by decide))]
      · exact prefix_outputPlace hroot (fun c => by cases c <;> decide) hup
  · intro dir hdir' name hnone hopen
    have htemplate : goExtension.isSuffixOf name.file = false := by cases name <;> decide
    refine ⟨?_, fun w hw hne => ?_, (hsep.templates dir hdir' name).2⟩
    · obtain hsame | hout | ⟨⟨d, hup⟩, -, -⟩ := hlater (Path.names dir ++ [name.file])
      · rw [hsame, hnone]
      · exact absurd hout (hother htemplate)
      · refine absurd (prefix_outputPlace hroot (fun c => ?_) hup) (hsep.templates dir hdir' name).1
        cases c <;> cases name <;> decide
    · have hway := hsep.way dir hdir' w ((List.prefix_concat_iff.1 hw).resolve_left hne)
      rw [hlater.fileAt? hway, hopen w hw hne]

/-! ## The index of the layer again -/

def indexText? (p : Project) (t : Tree) (package : Bytes) (parts : List (Category × Bytes)) :
    Option Bytes :=
  rendered? p t ({ package, parts } : LayerIndex).artifact

theorem agrees_layerParts {strict : Prop} (categories : List Category) :
    Agrees p strict (layerParts p categories) fun _ => True :=
  Agrees.mapM fun c _ => (agrees_categoryImport hroot c).bind fun _ _ => Agrees.pure trivial

/-- In a complete tree the index is made from the same parts again, whatever its package is. -/
theorem layerText_again (ht : Complete p t) (hs : Sound p s)
    (hlater : Later p p.IsOutputFile s.tree t) {package content : Bytes}
    {categories : List Category} (htext : (layerText p package categories).Gives s content s') :
    ∃ parts, indexText? p t package parts = some content ∧ ∀ u, Mirrors t s u → ∀ package',
      ∃ q u', (layerText p package' categories).Ends u q u' ∧
        q.toOption = indexText? p t package' parts := by
  obtain ⟨parts, s₁, hparts, hrender⟩ := Task.gives_bind.1 htext
  obtain ⟨-, hs₁⟩ := (agrees_layerParts hroot _).single hs hparts
  obtain ⟨loaded, s₂, hload, -⟩ := Task.gives_bind.1 hrender
  refine ⟨parts, ?_, fun u hu package' => ?_⟩
  · rw [indexText?, hlater.rendered? (fun _ => id), ← (quiet_layerParts p _ hparts).tree]
    exact gives_render hroot hs₁ hrender
  · obtain ⟨u₁, hparts', halike⟩ :=
      (agrees_layerParts hroot _).follows (hu.alike ht hs hlater) hparts
    obtain ⟨u', hload', -⟩ := (agrees_loadTemplate hroot _ _).follows halike hload
    obtain ⟨q, hrender', hq⟩ :=
      ends_render (a := LayerIndex.artifact ⟨package', parts⟩) hroot halike.right hload'
    refine ⟨q, u', Task.ends_bind.2 (.inr ⟨parts, u₁, hparts', hrender'⟩), ?_⟩
    rw [hq, (quiet_layerParts p _ hparts').tree, hu.tree]
    rfl

/-- The last step writes the index over the one that is there. -/
theorem finish_again (hs : s.tree.WellFormed) (hmodules : s.report.nonEmpty ≠ [])
    {q : Except Failure Bytes}
    (htext : (layerText p (packageName s.tree s.cwd p.outputDir) s.report.nonEmpty).Ends s q s₁)
    {old : Bytes} (hindex : s.tree.get? p.layerIndexPlace = some (.file old))
    (hname : Nameable p.layerIndexPlace) :
    ∃ q' s', (finish p).Ends s q' s' ∧ s'.report.removed = s.report.removed ∧
      Reindexed p s.tree q.toOption q' s'.tree := by
  have hkeeps := quiet_layerText p _ _ htext
  simp only [ends_finish_of_modules hmodules, writeLayerIndex_eq, Task.ends_get_bind]
  cases q with
  | error e =>
    refine ⟨.error e, s₁, Task.ends_bind.2 (.inl ⟨e, htext, rfl⟩), by rw [hkeeps.report], ?_⟩
    rw [hkeeps.tree]
    exact .failed e
  | ok text =>
    obtain ⟨s₂, hwrite, htree, -, hreport⟩ := gives_writeOutput_again (p := p) text
      (hkeeps.tree.symm ▸ hs) (hkeeps.tree.symm ▸ hindex) hname
    refine ⟨.ok (), { s₂ with report := _ },
      Task.ends_bind.2 (.inr ⟨text, s₁, htext, Task.ends_bind.2 (.inr
      ⟨(), s₂, ?_, Task.gives_modify.2 rfl⟩)⟩), ?_, ?_⟩
    · rw [Project.layerIndexPath_eq hroot]
      exact hwrite
    · rw [hreport, hkeeps.report]
    · rw [htree, hkeeps.tree]
      exact .written text

/-! ## A second pass -/

theorem packageName_outputDir (ht : t.WellFormed) (hv : v.WellFormed)
    (hname : Nameable p.outputPlace)
    (h : ∀ n, packageIn? t p.outputPlace n = packageIn? v p.outputPlace n)
    (cwd cwd' : Place) : packageName t cwd p.outputDir = packageName v cwd' p.outputDir := by
  rw [Project.outputDir, Project.place_eq hroot]
  exact packageName_congr ht hv cwd cwd' (Project.proper_place hroot _) hname h

/-- The turns of the packages leave the files alone that name the package of the index. -/
theorem packageName_of_progress {cs : List Category} (hs : s.tree.WellFormed)
    (hname : Nameable p.outputPlace) (h : Progress p cs s s') (cwd cwd' : Place) :
    packageName s'.tree cwd p.outputDir = packageName s.tree cwd' p.outputDir := by
  refine packageName_outputDir hroot h.sound.tree hs hname (fun n => ?_) cwd cwd'
  rw [packageIn?, packageIn?, h.touched.later.fileAt? ?_]
  rintro ⟨c, m, -, heq⟩
  rw [Project.categoryPlace_eq hroot] at heq
  simpa using congrArg List.length heq

/-- What a pass with modules leaves, and what a second pass makes of it. -/
theorem generate_again (hsep : p.Separate) (hs : s.tree.WellFormed)
    (h : (generate p).Gives s () s') (hmodules : ∃ r ∈ s'.report.results, r.modules ≠ []) :
    Complete p s'.tree ∧ Later p p.IsOutputFile s.tree s'.tree ∧ ∃ parts content,
      s'.tree.get? p.layerIndexPlace = some (.file content) ∧
      indexText? p s'.tree (packageName s.tree s.cwd p.outputDir) parts = some content ∧
      ∀ u, u.tree = s'.tree → ∃ q u', (generate p).Ends u q u' ∧ u'.report.removed = [] ∧
        Reindexed p s'.tree (indexText? p s'.tree (packageName s'.tree s'.cwd p.outputDir) parts) q
          u'.tree := by
  obtain ⟨⟨⟩, s₁, hturns, hfinish⟩ := Task.gives_bind.1 (ends_generate.1 h)
  have hprogress := progress_of_turns hroot (by decide) (Sound.fresh hs) hturns
  have hlast := ends_finish hroot hprogress.sound.tree hfinish
  have hsame := hlast.samePackage hroot
  have hnonEmpty : s₁.report.nonEmpty ≠ [] := by
    obtain ⟨r, hr, hne⟩ := hmodules
    exact List.ne_nil_of_mem (Report.mem_nonEmpty.2 ⟨r, hlast.results ▸ hr, rfl, hne⟩)
  cases hlast with
  | nothing hempty _ => exact absurd hempty hnonEmpty
  | @written content s₂ _ _ htext hedit hname hreport =>
    have hlater : Later p p.IsOutputFile s₁.tree s'.tree := later_of_edited hroot hedit
    have hindex : s'.tree.get? p.layerIndexPlace = some (.file content) := by
      rw [Project.layerIndexPlace, hedit.child, Change.put, if_pos rfl]
    have hcomplete : Complete p s'.tree := by
      obtain ⟨c, cs, hcs⟩ := List.exists_cons_of_ne_nil hnonEmpty
      obtain ⟨r, hr, rfl, hne⟩ :=
        Report.mem_nonEmpty.1 (hcs ▸ List.mem_cons_self : c ∈ s₁.report.nonEmpty)
      have hdir :=
        (get?_categoryPlace_of_turns hroot (Sound.fresh hs) (by decide) hturns hr hne).resolve_left
        List.not_mem_nil
      refine complete_of_edited hroot hsep hprogress.sound.tree hedit hname hdir fun hmodule => ?_
      obtain ⟨parts, s₃, hparts, -⟩ := Task.gives_bind.1 htext
      exact gives_findImportPath_of_parts hmodule (hcs ▸ hparts)
    have hpackage : packageName s₁.tree s₁.cwd p.outputDir = packageName s.tree s.cwd p.outputDir :=
      packageName_of_progress (s := s.fresh) hroot hs hcomplete.nameable hprogress _ _
    rw [hpackage] at htext
    obtain ⟨parts, htext, hagain⟩ := layerText_again hroot hcomplete hprogress.sound hlater htext
    refine ⟨hcomplete, (hprogress.touched.later.mono fun _ => .inl).trans hlater, parts, content,
      hindex, htext, fun u hu => ?_⟩
    obtain ⟨u₁, hturns', hu₁⟩ :=
      turns_again hroot hcomplete (Sound.fresh hs) (by decide) hturns hlater hsame
      (u := u.fresh) ⟨hu, rfl, rfl, rfl⟩
    have hname' : packageName u₁.tree u₁.cwd p.outputDir =
        packageName s'.tree s'.cwd p.outputDir := by
      rw [hu₁.tree]
      exact packageName_outputDir hroot hcomplete.wf hcomplete.wf hcomplete.nameable (fun _ =>
        rfl) _ _
    have hnonEmpty' : u₁.report.nonEmpty = s₁.report.nonEmpty := by
      rw [Report.nonEmpty, Report.nonEmpty, hu₁.results]
    obtain ⟨q, u₂, htext', hq⟩ := hagain u₁ hu₁ (packageName s'.tree s'.cwd p.outputDir)
    rw [← hname', ← hnonEmpty'] at htext'
    obtain ⟨q', u', hfinish', hremoved, hdone⟩ := finish_again hroot (hu₁.tree.symm ▸ hcomplete.wf)
      (hnonEmpty'.symm ▸ hnonEmpty) htext' (hu₁.tree.symm ▸ hindex) hname
    refine ⟨q', u', ends_generate.2 (Task.ends_bind.2 (.inr ⟨⟨⟩, u₁, hturns', hfinish'⟩)),
      hremoved.trans hu₁.removed, ?_⟩
    rw [← hq, ← hu₁.tree]
    exact hdone

/-- What stands at the place of the index, if anything does, has the header of generated files in
it. -/
def Project.IndexGenerated (p : Project) (t : Tree) : Prop :=
  ∀ text, t.fileAt? p.layerIndexPlace = some text → Bytes.hasPart generatedHeader text = true

/-- The package keeps its name if the index takes the place of no file by hand. -/
theorem packageName_kept (hs : s.tree.WellFormed) (ht : Complete p t)
    (hlater : Later p p.IsOutputFile s.tree t) (hold : p.IndexGenerated s.tree)
    (hnew : p.IndexGenerated t)
    (cwd cwd' : Place) : packageName t cwd p.outputDir = packageName s.tree cwd' p.outputDir := by
  refine packageName_outputDir hroot ht.wf hs ht.nameable (fun n => ?_) _ _
  by_cases hn : n = p.layerIndexFile
  · -- a generated file does not count
    have hnone : ∀ {v : Tree}, p.IndexGenerated v → packageIn? v p.outputPlace n = none := by
      intro v hv
      rw [packageIn?, Option.bind_eq_none_iff, hn]
      intro text htext
      unfold packageOfEntry?
      dsimp only
      rw [hv text htext, Bool.or_true, if_pos rfl]
    rw [hnone hold, hnone hnew]
  · rw [packageIn?, packageIn?, hlater.fileAt? ?_]
    rintro (⟨c, m, -, heq⟩ | heq)
    · rw [Project.categoryPlace_eq hroot] at heq
      simpa using congrArg List.length heq
    · exact hn (List.singleton_inj.1 (List.append_inj' heq rfl).2)

end

/-- A second pass removes nothing and changes no file but the index of the layer. It succeeds and
leaves the index as it is exactly if the index has the same text for the name that its package has
now as for the one before; so it does if no file by hand was at its place. -/
theorem generate_idempotent (hroot : Path.isAbs p.root = true) (hsep : p.Separate)
    (hs : s.tree.WellFormed)
    (h : (generate p).Gives s () s') (hmodules : ∃ r ∈ s'.report.results, r.modules ≠ []) :
    ∃ parts content, s'.tree.fileAt? p.layerIndexPlace = some content ∧
      indexText? p s'.tree (packageName s.tree s.cwd p.outputDir) parts = some content ∧
      ∀ u, u.tree = s'.tree → ∃ q u', (generate p).Ends u q u' ∧ u'.report.removed = [] ∧
        (∀ y, y ≠ p.layerIndexPlace → u'.tree.get? y = s'.tree.get? y) ∧
        (q = .ok () ∧ u'.tree = s'.tree ↔
          indexText? p s'.tree (packageName s'.tree s'.cwd p.outputDir) parts = some content) ∧
        (p.IndexGenerated s.tree → p.IndexGenerated s'.tree → q = .ok () ∧ u'.tree = s'.tree) := by
  obtain ⟨hcomplete, hlater, parts, content, hindex, htext, hagain⟩ :=
    generate_again hroot hsep hs h hmodules
  refine ⟨parts, content, Tree.fileAt?_eq_some.2 hindex, htext, fun u hu => ?_⟩
  obtain ⟨q, u', hends, hremoved, hdone⟩ := hagain u hu
  have hsame := hdone.same_iff hcomplete.wf hindex
  refine ⟨q, u', hends, hremoved, hdone.get?_other, hsame, fun hold hnew => hsame.2 ?_⟩
  rw [packageName_kept hroot hs hcomplete hlater hold hnew _ s.cwd]
  exact htext

/-- The small project after a pass. -/
def smallSession : Session := ((generate smallProject).runIn { tree := smallTree }).2

theorem separate_smallProject : smallProject.Separate := by
  refine ⟨fun c =>
    by cases c <;> decide +kernel, fun dir hdir w hw hout => ?_, fun dir hdir name => ?_⟩
  · cases hdir
    exact absurd ((hout.below rfl).trans hw) (by decide +kernel)
  · cases hdir
    cases name <;> decide +kernel

set_option maxRecDepth 100000 in
theorem modules_small : ∃ r ∈ smallSession.report.results, r.modules ≠ [] := by decide +kernel

set_option maxRecDepth 100000 in
theorem indexGenerated_small :
    smallProject.IndexGenerated smallTree ∧ smallProject.IndexGenerated smallSession.tree := by
  have hdecide : ∀ t : Tree,
      (t.fileAt? smallProject.layerIndexPlace).all (Bytes.hasPart generatedHeader) = true →
      smallProject.IndexGenerated t := by
    intro t h text htext
    rwa [htext] at h
  exact ⟨hdecide _ (by decide +kernel), hdecide _ (by decide +kernel)⟩

/-- A second pass over the small project changes nothing. -/
theorem generate_idempotent_small :
    Path.isAbs smallProject.root = true ∧ smallProject.Separate ∧ smallTree.WellFormed ∧
      (generate smallProject).Gives { tree := smallTree } () smallSession ∧
      (∃ r ∈ smallSession.report.results, r.modules ≠ []) ∧
      ∃ u, (generate smallProject).Gives smallSession () u ∧ u.report.removed = [] ∧
        u.tree = smallSession.tree := by
  have hpass := Task.gives_run_iff.2 generate_small
  obtain ⟨parts, content, -, -, hagain⟩ :=
    generate_idempotent rfl separate_smallProject wellFormed_smallTree hpass modules_small
  obtain ⟨q, u, hends, hremoved, -, -, hsame⟩ := hagain smallSession rfl
  obtain ⟨rfl, htree⟩ := hsame indexGenerated_small.1 indexGenerated_small.2
  exact ⟨rfl, separate_smallProject, wellFormed_smallTree, hpass, modules_small, u, hends, hremoved,
    htree⟩

/-- The small project with a file by hand at the place of the index, and an index that names its
package. -/
def storeTree : Tree :=
  (smallTree.set ["p", "t", "index.go.tmpl"]
    (.file (generatedHeader ++ Bytes.ofString "\n\npackage \x7b\x7b.Package\x7d\x7d\n"))).set
      ["p", "db", "db.go"] (.file "package store\n")

/-- The project after a pass. -/
def storeSession : Session := ((generate smallProject).runIn { tree := storeTree }).2

set_option maxRecDepth 100000 in
/-- The first pass takes the name of the package from the file by hand and puts the index in its
place, so that the second pass does not find it any more and calls the package by its directory. -/
theorem generate_renames_package :
    smallProject.Separate ∧ storeTree.WellFormed ∧
      (generate smallProject).Gives { tree := storeTree } () storeSession ∧
      (∃ r ∈ storeSession.report.results, r.modules ≠ []) ∧
      (generate smallProject).Gives storeSession () ((generate smallProject).runIn storeSession).2 ∧
      storeSession.tree.fileAt? smallProject.layerIndexPlace =
        some (generatedHeader ++ Bytes.ofString "\n\npackage store\n") ∧
      ((generate smallProject).runIn storeSession).2.tree.fileAt? smallProject.layerIndexPlace =
        some (generatedHeader ++ Bytes.ofString "\n\npackage db\n") := by
  refine ⟨separate_smallProject, ?_⟩
  rw [storeSession, Task.gives_run_iff, Task.gives_run_iff]
  decide +kernel

end AccessLayer.Layer
