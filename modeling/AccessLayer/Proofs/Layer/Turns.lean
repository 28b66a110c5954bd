import AccessLayer.Proofs.Layer.Writing

/-!
# The turn of a package

A package is made and checked as a whole before the first of its files is touched. Then its stale
files are removed, and at last its files are written. So a turn either leaves every file alone, or
stops at a failure of the file system, or leaves the directory as the package wants it.

* `generateCategory_eq`: the three steps of a turn.
* `Artifact.Lists`: which modules an index lists.
* `Settled`: the directory of a package after its turn.
* `ends_generateCategory`: what a turn does, however it ends.
-/

namespace AccessLayer.Layer

open Bytes
open AccessLayer.Tree (Edited Change Nameable)

variable {p : Project} {c : Category} {strict : Prop} {s s' : Session} {r : CategoryResult}
  {files : List Module}

/-! ## Making and checking -/

def CategoryResult.index (p : Project) (r : CategoryResult) : CategoryIndex :=
  { category := r.category, sourceDir := r.category.sourceDir p.settings, names := r.names }

/-- Renders the index of a package and checks its files. -/
def checkPackage (p : Project) (r : CategoryResult) : Task (List Module) := do
  let content ← render p (.categoryIndex r.category) (r.index p).artifact
  match firstDuplicate? (packageFiles p r content) with
  | some (name, first, second) => throw (.duplicate r.category name first second)
  | none => return packageFiles p r content

/-- Makes the modules of a package and gives the files that are to be written. -/
def prepare (p : Project) (c : Category) : Task (CategoryResult × List Module) := do
  let r ← makeCategory p c
  Task.report fun x => { x with results := x.results ++ [r] }
  if r.isEmpty then return (r, []) else return (r, ← checkPackage p r)

/-- A package with modules is checked, then pruned, then written. -/
theorem writeCategory_eq (p : Project) (r : CategoryResult) :
    writeCategory p r = (do
      let files ← checkPackage p r
      prune p r
      writeAll p files) := by
  unfold checkPackage
  rw [bind_assoc]
  show (render p (.categoryIndex r.category) (r.index p).artifact >>= fun content =>
    match firstDuplicate? (packageFiles p r content) with
    | some (name, first, second) => throw (.duplicate r.category name first second)
    | none => do
      prune p r
      writeAll p (packageFiles p r content)
      pure ()) = _
  refine bind_congr fun content => ?_
  cases firstDuplicate? (packageFiles p r content) with
  | some _ => rfl
  | none =>
    rw [pure_bind]
    exact bind_congr fun _ => bind_pure _

/-- A turn makes and checks, then removes, then writes. -/
theorem generateCategory_eq (p : Project) (c : Category) :
    generateCategory p c = (do
      let x ← prepare p c
      prune p x.1
      writeAll p x.2) := by
  unfold generateCategory prepare
  rw [bind_assoc]
  refine bind_congr fun r => ?_
  rw [bind_assoc]
  refine bind_congr fun _ => ?_
  split_ifs with hempty
  · rw [pure_bind]
    exact (bind_pure (prune p r)).symm
  · rw [writeCategory_eq, bind_assoc]
    exact bind_congr fun files => (pure_bind _ _).symm

/-- The modules of a package come from the inputs in a tree. -/
def MadeFrom (p : Project) (t : Tree) (c : Category) (r : CategoryResult) : Prop :=
  ∃ s s' : Session, Sound p s ∧ SameInputs p t s.tree ∧ (makeCategory p c).Gives s r s'

/-- What is ready to be written: modules, and files if there are modules. -/
structure Prepared (p : Project) (c : Category) (t : Tree) (r : CategoryResult)
    (files : List Module) : Prop where
  made : Made p c r
  origin : MadeFrom p t c r
  files : r.modules = [] ∧ files = [] ∨ r.modules ≠ [] ∧ ∃ content,
    rendered? p t (r.index p).artifact = some content ∧ files = packageFiles p r content

/-- Making and checking changes no file, and the report gets at most one result more. -/
theorem ends_prepare {q : Except Failure (CategoryResult × List Module)}
    (h : (prepare p c).Ends s q s') :
    s'.tree = s.tree ∧ ∃ new, s'.report = { s.report with results := s.report.results ++ new } ∧
      ∀ x, q = .ok x → new = [x.1] := by
  obtain ⟨e, hfail, rfl⟩ | ⟨r, s₁, hmake, hend⟩ := Task.ends_bind.1 h
  · have hkeeps := quiet_makeCategory p c hfail
    exact ⟨hkeeps.tree, [], by rw [hkeeps.report, List.append_nil], nofun⟩
  have hkeeps := quiet_makeCategory p c hmake
  rw [Task.ends_report_bind] at hend
  split_ifs at hend
  · obtain ⟨rfl, rfl⟩ := Task.ends_pure.1 hend
    refine ⟨hkeeps.tree, [r], by rw [hkeeps.report], fun x hx => ?_⟩
    cases hx
    rfl
  · have hquiet : (checkPackage p r).Quiet := by
      refine (quiet_render p _ _).bind fun content => ?_
      cases firstDuplicate? (packageFiles p r content) with
      | some _ => exact Task.Quiet.throw _
      | none => exact Task.Quiet.pure _
    obtain ⟨e, hfail, rfl⟩ | ⟨files, s₂, hcheck, hend⟩ := Task.ends_bind.1 hend
    · have hkeeps' := hquiet hfail
      exact ⟨hkeeps'.tree.trans hkeeps.tree, [r], by rw [hkeeps'.report, hkeeps.report], nofun⟩
    · have hkeeps' := hquiet hcheck
      obtain ⟨rfl, rfl⟩ := Task.ends_pure.1 hend
      refine ⟨hkeeps'.tree.trans hkeeps.tree,
        [r], by rw [hkeeps'.report, hkeeps.report], fun x hx => ?_⟩
      cases hx
      rfl

section

variable (hroot : Path.isAbs p.root = true)
include hroot

theorem agrees_checkPackage (r : CategoryResult) :
    Agrees p strict (checkPackage p r) fun _ => True := by
  refine (agrees_render hroot _ _).bind fun content _ => ?_
  cases firstDuplicate? (packageFiles p r content) with
  | some _ => exact Agrees.throw _
  | none => exact Agrees.pure trivial

theorem agrees_prepare (c : Category) : Agrees p strict (prepare p c) fun _ => True := by
  refine (agrees_makeCategory hroot c).bind fun r _ => ?_
  refine (Agrees.report _).bind fun _ _ => ?_
  split_ifs
  · exact Agrees.pure trivial
  · exact (agrees_checkPackage hroot r).bind fun files _ => Agrees.pure trivial

theorem gives_checkPackage (hs : Sound p s) (h : (checkPackage p r).Gives s files s') :
    ∃ content, rendered? p s.tree (r.index p).artifact = some content ∧
      files = packageFiles p r content := by
  obtain ⟨content, s₁, hrender, hend⟩ := Task.gives_bind.1 h
  refine ⟨content, gives_render hroot hs hrender, ?_⟩
  cases hdup : firstDuplicate? (packageFiles p r content) with
  | some _ =>
    simp only [hdup] at hend
    exact absurd hend Task.not_gives_throw
  | none =>
    simp only [hdup] at hend
    exact (Task.gives_pure.1 hend).1

theorem gives_prepare (hs : Sound p s) (h : (prepare p c).Gives s (r, files) s') :
    Prepared p c s.tree r files ∧ Sound p s' := by
  have hsound := ((agrees_prepare hroot c).single hs h).2
  obtain ⟨r', s₁, hmake, hend⟩ := Task.gives_bind.1 h
  obtain ⟨hmade, hs₁⟩ := (agrees_makeCategory hroot c).single hs hmake
  have htree := (quiet_makeCategory p c hmake).tree
  rw [Task.Gives, Task.ends_report_bind] at hend
  split_ifs at hend with hempty
  · obtain ⟨heq, -⟩ := Task.gives_pure.1 hend
    cases heq
    exact ⟨⟨hmade, ⟨s, s₁, hs, SameInputs.refl p s.tree, hmake⟩,
      .inl ⟨List.isEmpty_iff.1 hempty, rfl⟩⟩, hsound⟩
  · obtain ⟨files', s₂, hcheck, hend⟩ := Task.gives_bind.1 hend
    obtain ⟨heq, -⟩ := Task.gives_pure.1 hend
    cases heq
    have hs₁' : Sound p { s₁ with report := { s₁.report with results := s₁.report.results ++
      [r] } } :=
      hs₁.of_eq rfl rfl
    obtain ⟨content, hcontent, rfl⟩ := gives_checkPackage hroot hs₁' hcheck
    have hne : r.modules ≠ [] := fun h => hempty (List.isEmpty_iff.2 h)
    exact ⟨⟨hmade, ⟨s, s₁, hs, SameInputs.refl p s.tree, hmake⟩,
      .inr ⟨hne, content, htree ▸ hcontent, rfl⟩⟩, hsound⟩

/-! ## Files of a package -/

theorem inPackage_join (c : Category) (stem content : Bytes) {name : Bytes}
    (hname : IsGoFile name) :
    InPackage p c { name := stem, path := Path.join [p.categoryDir c, name], content } ∧
      Module.file { name := stem, path := Path.join [p.categoryDir c, name], content } = name := by
  have hfile : Module.file { name := stem, path := Path.join [p.categoryDir c, name], content } =
    name :=
    Project.base_categoryFile hroot c hname.1
  refine ⟨⟨hfile.symm ▸ hname, ?_⟩, hfile⟩
  rw [hfile]
  exact Project.join_categoryDir hroot c hname.1

namespace Made

variable {r : CategoryResult} (h : Made p c r) {m : Module}
include h

omit hroot in
theorem isGoFile (hm : m ∈ r.modules) : IsGoFile (m.name ++ goExtension) := by
  obtain ⟨name, hname⟩ := h.stem m hm
  rw [hname]
  exact isGoFile_append (Naming.separator_notMem_fileStem name)

omit hroot in
theorem name_ne (hm : m ∈ r.modules) : m.name ++ goExtension ≠ indexFile := by
  obtain ⟨name, hname⟩ := h.stem m hm
  rw [hname, indexFile, ne_eq, List.append_left_inj]
  exact Naming.fileStem_ne_indexStem name

theorem inPackage (hm : m ∈ r.modules) : InPackage p c m ∧ m.file = m.name ++ goExtension := by
  have hjoin := inPackage_join hroot c m.name m.content (h.isGoFile hm)
  rw [← h.path m hm] at hjoin
  exact hjoin

theorem mem_packageFiles {content : Bytes} (hm : m ∈ packageFiles p r content) :
    m ∈ r.modules ∨ m.file = indexFile ∧ m.content = content ∧ InPackage p c m := by
  rw [packageFiles, List.mem_append, List.mem_singleton, CategoryResult.sorted, mem_sortBy,
    h.category] at hm
  obtain hm | rfl := hm
  · exact .inl hm
  · obtain ⟨hin, hfile⟩ := inPackage_join hroot c indexFile content isGoFile_indexFile
    exact .inr ⟨hfile, rfl, hin⟩

theorem inPackage_files {content : Bytes} : ∀ m ∈ packageFiles p r content, InPackage p c m := by
  intro m hm
  obtain hm | ⟨-, -, hin⟩ := h.mem_packageFiles hroot hm
  · exact (h.inPackage hroot hm).1
  · exact hin

theorem nodup_files (content : Bytes) : ((packageFiles p r content).map (·.file)).Nodup := by
  have hmodules : (r.modules.map (·.file)).Nodup := by
    have hmap : r.modules.map (·.file) = (r.modules.map (·.name)).map (· ++ goExtension) := by
      rw [List.map_map]
      exact List.map_congr_left fun m hm => (h.inPackage hroot hm).2
    rw [hmap]
    exact h.nodup.map fun a b hab => List.append_cancel_right hab
  have hsorted : (r.sorted.map (·.file)).Nodup := ((perm_sortBy _ _).map _).nodup_iff.2 hmodules
  have hindex := (inPackage_join hroot c indexFile content isGoFile_indexFile).2
  rw [packageFiles, List.map_append, List.map_singleton, h.category, hindex, List.nodup_append]
  refine ⟨hsorted, List.nodup_singleton _, ?_⟩
  intro a ha b hb hab
  obtain ⟨m, hm, rfl⟩ := List.mem_map.1 ha
  rw [CategoryResult.sorted, mem_sortBy] at hm
  rw [List.mem_singleton] at hb
  rw [(h.inPackage hroot hm).2, hb] at hab
  exact h.name_ne hm hab

end Made

end

/-- A name that a package makes a file for. -/
def CategoryResult.Owns (r : CategoryResult) (name : Bytes) : Prop :=
  (∃ m ∈ r.modules, name = m.name ++ goExtension) ∨ name = indexFile ∧ r.modules ≠ []

theorem Made.mem_keptFiles (hroot : Path.isAbs p.root) (h : Made p c r) (n : Bytes) :
    n ∈ keptFiles r ↔ r.Owns n := by
  have hfiles : n ∈ (r.modules.map fun m => Path.base m.path) ↔
      ∃ m ∈ r.modules, n = m.name ++ goExtension := by
    rw [List.mem_map]
    refine exists_congr fun m => and_congr_right fun hm => ?_
    rw [← (h.inPackage hroot hm).2, eq_comm]
    rfl
  rw [keptFiles, List.mem_append, hfiles, CategoryResult.Owns, or_comm]
  refine or_congr_right ?_
  split_ifs with hempty
  · simp [List.isEmpty_iff.1 hempty]
  · have hne : r.modules ≠ [] := fun h => hempty (List.isEmpty_iff.2 h)
    simp [hne]

/-! ## A settled package -/

/-- The definitions are not in a directory of the access layer that holds a package. -/
def Project.Apart (p : Project) : Prop := ∀ c d, p.sourcePlace c ≠ p.categoryPlace d

/-- The lines of a list literal: each of `names` quoted, on a line of its own. -/
def listLines (names : List Bytes) : List Bytes :=
  ofString "[]string\x7b" :: names.map (fun n => "\t" ++ quote n ++ ",") ++
    [ofString "\x7d"]

/-- An index that is rendered from `a` lists `names` and nothing else: the built-in template
declares them once, as `Generated_Modules`, and a template of the project has them as `.Names`. -/
structure Artifact.Lists (a : Artifact) (names : List Bytes) : Prop where
  template : a.template = .categoryIndex
  declares : a.source.Declares (.variable_ "Generated_Modules" (listLines names))
  once : a.source.declared.count (ofString "Generated_Modules") = 1
  data : (Template.Datum.record .context a.data).field? "Names" = some (.texts names)

theorem CategoryIndex.lists (x : CategoryIndex) : x.artifact.Lists x.names := by
  refine ⟨rfl, ?_, ?_, rfl⟩
  · have hline : ∀ n : Bytes, indent (quote n ++ ",") = "\t" ++ quote n ++ "," := by
      have hcomma : ofString "," ≠ [] := by decide
      intro n
      rw [indent, if_neg (by simp [hcomma])]
      rfl
    have hlines : textList x.names = listLines x.names := by simp only [textList, listLines, hline]
    rw [← hlines]
    exact Source.declares (s := x.source) List.mem_cons_self
  · obtain ⟨c, sourceDir, names⟩ := x
    cases c <;> rfl

/-- What the directory of a package looks like after its turn, from what it was before. -/
structure Settled (p : Project) (c : Category) (r : CategoryResult) (t u : Tree) : Prop where
  category : r.category = c
  made : p.Apart → MadeFrom p t c r
  /-- The names in the index are those of the modules, in strict order. -/
  names : Bytes.Ascending r.names ∧ ∀ stem, stem ∈ r.names ↔ ∃ m ∈ r.modules, m.name = stem
  paths : ∀ m ∈ r.modules, m.path = Path.join [p.categoryDir c, m.name ++ goExtension] ∧
    m.path ≠ Path.join [p.categoryDir c, indexFile]
  modules : ∀ m ∈ r.modules, u.get? (p.categoryPlace c ++ [m.name ++ goExtension]) =
    some (.file m.content)
  index : r.modules ≠ [] → ∃ content, rendered? p t (r.index p).artifact = some content ∧
    u.get? (p.categoryPlace c ++ [indexFile]) = some (.file content)
  lists : (r.index p).artifact.Lists r.names
  stale : ∀ n, ¬ r.Owns n → IsGenerated n (t.get? (p.categoryPlace c ++ [n])) →
    u.get? (p.categoryPlace c ++ [n]) = none
  rest : ∀ n, ¬ r.Owns n → ¬ IsGenerated n (t.get? (p.categoryPlace c ++ [n])) →
    u.get? (p.categoryPlace c ++ [n]) = t.get? (p.categoryPlace c ++ [n])
  /-- A package without modules leaves no empty directory. -/
  emptied : r.modules = [] → (∀ n, u.get? (p.categoryPlace c ++ [n]) = none) →
    u.get? (p.categoryPlace c) = none

theorem Made.names (r : CategoryResult) (h : Made p c r) :
    Bytes.Ascending r.names ∧ ∀ stem, stem ∈ r.names ↔ ∃ m ∈ r.modules, m.name = stem := by
  refine ⟨ascending_sortBy Module.name h.nodup, fun stem => ?_⟩
  rw [CategoryResult.names, List.mem_map]
  exact exists_congr fun m => and_congr_left fun _ => mem_sortBy _

/-- A turn that gets to its end settles its package. -/
theorem settled_of_worked (hroot : Path.isAbs p.root) {gone : List Bytes}
    (hprep : Prepared p c s.tree r files) (hworked : Worked p c gone files s s')
    (hgone : ∀ n, n ∈ gone ↔ n ∉ keptFiles r ∧
      IsGenerated n (s.tree.get? (p.categoryPlace c ++ [n])))
    (hempty : r.isEmpty → (∀ n, s'.tree.get? (p.categoryPlace c ++ [n]) = none) →
      s'.tree.get? (p.categoryPlace c) = none) :
    Settled p c r s.tree s'.tree := by
  have hmade := hprep.made
  -- a file that was written is there
  have hput : ∀ m ∈ files, s'.tree.get? (p.categoryPlace c ++ [m.file]) =
      some (.file m.content) := by
    intro m hm
    rw [hworked.edited.child]
    obtain ⟨-, rfl⟩ | ⟨-, content, -, rfl⟩ := hprep.files
    · cases hm
    · exact putAll_of_mem (hmade.nodup_files hroot content) hm _
  have hmodules : ∀ m ∈ r.modules, m ∈ files := by
    intro m hm
    obtain ⟨hnil, -⟩ | ⟨-, content, -, rfl⟩ := hprep.files
    · rw [hnil] at hm
      cases hm
    · rw [packageFiles, CategoryResult.sorted, List.mem_append, mem_sortBy]
      exact .inl hm
  -- other names are cleared or left alone
  have hother : ∀ n, ¬ r.Owns n → s'.tree.get? (p.categoryPlace c ++ [n]) =
      Change.clear gone n (s.tree.get? (p.categoryPlace c ++ [n])) := by
    intro n hn
    rw [hworked.edited.child]
    obtain ⟨-, heq⟩ | ⟨m, hm, rfl, -⟩ :=
      putAll_cases files n (Change.clear gone n (s.tree.get? (p.categoryPlace c ++ [n])))
    · exact heq
    · obtain ⟨-, rfl⟩ | ⟨hne, content, -, rfl⟩ := hprep.files
      · cases hm
      · obtain hm | ⟨hfile, -⟩ := hmade.mem_packageFiles hroot hm
        · exact absurd (.inl ⟨m, hm, (hmade.inPackage hroot hm).2⟩) hn
        · exact absurd (.inr ⟨hfile, hne⟩) hn
  refine ⟨hmade.category, fun _ => hprep.origin, hmade.names, fun m hm => ?_, fun m hm => ?_,
    fun hne => ?_,
    (r.index p).lists, fun n hn hgen => ?_, fun n hn hgen => ?_, fun hnil =>
      hempty (List.isEmpty_iff.2 hnil)⟩
  · refine ⟨hmade.path m hm, fun heq => hmade.name_ne hm ?_⟩
    have hbase := congrArg Path.base heq
    rwa [Project.base_categoryFile hroot c isGoFile_indexFile.1, ← Module.file,
      (hmade.inPackage hroot hm).2] at hbase
  · rw [← (hmade.inPackage hroot hm).2]
    exact hput m (hmodules m hm)
  · obtain ⟨hnil, -⟩ | ⟨-, content, hcontent, rfl⟩ := hprep.files
    · exact absurd hnil hne
    · have hindex := (inPackage_join hroot c indexFile content isGoFile_indexFile).2
      have hfile := hput _ (List.mem_append_right _ (List.mem_singleton_self _))
      rw [hmade.category, hindex] at hfile
      exact ⟨content, hcontent, hfile⟩
  · rw [hother n hn, Change.clear,
      if_pos ((hgone n).2 ⟨fun h => hn ((hmade.mem_keptFiles hroot n).1 h), hgen⟩)]
  · rw [hother n hn, Change.clear, if_neg fun h => hgen ((hgone n).1 h).2]

/-! ## A turn -/

/-- What a turn does after making and checking. -/
structure Wrote (p : Project) (c : Category) (r : CategoryResult) (files : List Module)
    (gone : List Bytes) (done : List Module) (s s' : Session) : Prop where
  worked : Worked p c gone done s s'
  gone : ∀ n ∈ gone, n ∉ keptFiles r ∧ IsGenerated n (s.tree.get? (p.categoryPlace c ++ [n]))
  done : done <+: files

/-- A turn fails and leaves every file alone, or it works on its package; then only the file system
can stop it, and it settles the package if it gets to its end. -/
theorem ends_generateCategory (hroot : Path.isAbs p.root) (hs : Sound p s) {q : Except Failure Unit}
    (h : (generateCategory p c).Ends s q s') :
    (∃ e new, q = .error e ∧ s'.tree = s.tree ∧
      s'.report = { s.report with results := s.report.results ++ new }) ∨
      ∃ r files gone done s₁, (prepare p c).Gives s (r, files) s₁ ∧ Prepared p c s.tree r files ∧
        Wrote p c r files gone done s₁ s' ∧
        (q = .ok () ∧ done = files ∧ Settled p c r s.tree s'.tree ∨ ∃ e, q = .error e ∧
          IsFileFailure e) := by
  rw [generateCategory_eq] at h
  obtain ⟨e, hfail, rfl⟩ | ⟨⟨r, files⟩, s₁, hprepare, hend⟩ := Task.ends_bind.1 h
  · obtain ⟨htree, new, hreport, -⟩ := ends_prepare hfail
    exact .inl ⟨e, new, rfl, htree, hreport⟩
  obtain ⟨hprep, hs₁⟩ := gives_prepare hroot hs hprepare
  have htree := (ends_prepare hprepare).1
  have hfiles : ∀ m ∈ files, InPackage p c m := by
    obtain ⟨-, rfl⟩ | ⟨-, content, -, rfl⟩ := hprep.files
    · nofun
    · exact hprep.made.inPackage_files hroot
  obtain ⟨e, hfail, rfl⟩ | ⟨⟨⟩, s₂, hprune, hwrite⟩ := Task.ends_bind.1 hend
  · obtain ⟨gone, hworked, hgone, ⟨hok, -⟩ | hfile⟩ :=
      ends_prune hroot hs₁.tree hprep.made.category hfail
    · cases hok
    · exact .inr ⟨r, files, gone, [], s₁, hprepare, hprep, ⟨hworked, hgone, List.nil_prefix⟩,
        .inr hfile⟩
  · obtain ⟨gone, hworked, hgone, ⟨-, hall, hempty⟩ | ⟨e, he, -⟩⟩ :=
      ends_prune hroot hs₁.tree hprep.made.category hprune
    · obtain ⟨done, hdone, hworked', hend⟩ := ends_writeAll hroot hfiles hworked hwrite
      refine .inr ⟨r, files, gone, done, s₁, hprepare, hprep, ⟨hworked', hgone, hdone⟩, ?_⟩
      obtain ⟨rfl, rfl⟩ | hfile := hend
      · refine .inl ⟨rfl, rfl, ?_⟩
        rw [← htree] at hprep ⊢
        refine settled_of_worked hroot hprep hworked' (fun n => ⟨hgone n, fun h => hall n h.1 h.2⟩)
          fun hnil => ?_
        -- without modules there is nothing to write
        obtain ⟨-, rfl⟩ | ⟨hne, -⟩ := hprep.files
        · obtain ⟨-, rfl⟩ := Task.ends_pure.1 hwrite
          exact hempty hnil
        · exact absurd (List.isEmpty_iff.1 hnil) hne
      · exact .inr hfile
    · cases he

end AccessLayer.Layer
