import AccessLayer.Proofs.Files.Changes
import AccessLayer.Proofs.Layer.Making

/-!
# Writing a package

The files of a package are written after its stale ones were removed. Every step changes one name in
the directory of the package, so that what was done up to any step is known by the names that were
cleared and the files that were written, also when a step fails.

* `Worked`: what was done in the directory of a package.
* `ends_prune`, `ends_writeAll`: what the two steps do, however they end.
* `IsGenerated`, `Allowed`: the files that may be removed, and what may become of a name.
-/

namespace AccessLayer.Layer

open AccessLayer.Tree (Edited Change Nameable)

variable {n : Bytes} {m : Module} {x : Place}

def IsFileFailure (e : Failure) : Prop := ∃ task error, e = .file task error

/-! ## Names of a package -/

/-- A generated file: a Go file that starts with the header. -/
def IsGenerated (name : Bytes) (e : Option Entry) : Prop :=
  ∃ content, e = some (.file content) ∧ Path.ext name = goExtension ∧ generatedHeader <+: content

/-- What may become of the entry of a name: it stays, a Go file is written, or a generated file is
removed. -/
def Allowed (name : Bytes) (before after : Option Entry) : Prop :=
  after = before ∨ (IsGoFile name ∧ ∃ content, after = some (.file content)) ∨
    IsGenerated name before ∧ after = none

theorem isStale_iff {kept : List Bytes} {e : Entry} :
    isStale kept (n, e) ↔ n ∉ kept ∧ IsGenerated n (some e) := by
  cases e with
  | dir => simp [isStale, IsGenerated]
  | file content =>
    simp only [isStale, IsGenerated, Bool.and_eq_true, beq_iff_eq, Bool.not_eq_true',
      Option.some.injEq,
      Entry.file.injEq, exists_eq_left', List.isPrefixOf_iff_prefix, ← Bool.not_eq_true,
        List.contains_iff_mem]
    tauto

theorem IsGenerated.isGoFile {t : Tree} (ht : t.WellFormed)
    (h : IsGenerated n (t.get? (x ++ [n]))) : IsGoFile n := by
  obtain ⟨content, hget, hext, -⟩ := h
  exact ⟨ht.proper_of_get? hget n (by simp), hext ▸ Path.ext_suffix n⟩

def Module.file (m : Module) : Bytes := Path.base m.path

/-- The module is a Go file in the directory of a package. -/
structure InPackage (p : Project) (c : Category) (m : Module) : Prop where
  go : IsGoFile m.file
  path : m.path = Path.ofNames true (p.categoryPlace c ++ [m.file])

def packageFiles (p : Project) (r : CategoryResult) (index : Bytes) : List Module :=
  r.sorted ++ [⟨indexFile, Path.join [p.categoryDir r.category, indexFile], index⟩]

/-- Files are written one after the other. -/
def putAll (files : List Module) : Change :=
  fun n e => files.foldl (fun e m => Change.put m.file m.content n e) e

theorem putAll_concat (files : List Module) (m : Module) (n : Bytes) (e : Option Entry) :
    putAll (files ++ [m]) n e = Change.put m.file m.content n (putAll files n e) := by
  rw [putAll, List.foldl_append]
  rfl

theorem putAll_cases (files : List Module) (n : Bytes) (e : Option Entry) :
    (∀ m ∈ files, m.file ≠ n) ∧ putAll files n e = e ∨
      ∃ m ∈ files, m.file = n ∧ putAll files n e = some (.file m.content) := by
  induction files using List.reverseRecOn with
  | nil => exact .inl ⟨nofun, rfl⟩
  | append_singleton files m ih =>
    rw [putAll_concat, Change.put]
    split_ifs with hn
    · exact .inr ⟨m, by simp, hn.symm, rfl⟩
    · obtain ⟨hother, heq⟩ | ⟨k, hk, hkn, heq⟩ := ih
      · refine .inl ⟨fun k hk => ?_, heq⟩
        rw [List.mem_append, List.mem_singleton] at hk
        obtain hk | rfl := hk
        · exact hother k hk
        · exact Ne.symm hn
      · exact .inr ⟨k, by simp [hk], hkn, heq⟩

/-- The file of a name is the one that was written, if the names are different. -/
theorem putAll_of_mem {files : List Module} (hnodup : (files.map (·.file)).Nodup) (hm : m ∈ files)
    (e : Option Entry) : putAll files m.file e = some (.file m.content) := by
  obtain ⟨hother, -⟩ | ⟨k, hk, hkm, heq⟩ := putAll_cases files m.file e
  · exact absurd rfl (hother m hm)
  · rw [heq, List.inj_on_of_nodup_map hnodup hk hm hkm]

/-! ## What was done -/

/-- In the directory of a package the names `gone` were cleared and then `files` were written, and
the report says so. -/
structure Worked (p : Project) (c : Category) (gone : List Bytes) (files : List Module)
    (s s' : Session) : Prop where
  edited : Edited (p.categoryPlace c) (fun n e => putAll files n (Change.clear gone n e)) s.tree
    s'.tree
  templates : s'.templates = s.templates
  report : s'.report = { s.report with
    written := s.report.written ++ files.map fun m => p.relative m.path
    removed := s.report.removed ++ gone.map fun n => p.relative (Path.join [p.categoryDir c, n]) }
  nameable : ∀ m ∈ files, Nameable (p.categoryPlace c ++ [m.file])

variable {p : Project} {c : Category} {gone : List Bytes} {files : List Module} {s s₁ s' : Session}

namespace Worked

theorem refl (p : Project) (c : Category) (hs : s.tree.WellFormed) : Worked p c [] [] s s := by
  refine ⟨(Edited.refl _ hs).congr fun n e => ?_, rfl, by simp, nofun⟩
  simp [Change.keep, Change.clear, putAll]

/-- A step that changes no file of the package. -/
theorem keep (h : Worked p c gone files s s₁)
    (hedit : Edited (p.categoryPlace c) .keep s₁.tree s'.tree)
    (htemplates : s'.templates = s₁.templates) (hreport : s'.report = s₁.report) :
    Worked p c gone files s s' :=
  ⟨(h.edited.trans hedit).congr fun _ _ => rfl, htemplates.trans h.templates,
    hreport.trans h.report, h.nameable⟩

/-- A step that writes one file more. -/
theorem put (h : Worked p c gone files s s₁)
    (hedit : Edited (p.categoryPlace c) (.put m.file m.content) s₁.tree s'.tree)
    (htemplates : s'.templates = s₁.templates)
    (hreport : s'.report = { s₁.report with written := s₁.report.written ++ [p.relative m.path] })
    (hname : Nameable (p.categoryPlace c ++ [m.file])) : Worked p c gone (files ++ [m]) s s' := by
  refine ⟨(h.edited.trans hedit).congr fun n e => (putAll_concat files m n _).symm,
    htemplates.trans h.templates, ?_, fun k hk => ?_⟩
  · rw [hreport, h.report]
    simp
  · rw [List.mem_append, List.mem_singleton] at hk
    obtain hk | rfl := hk
    · exact h.nameable k hk
    · exact hname

/-- A step that clears one name more. -/
theorem clear (h : Worked p c gone [] s s₁) {name : Bytes}
    (hedit : Edited (p.categoryPlace c) (.clear [name]) s₁.tree s'.tree)
    (htemplates : s'.templates = s₁.templates)
    (hreport : s'.report = { s₁.report with
      removed := s₁.report.removed ++ [p.relative (Path.join [p.categoryDir c, name])] }) :
    Worked p c (gone ++ [name]) [] s s' := by
  refine ⟨(h.edited.trans hedit).congr fun n e => ?_, htemplates.trans h.templates, ?_, nofun⟩
  · simp only [putAll, List.foldl_nil, Change.clear, List.mem_append, List.mem_singleton]
    split_ifs <;> simp_all
  · rw [hreport, h.report]
    simp

theorem allowed (h : Worked p c gone files s s')
    (hgone : ∀ n ∈ gone, IsGenerated n (s.tree.get? (p.categoryPlace c ++ [n])))
    (hfiles : ∀ m ∈ files, IsGoFile m.file) (n : Bytes) :
    Allowed n (s.tree.get? (p.categoryPlace c ++ [n]))
      (s'.tree.get? (p.categoryPlace c ++ [n])) := by
  rw [h.edited.child]
  obtain ⟨-, heq⟩ | ⟨m, hm, rfl, heq⟩ :=
    putAll_cases files n (Change.clear gone n (s.tree.get? (p.categoryPlace c ++ [n])))
  · rw [heq, Change.clear]
    split_ifs with hn
    · exact .inr (.inr ⟨hgone n hn, rfl⟩)
    · exact .inl rfl
  · exact .inr (.inl ⟨hfiles m hm, m.content, heq⟩)

end Worked

/-! ## Basic steps in a directory -/

section

variable {x : Place} (hs : s.tree.WellFormed) (hx : ∀ n ∈ x, Path.Proper n) {n : Bytes}
  (hn : Path.Proper n) {r : Except Failure Unit}
include hs hx hn

theorem ends_writeFile_ofNames {content : Bytes}
    (h : (Task.writeFile (Path.ofNames true (x ++ [n])) content).Ends s r s') :
    s' = { s with tree := s'.tree } ∧
      ((∃ e, r = .error e ∧ IsFileFailure e) ∧ Edited x .keep s.tree s'.tree ∨
        r = .ok () ∧ Edited x (.put n content) s.tree s'.tree ∧ Nameable (x ++ [n])) := by
  obtain ⟨t, fault, hmake, hend⟩ := Task.ends_writeFile h
  rw [Path.dir_ofNames hx hn, Path.names_ofNames hx] at hmake
  obtain ⟨hwf, hgrown, -⟩ := Tree.makeDirsFrom_spec hs (Tree.get?_nil _) nofun hx hmake
  have hedit := Tree.edited_grown hwf hgrown
  rw [List.nil_append] at hedit
  obtain ⟨⟨task, e, rfl⟩, rfl⟩ | ⟨-, rfl, t', hwrite, rfl⟩ := hend
  · exact ⟨rfl, .inl ⟨⟨_, rfl, task, e, rfl⟩, hedit⟩⟩
  · obtain ⟨-, hname, rfl, hwf'⟩ := Tree.writeFile_ok hwf s.cwd (Path.proper_concat hx hn) hwrite
    exact ⟨rfl, .inr ⟨rfl, (hedit.trans (Tree.edited_set hwf')).congr fun _ _ => rfl, hname⟩⟩

/-- Writing a file of the output: it is there afterwards, or only directories on its way are. -/
theorem ends_writeOutput {content : Bytes}
    (h : (writeOutput p (Path.ofNames true (x ++ [n])) content).Ends s r s') :
    s'.templates = s.templates ∧ s'.report = s.report ∧
      ((∃ e, r = .error e ∧ IsFileFailure e) ∧ Edited x .keep s.tree s'.tree ∨
        r = .ok () ∧ Edited x (.put n content) s.tree s'.tree ∧ Nameable (x ++ [n])) := by
  have hwrite : ∃ s₁, (Task.writeFile (Path.ofNames true (x ++ [n])) content).Ends s r s₁ ∧
      s'.tree = s₁.tree ∧
      s'.templates = s₁.templates ∧ s'.report = s₁.report := by
    obtain ⟨e, hfail, rfl⟩ | ⟨⟨⟩, s₁, hwrite, hend⟩ := Task.ends_bind.1 h
    · exact ⟨s', hfail, rfl, rfl, rfl⟩
    · split_ifs at hend
      · obtain ⟨rfl, rfl⟩ := Task.ends_modify.1 hend
        exact ⟨s₁, hwrite, rfl, rfl, rfl⟩
      · obtain ⟨rfl, rfl⟩ := Task.ends_pure.1 hend
        exact ⟨s', hwrite, rfl, rfl, rfl⟩
  obtain ⟨s₁, hwrite, htree, htemplates, hreport⟩ := hwrite
  obtain ⟨hs₁, hend⟩ := ends_writeFile_ofNames hs hx hn hwrite
  rw [hs₁] at htemplates hreport
  exact ⟨htemplates, hreport, htree.symm ▸ hend⟩

theorem ends_removeFile_ofNames (h : (Task.removeFile (Path.ofNames true (x ++ [n]))).Ends s r s') :
    s' = { s with tree := s'.tree } ∧
      ((∃ e, r = .error e ∧ IsFileFailure e) ∧ s'.tree = s.tree ∨
        r = .ok () ∧ Edited x (.clear [n]) s.tree s'.tree) := by
  obtain ⟨⟨task, e, rfl⟩, rfl⟩ | ⟨rfl, t, hremove, rfl⟩ := Task.ends_removeFile h
  · exact ⟨rfl, .inl ⟨⟨_, rfl, task, e, rfl⟩, rfl⟩⟩
  · obtain ⟨rfl, hwf, -⟩ := Tree.remove_ok hs s.cwd (Path.proper_concat hx hn) (by simp) hremove
    exact ⟨rfl, .inr ⟨rfl, Tree.edited_erase hwf⟩⟩

end

/-! ## Writing all files -/

def writeRound (p : Project) (file : Module) : Task (ForInStep PUnit) := do
  writeOutput p file.path file.content
  Task.report fun x => { x with written := x.written ++ [p.relative file.path] }
  pure (ForInStep.yield PUnit.unit)

section

variable (hroot : Path.isAbs p.root = true)
include hroot

theorem ends_writeRound (hm : InPackage p c m)
    {r : Except Failure (ForInStep PUnit)} (hw : Worked p c gone files s s₁)
    (h : (writeRound p m).Ends s₁ r s') :
    r = .ok (.yield ⟨⟩) ∧ Worked p c gone (files ++ [m]) s s' ∨
      (∃ e, r = .error e ∧ IsFileFailure e) ∧ Worked p c gone files s s' := by
  have hx := Project.proper_categoryPlace hroot c
  rw [writeRound, hm.path] at h
  obtain ⟨e, hfail, rfl⟩ | ⟨⟨⟩, s₂, hwrite, hnote⟩ := Task.ends_bind.1 h
  · obtain ⟨htemplates, hreport, ⟨⟨e', he, hfile⟩, hedit⟩ | ⟨hok, -⟩⟩ :=
      ends_writeOutput hw.edited.wf hx hm.go.1 hfail
    · cases he
      exact .inr ⟨⟨e, rfl, hfile⟩, hw.keep hedit htemplates hreport⟩
    · cases hok
  · rw [Task.ends_report_bind, Task.ends_pure, ← hm.path] at hnote
    obtain ⟨rfl, rfl⟩ := hnote
    obtain ⟨htemplates, hreport, ⟨⟨e, he, -⟩, -⟩ | ⟨-, hedit, hname⟩⟩ :=
      ends_writeOutput hw.edited.wf hx hm.go.1 hwrite
    · cases he
    · exact .inl ⟨rfl, hw.put hedit htemplates (by rw [hreport]) hname⟩

def writeAll (p : Project) (files : List Module) : Task PUnit :=
  forIn files PUnit.unit fun file _ => writeRound p file

/-- The first files of a list are written, and all of them if nothing fails. -/
theorem ends_writeAll {r : Except Failure PUnit}
    (hfiles : ∀ m ∈ files, InPackage p c m) (hw : Worked p c gone [] s s₁)
    (h : (writeAll p files).Ends s₁ r s') : ∃ done, done <+: files ∧ Worked p c gone done s s' ∧
      (r = .ok ⟨⟩ ∧ done = files ∨ ∃ e, r = .error e ∧ IsFileFailure e) :=
  Task.ends_forIn_rounds (fun done s₂ => Worked p c gone done s s₂) IsFileFailure
    (fun _ hm _ _ _ _ hdone hround => ends_writeRound hroot (hfiles _ hm) hdone hround) hw h

/-! ## Removing stale files -/

/-- Removes a file and reports it. -/
def removeRound (p : Project) (dir name : Bytes) : Task (ForInStep PUnit) := do
  let path := Path.join [dir, name]
  Task.removeFile path
  Task.report fun x => { x with removed := x.removed ++ [p.relative path] }
  if p.verbose = true then do
    Task.print .progress ("Removed " ++ p.relative path ++ "\n")
    pure (ForInStep.yield PUnit.unit)
  else pure (ForInStep.yield PUnit.unit)

theorem ends_removeRound (hn : Path.Proper n)
    {r : Except Failure (ForInStep PUnit)} (hw : Worked p c gone [] s s₁)
    (h : (removeRound p (p.categoryDir c) n).Ends s₁ r s') :
    r = .ok (.yield ⟨⟩) ∧ Worked p c (gone ++ [n]) [] s s' ∨
      (∃ e, r = .error e ∧ IsFileFailure e) ∧ Worked p c gone [] s s' := by
  have hx := Project.proper_categoryPlace hroot c
  obtain ⟨e, hfail, rfl⟩ | ⟨⟨⟩, s₂, hremove, hnote⟩ := Task.ends_bind.1 h
  · rw [Project.join_categoryDir hroot c hn] at hfail
    obtain ⟨hs', ⟨⟨e', he, hfile⟩, htree⟩ | ⟨hok, -⟩⟩ :=
      ends_removeFile_ofNames hw.edited.wf hx hn hfail
    · cases he
      have hsame := Edited.refl (p.categoryPlace c) hw.edited.wf
      exact .inr ⟨⟨e, rfl, hfile⟩, hw.keep (htree.symm ▸ hsame) (by rw [hs']) (by rw [hs'])⟩
    · cases hok
  · have hrest : r = .ok (.yield ⟨⟩) ∧ s'.tree = s₂.tree ∧ s'.templates = s₂.templates ∧
        s'.report = { s₂.report with
          removed := s₂.report.removed ++ [p.relative (Path.join [p.categoryDir c, n])] } := by
      rw [Task.ends_report_bind] at hnote
      split_ifs at hnote
      · rw [Task.ends_print_bind, Task.ends_pure] at hnote
        obtain ⟨rfl, rfl⟩ := hnote
        exact ⟨rfl, rfl, rfl, rfl⟩
      · obtain ⟨rfl, rfl⟩ := Task.ends_pure.1 hnote
        exact ⟨rfl, rfl, rfl, rfl⟩
    obtain ⟨rfl, htree, htemplates, hreport⟩ := hrest
    rw [Project.join_categoryDir hroot c hn] at hremove
    obtain ⟨hs₂, ⟨⟨e, he, -⟩, -⟩ | ⟨-, hedit⟩⟩ := ends_removeFile_ofNames hw.edited.wf hx hn hremove
    · cases he
    · rw [hs₂] at htemplates hreport
      exact .inl ⟨rfl, hw.clear (htree ▸ hedit) htemplates hreport⟩

/-- Removes files in order. -/
def removeAll (p : Project) (dir : Bytes) (entries : List (Bytes × Entry)) : Task PUnit :=
  forIn entries PUnit.unit fun entry _ => removeRound p dir entry.1

/-- The first names of a list are cleared, and all of them if nothing fails. -/
theorem ends_removeAll (hs : s.tree.WellFormed) {entries : List (Bytes × Entry)}
    (hentries : ∀ entry ∈ entries, Path.Proper entry.1) {r : Except Failure PUnit}
    (h : (removeAll p (p.categoryDir c) entries).Ends s r s') :
    ∃ done, done <+: entries ∧ Worked p c (done.map (·.1)) [] s s' ∧
      (r = .ok ⟨⟩ ∧ done = entries ∨ ∃ e, r = .error e ∧ IsFileFailure e) := by
  refine Task.ends_forIn_rounds (fun done s₁ => Worked p c (done.map (·.1)) [] s s₁)
    IsFileFailure ?_
    (Worked.refl p c hs) h
  intro entry hentry done s₁ r s₂ hdone hround
  rw [List.map_append]
  exact ends_removeRound hroot (hentries entry hentry) hdone hround

end

/-- A directory without names is removed, and nothing else. -/
theorem ends_removeEmptyDir_ofNames (hs : s.tree.WellFormed) (hx : ∀ n ∈ x, Path.Proper n)
    (hne : x ≠ []) (hname : Nameable x) (hfile : s.tree.fileAt? x = none) {r : Except Failure Unit}
    (h : (Task.removeEmptyDir (Path.ofNames true x)).Ends s r s') :
    r = .ok () ∧ s' = { s with tree := s'.tree } ∧ Edited x .keep s.tree s'.tree ∧
      ((∀ n, s'.tree.get? (x ++ [n]) = none) → s'.tree.get? x = none) := by
  obtain ⟨rfl, ⟨⟨e, hremove⟩, rfl⟩ | ⟨t, hremove, rfl⟩⟩ := Task.ends_removeEmptyDir h
  · refine ⟨rfl, rfl, Edited.refl _ hs, fun hbelow => ?_⟩
    cases hget : s'.tree.get? x with
    | none => rfl
    | some entry =>
      cases entry with
      | file content => simp [Tree.fileAt?, hget] at hfile
      | dir =>
        rw [Tree.remove_emptyDir hs s'.cwd hget hname hbelow] at hremove
        cases hremove
  · obtain ⟨rfl, hwf, -⟩ := Tree.remove_ok hs s.cwd hx hne hremove
    exact ⟨rfl, rfl, Tree.edited_eraseDir hne hwf hfile, fun _ =>
      by rw [Tree.get?_erase _ hne, if_pos rfl]⟩

/-- The names of the stale entries of a directory are those of the generated files that are not
kept. -/
theorem mem_staleNames {t : Tree} {entries : List (Bytes × Entry)} {kept : List Bytes}
    (hmem : ∀ n e, (n, e) ∈ entries ↔ t.get? (x ++ [n]) = some e) :
    n ∈ (entries.filter (isStale kept)).map (·.1) ↔ n ∉ kept ∧
      IsGenerated n (t.get? (x ++ [n])) := by
  constructor
  · intro hn
    obtain ⟨⟨n, e⟩, he, rfl⟩ := List.mem_map.1 hn
    rw [List.mem_filter, hmem, isStale_iff] at he
    exact he.1 ▸ he.2
  · rintro ⟨hkept, hgen⟩
    obtain ⟨content, hget, -⟩ := id hgen
    refine List.mem_map.2 ⟨(n, .file content), ?_, rfl⟩
    rw [List.mem_filter, hmem, isStale_iff]
    exact ⟨hget, hkept, hget ▸ hgen⟩

/-- Stale files are removed, all of them if nothing fails, and then also an empty directory. -/
theorem ends_prune (hroot : Path.isAbs p.root) (hs : s.tree.WellFormed) {res : CategoryResult}
    (hres : res.category = c) {r : Except Failure Unit} (h : (prune p res).Ends s r s') :
    ∃ gone, Worked p c gone [] s s' ∧
      (∀ n ∈ gone, n ∉ keptFiles res ∧ IsGenerated n (s.tree.get? (p.categoryPlace c ++ [n]))) ∧
      (r = .ok () ∧
          (∀ n, n ∉ keptFiles res → IsGenerated n (s.tree.get? (p.categoryPlace c ++ [n])) →
            n ∈ gone) ∧
          (res.isEmpty → (∀ n, s'.tree.get? (p.categoryPlace c ++ [n]) = none) →
            s'.tree.get? (p.categoryPlace c) = none) ∨
        ∃ e, r = .error e ∧ IsFileFailure e) := by
  subst hres
  have hx := Project.proper_categoryPlace hroot res.category
  rw [prune, Project.categoryDir_eq hroot] at h
  obtain ⟨e, hfail, rfl⟩ | ⟨listed, s₁, hlist, hend⟩ := Task.ends_bind.1 h
  · obtain ⟨hfile, rfl⟩ := Task.ends_listDir_error hfail
    exact ⟨[], Worked.refl p _ hs, nofun, .inr ⟨e, rfl, hfile⟩⟩
  obtain ⟨rfl, hplace, -, hmem⟩ := gives_listDir_ofNames hs hx hlist
  cases listed with
  | none =>
    obtain ⟨rfl, rfl⟩ := Task.ends_pure.1 hend
    obtain ⟨-, hnone, -⟩ | ⟨hsome, -⟩ := hplace
    · refine ⟨[], Worked.refl p _ hs, nofun, .inl ⟨rfl, fun n _ hgen => ?_, fun _ _ => hnone⟩⟩
      obtain ⟨content, hget, -⟩ := hgen
      exact absurd ((hmem n _).2 hget) (by simp)
    · cases hsome
  | some entries =>
    obtain ⟨hnone, -⟩ | ⟨-, hdir, hname⟩ := hplace
    · cases hnone
    rw [Option.getD_some] at hmem
    have hproper : ∀ entry ∈ entries.filter (isStale (keptFiles res)), Path.Proper entry.1 :=
      fun entry he => hs.proper_of_get? ((hmem entry.1 entry.2).1 (List.mem_filter.1 he).1) entry.1
        (by simp)
    have hgone : ∀ done, done <+: entries.filter (isStale (keptFiles res)) → ∀ n ∈ done.map (·.1),
        n ∉ keptFiles res ∧ IsGenerated n (s₁.tree.get? (p.categoryPlace res.category ++ [n])) :=
      fun done hdone n hn => (mem_staleNames hmem).1 ((hdone.map (·.1)).subset hn)
    rw [← Project.categoryDir_eq hroot] at hend
    obtain ⟨e, hfail, rfl⟩ | ⟨⟨⟩, s₂, hremove, hend⟩ := Task.ends_bind.1 hend
    · obtain ⟨done, hdone, hworked, ⟨hok, -⟩ | hfile⟩ := ends_removeAll hroot hs hproper hfail
      · cases hok
      · exact ⟨_, hworked, hgone done hdone, .inr hfile⟩
    · obtain ⟨done, hdone, hworked, ⟨-, rfl⟩ | ⟨e, he, -⟩⟩ :=
        ends_removeAll hroot hs hproper hremove
      · have hall : ∀ n, n ∉ keptFiles res →
            IsGenerated n (s₁.tree.get? (p.categoryPlace res.category ++ [n])) →
            n ∈ (entries.filter (isStale (keptFiles res))).map (·.1) :=
          fun n hkept hgen => (mem_staleNames hmem).2 ⟨hkept, hgen⟩
        split_ifs at hend with hempty
        · have hfile : s₂.tree.fileAt? (p.categoryPlace res.category) = none := by
            rw [hworked.edited.fileAt? fun n hn => absurd hn (by simp), Tree.fileAt?, hdir]
          have hne : p.categoryPlace res.category ≠ [] := by simp [Project.categoryPlace_eq hroot]
          rw [Project.categoryDir_eq hroot] at hend
          obtain ⟨rfl, hs', hedit, hlast⟩ :=
            ends_removeEmptyDir_ofNames hworked.edited.wf hx hne hname hfile hend
          exact ⟨_, hworked.keep hedit (by rw [hs']) (by rw [hs']), hgone _ hdone,
            .inl ⟨rfl, hall, fun _ => hlast⟩⟩
        · obtain ⟨rfl, rfl⟩ := Task.ends_pure.1 hend
          exact ⟨_, hworked, hgone _ hdone, .inl ⟨rfl, hall, fun h => absurd h hempty⟩⟩
      · cases he

end AccessLayer.Layer
