import AccessLayer.Proofs.Layer.Passes

/-!
# Turns on their own result

A turn that meets the package it has made finds nothing to remove and writes every file as it is. So
the turns of a second pass leave the tree of the first one as it stands.

* `Complete`: a tree that a pass has left, in which the inputs are found as before.
* `Mirrors`: a session of the second pass, beside the one of the first pass at the same point.
* `generateCategory_again`, `turns_again`: a turn and a run of turns in a complete tree.
-/

namespace AccessLayer.Layer

open AccessLayer.Tree (Edited Change Nameable)

variable {p : Project} {c : Category} {s s₁ s' u : Session} {t : Tree} {r : CategoryResult}

/-! ## Steps that meet their own result -/

/-- Nothing has changed but what is said about files that were written. -/
structure Idle (s s' : Session) : Prop where
  tree : s'.tree = s.tree
  templates : s'.templates = s.templates
  results : s'.report.results = s.report.results
  removed : s'.report.removed = s.report.removed

theorem Idle.refl (s : Session) : Idle s s := ⟨rfl, rfl, rfl, rfl⟩

theorem Idle.trans (h : Idle s s₁) (h' : Idle s₁ s') : Idle s s' :=
  ⟨h'.tree.trans h.tree, h'.templates.trans h.templates, h'.results.trans h.results,
    h'.removed.trans h.removed⟩

/-- A file that is there is written in its place, and no directory has to be made. -/
theorem gives_writeOutput_again {x : Place} {n old : Bytes} (content : Bytes)
    (hs : s.tree.WellFormed)
    (hget : s.tree.get? (x ++ [n]) = some (.file old)) (hname : Nameable (x ++ [n])) :
    ∃ s', (writeOutput p (Path.ofNames true (x ++ [n])) content).Gives s () s' ∧
      s'.tree = s.tree.set (x ++ [n]) (.file content) ∧ s'.templates = s.templates ∧
        s'.report = s.report := by
  have hproper := hs.proper_of_get? hget
  have hx : ∀ m ∈ x, Path.Proper m := fun m hm => hproper m (by simp [hm])
  have hmake : s.tree.makeDirsFrom [] (Path.names (Path.dir (Path.ofNames true (x ++ [n])))) =
      (s.tree, none) := by
    rw [Path.dir_ofNames hx (hproper n (by simp)), Path.names_ofNames hx]
    refine Tree.makeDirsFrom_self (fun w hw => ?_) fun m hm =>
      Tree.nameable_iff.1 hname m (by simp [hm])
    exact hs.get?_above hget (hw.trans (List.prefix_append x [n])) (Tree.ne_concat_of_prefix hw n)
  have hwrite : s.tree.writeFile s.cwd (Path.ofNames true (x ++ [n])) content =
      .ok (s.tree.set (x ++ [n]) (.file content)) := by
    simp only [Tree.writeFile, hs.locate_of_get? s.cwd hget hname, hget]
  have hgives := Task.gives_writeFile hmake hwrite
  rw [writeOutput]
  split_ifs
  · exact ⟨{ s with tree := s.tree.set (x ++ [n]) (.file content), printed := _ },
      Task.gives_bind.2 ⟨(), _, hgives, Task.gives_modify.2 rfl⟩, rfl, rfl, rfl⟩
  · exact ⟨{ s with tree := s.tree.set (x ++ [n]) (.file content) },
      Task.gives_bind.2 ⟨(), _, hgives, Task.gives_pure.2 ⟨rfl, rfl⟩⟩, rfl, rfl, rfl⟩

theorem gives_writeAll_again {files : List Module} (hs : s.tree.WellFormed)
    (hfiles : ∀ m ∈ files, InPackage p c m ∧
      s.tree.get? (p.categoryPlace c ++ [m.file]) = some (.file m.content) ∧
      Nameable (p.categoryPlace c ++ [m.file])) :
    ∃ s', (writeAll p files).Gives s ⟨⟩ s' ∧ Idle s s' := by
  induction files generalizing s with
  | nil => exact ⟨s, Task.gives_pure.2 ⟨rfl, rfl⟩, Idle.refl s⟩
  | cons m files ih =>
    obtain ⟨⟨hin, hget, hname⟩, hfiles⟩ := List.forall_mem_cons.1 hfiles
    obtain ⟨s₁, hwrite, htree, htemplates, hreport⟩ :=
      gives_writeOutput_again (p := p) m.content hs hget hname
    rw [Tree.set_self hs (by simp) hget] at htree
    have hround : (writeRound p m).Gives s (.yield ⟨⟩)
        { s₁ with report := { s₁.report with written := s₁.report.written ++ [p.relative m.path] }
          } := by
      refine Task.gives_bind.2 ⟨(), s₁, hin.path.symm ▸ hwrite, ?_⟩
      rw [Task.Gives, Task.ends_report_bind, Task.ends_pure]
      exact ⟨rfl, rfl⟩
    have hidle : Idle s { s₁ with report := { s₁.report with written := s₁.report.written ++
      [p.relative m.path] } } :=
      ⟨htree, htemplates, by rw [hreport], by rw [hreport]⟩
    obtain ⟨s', hrest, hidle'⟩ := ih (hidle.tree ▸ hs) (by rw [hidle.tree]; exact hfiles)
    refine ⟨s', ?_, hidle.trans hidle'⟩
    rw [writeAll, List.forIn_cons]
    exact Task.gives_bind.2 ⟨_, _, hround, hrest⟩

/-- Nothing is removed from a directory without stale files that is not empty, or is not there. -/
theorem gives_prune_again (hroot : Path.isAbs p.root) (hs : s.tree.WellFormed) (hc : r.category = c)
    (hname : Nameable (p.categoryPlace c)) (hopen : s.tree.Open (p.categoryPlace c))
    (hfile : s.tree.fileAt? (p.categoryPlace c) = none)
    (hstale : ∀ n, n ∉ keptFiles r → ¬ IsGenerated n (s.tree.get? (p.categoryPlace c ++ [n])))
    (hempty : r.isEmpty → (∀ n, s.tree.get? (p.categoryPlace c ++ [n]) = none) →
      s.tree.get? (p.categoryPlace c) = none) :
    (prune p r).Gives s () s := by
  subst hc
  have hproper := Project.proper_categoryPlace hroot r.category
  have hne : p.categoryPlace r.category ≠ [] := by simp [Project.categoryPlace_eq hroot]
  rw [prune, Project.categoryDir_eq hroot]
  cases hget : s.tree.get? (p.categoryPlace r.category) with
  | none =>
    obtain ⟨e, he, hfault⟩ := (Tree.notFound_of_open s.cwd hproper hget hname hopen).2
    exact Task.gives_bind.2 ⟨none, s, Task.gives_listDir.2 ⟨rfl, .inr ⟨e, he, hfault, rfl⟩⟩,
      Task.gives_pure.2 ⟨rfl, rfl⟩⟩
  | some entry =>
    cases entry with
    | file content => simp [Tree.fileAt?, hget] at hfile
    | dir =>
      have hlist := Tree.readDir_of_get? hs s.cwd hget hname
      refine Task.gives_bind.2 ⟨some _, s, Task.gives_listDir.2 ⟨rfl, .inl ⟨_, hlist, rfl⟩⟩, ?_⟩
      have hnone : (s.tree.children (p.categoryPlace r.category)).filter (isStale (keptFiles r)) =
          [] := by
        rw [List.filter_eq_nil_iff]
        rintro ⟨n, e⟩ hmem hbad
        obtain ⟨hkept, hgen⟩ := isStale_iff.1 hbad
        exact hstale n hkept (hs.mem_children.1 hmem ▸ hgen)
      simp only [hnone, List.forIn_nil, pure_bind]
      split_ifs with hnil
      · refine Task.gives_modify.2 ?_
        cases hremove : s.tree.remove s.cwd (Path.ofNames true (p.categoryPlace r.category)) with
        | error e => rfl
        | ok t =>
          have hbelow := (Tree.remove_ok hs s.cwd hproper hne hremove).2.2
          rw [hempty hnil hbelow] at hget
          cases hget
      · exact Task.gives_pure.2 ⟨rfl, rfl⟩

/-! ## Complete trees -/

/-- The tree of a pass that has got to its end: the access layer is there, and the inputs are found
as at any time of the pass. -/
structure Complete (p : Project) (t : Tree) : Prop where
  wf : t.WellFormed
  output : t.get? p.outputPlace = some .dir
  nameable : Nameable p.outputPlace
  definition : ∀ c n, ¬ p.IsOutputFile (p.sourcePlace c ++ [n])
  ready : ∀ v, v.WellFormed → Later p p.IsOutputFile v t → Ready p v t

namespace Complete

variable (hroot : Path.isAbs p.root = true) (h : Complete p t) (c : Category)
include hroot h

theorem nameable_categoryPlace : Nameable (p.categoryPlace c) := by
  rw [Project.categoryPlace_eq hroot, Tree.nameable_iff, List.forall_mem_append,
    List.forall_mem_singleton]
  exact ⟨Tree.nameable_iff.1 h.nameable, by cases c <;> decide⟩

theorem open_categoryPlace : t.Open (p.categoryPlace c) := by
  rw [Project.categoryPlace_eq hroot]
  refine Tree.open_of_above fun w hw hne => ?_
  have hup := (List.prefix_concat_iff.1 hw).resolve_left hne
  by_cases heq : w = p.outputPlace
  · exact heq ▸ h.output
  · exact h.wf.get?_above h.output hup heq

end Complete

/-- The second session is at the same point of a second pass as the first one of the first pass, and
nothing has been done in it to the tree that the first pass left. -/
structure Mirrors (t : Tree) (s u : Session) : Prop where
  tree : u.tree = t
  templates : u.templates = s.templates
  results : u.report.results = s.report.results
  removed : u.report.removed = []

theorem Mirrors.alike (h : Mirrors t s u) (ht : Complete p t) (hs : Sound p s)
    (hlater : Later p p.IsOutputFile s.tree t) : Alike p True s u := by
  have hlater' : Later p p.IsOutputFile s.tree u.tree := h.tree.symm ▸ hlater
  refine ⟨hs, hs.later hlater' (fun _ => id) (h.tree.symm ▸ ht.wf) h.templates,
    hlater'.sameInputs (fun _ => id) ht.definition, fun _ => ⟨?_, h.templates⟩⟩
  rw [h.tree]
  exact ht.ready s.tree hs.tree hlater

section

variable (hroot : Path.isAbs p.root = true)
include hroot

/-- The directory of a package is no file when its turn succeeds. -/
theorem fileAt?_categoryPlace (hs : Sound p s)
    (h : (generateCategory p c).Gives s () s') : s.tree.fileAt? (p.categoryPlace c) = none := by
  rw [generateCategory_eq] at h
  obtain ⟨⟨r, files⟩, s₁, hprepare, hend⟩ := Task.gives_bind.1 h
  obtain ⟨⟨⟩, s₂, hprune, -⟩ := Task.gives_bind.1 hend
  obtain ⟨hprep, hs₁⟩ := gives_prepare hroot hs hprepare
  dsimp only at hprune
  rw [prune, hprep.made.category, Project.categoryDir_eq hroot] at hprune
  obtain ⟨listed, s₃, hlist, -⟩ := Task.gives_bind.1 hprune
  obtain ⟨-, hplace, -⟩ :=
    gives_listDir_ofNames hs₁.tree (Project.proper_categoryPlace hroot c) hlist
  rw [← (ends_prepare hprepare).1, Tree.fileAt?]
  obtain ⟨-, hnone, -⟩ | ⟨-, hdir, -⟩ := hplace
  · rw [hnone]
  · rw [hdir]

/-- The directory of a package is no output file. -/
theorem not_isOutputFile_categoryPlace (c : Category) :
    ¬ p.IsOutputFile (p.categoryPlace c) := by
  rw [Project.categoryPlace_eq hroot]
  exact fun h => h.isGoFile.ne (by cases c <;> decide) rfl

/-- In a settled package no file is stale. -/
theorem Settled.not_stale {v : Tree} (hmade : Made p c r) (h : Settled p c r v t)
    (n : Bytes) (hn : n ∉ keptFiles r) : ¬ IsGenerated n (t.get? (p.categoryPlace c ++ [n])) := by
  intro hgen
  have hown : ¬ r.Owns n := fun h => hn ((hmade.mem_keptFiles hroot n).2 h)
  by_cases hbefore : IsGenerated n (v.get? (p.categoryPlace c ++ [n]))
  · obtain ⟨content, hget, -⟩ := hgen
    rw [h.stale n hown hbefore] at hget
    cases hget
  · rw [h.rest n hown hbefore] at hgen
    exact hbefore hgen

/-- In a settled package every file is there. -/
theorem Settled.get?_files {files : List Module} {v : Tree}
    (hprep : Prepared p c v r files) (h : Settled p c r v t) :
    ∀ m ∈ files, t.get? (p.categoryPlace c ++ [m.file]) = some (.file m.content) := by
  intro m hm
  obtain ⟨-, rfl⟩ | ⟨hne, content, hcontent, rfl⟩ := hprep.files
  · cases hm
  · obtain hm | ⟨hfile, rfl, -⟩ := hprep.made.mem_packageFiles hroot hm
    · rw [(hprep.made.inPackage hroot hm).2]
      exact h.modules m hm
    · obtain ⟨text, htext, hget⟩ := h.index hne
      rw [hcontent, Option.some.injEq] at htext
      rw [hfile, hget, htext]

/-! ## Turns in a complete tree -/

variable (ht : Complete p t) (hs : Sound p s)
include ht hs

/-- A turn in a complete tree makes the package again and leaves the tree as it is. -/
theorem generateCategory_again (hturn : (generateCategory p c).Gives s () s')
    (hlater : Later p p.IsOutputFile s'.tree t) (hsame : SamePackage p c s'.tree t)
    (hu : Mirrors t s u) : ∃ u', (generateCategory p c).Gives u () u' ∧ Mirrors t s' u' := by
  have hfile := fileAt?_categoryPlace hroot hs hturn
  obtain ⟨e, new, he, -⟩ | ⟨r, made, gone, files, s₁, hprepare, hprep, hwrote, hend⟩ :=
    ends_generateCategory hroot hs hturn
  · cases he
  obtain ⟨-, rfl, hsettled⟩ | ⟨e, he, -⟩ := hend
  swap
  · cases he
  obtain ⟨htree, new, hreport, hnew⟩ := ends_prepare hprepare
  cases hnew _ rfl
  have hs₁ := (gives_prepare hroot hs hprepare).2
  have hfrom : Later p p.IsOutputFile s.tree t := by
    rw [← htree]
    exact ((hwrote.later hroot hprep hs₁.tree).mono fun _ => .inl).trans hlater
  have hsettled' : Settled p c r s.tree t :=
    hsettled.extend (fun _ _ => rfl) (Later.refl _ _ _) hsame
  -- the second pass makes the same package
  obtain ⟨u₁, hprepare', halike⟩ := (agrees_prepare hroot c).follows (hu.alike ht hs hfrom) hprepare
  obtain ⟨htree', new', hreport', hnew'⟩ := ends_prepare hprepare'
  cases hnew' _ rfl
  have hu₁ : u₁.tree = t := htree'.trans hu.tree
  -- and finds nothing to remove
  have hprune : (prune p r).Gives u₁ () u₁ := by
    refine gives_prune_again hroot (hu₁.symm ▸ ht.wf) hsettled.category
      (ht.nameable_categoryPlace hroot c)
      (hu₁.symm ▸ ht.open_categoryPlace hroot c) ?_ ?_ ?_
    · rw [hu₁, hfrom.fileAt? (not_isOutputFile_categoryPlace hroot c), hfile]
    · rw [hu₁]
      exact hsettled'.not_stale hroot hprep.made
    · rw [hu₁]
      exact fun hnil => hsettled'.emptied (List.isEmpty_iff.1 hnil)
  -- and writes every file as it is
  have hfiles : ∀ m ∈ files, InPackage p c m ∧
      u₁.tree.get? (p.categoryPlace c ++ [m.file]) = some (.file m.content) ∧
      Nameable (p.categoryPlace c ++ [m.file]) := by
    intro m hm
    refine ⟨?_, hu₁.symm ▸ hsettled'.get?_files hroot hprep m hm, hwrote.worked.nameable m hm⟩
    obtain ⟨-, rfl⟩ | ⟨-, content, -, rfl⟩ := hprep.files
    · cases hm
    · exact hprep.made.inPackage_files hroot m hm
  obtain ⟨u', hwrite, hidle⟩ := gives_writeAll_again (hu₁.symm ▸ ht.wf) hfiles
  refine ⟨u', ?_, hidle.tree.trans hu₁, ?_, ?_, ?_⟩
  · rw [generateCategory_eq]
    exact Task.gives_bind.2 ⟨(r, files), u₁, hprepare', Task.gives_bind.2 ⟨(), u₁, hprune, hwrite⟩⟩
  · rw [hidle.templates, (halike.ready trivial).2, hwrote.worked.templates]
  · rw [hidle.results, hreport', hwrote.worked.report, hreport, hu.results]
  · rw [hidle.removed, hreport', hu.removed]

theorem turns_again {cs : List Category} (hcs : cs.Nodup) (hturns : (turns p cs).Gives s ⟨⟩ s')
    (hlater : Later p p.IsOutputFile s'.tree t) (hsame : ∀ c, SamePackage p c s'.tree t)
    (hu : Mirrors t s u) : ∃ u', (turns p cs).Gives u ⟨⟩ u' ∧ Mirrors t s' u' := by
  induction cs generalizing s u with
  | nil =>
    obtain ⟨-, rfl⟩ := Task.gives_pure.1 hturns
    exact ⟨u, Task.gives_pure.2 ⟨rfl, rfl⟩, hu⟩
  | cons c cs ih =>
    obtain ⟨hc, hcs⟩ := List.nodup_cons.1 hcs
    obtain ⟨s₁, hturn, hrest⟩ := gives_turns_cons.1 hturns
    have hs₁ := ((Progress.refl hs).turn hroot List.not_mem_nil hturn).sound
    have hprogress := progress_of_turns hroot hcs hs₁ hrest
    obtain ⟨u₁, hturn', hu₁⟩ := generateCategory_again hroot ht hs hturn
      ((hprogress.touched.later.mono fun _ => .inl).trans hlater)
        ((hprogress.untouched c hc).trans (hsame c)) hu
    obtain ⟨u', hrest', hu'⟩ := ih hs₁ hcs hrest hu₁
    exact ⟨u', gives_turns_cons.2 ⟨u₁, hturn', hrest'⟩, hu'⟩

end

/-- A package with modules has a directory after the turns. -/
theorem get?_categoryPlace_of_turns (hroot : Path.isAbs p.root) (hs : Sound p s)
    {cs : List Category}
    (hcs : cs.Nodup) (hturns : (turns p cs).Gives s ⟨⟩ s') (hr : r ∈ s'.report.results)
    (hmodules : r.modules ≠ []) :
    r ∈ s.report.results ∨ s'.tree.get? (p.categoryPlace r.category) = some .dir := by
  induction cs generalizing s with
  | nil =>
    obtain ⟨-, rfl⟩ := Task.gives_pure.1 hturns
    exact .inl hr
  | cons c cs ih =>
    obtain ⟨hc, hcs⟩ := List.nodup_cons.1 hcs
    obtain ⟨s₁, hturn, hrest⟩ := gives_turns_cons.1 hturns
    have hs₁ := ((Progress.refl hs).turn hroot List.not_mem_nil hturn).sound
    have hprogress := progress_of_turns hroot hcs hs₁ hrest
    obtain hr | hdir := ih hs₁ hcs hrest
    swap
    · exact .inr hdir
    -- the result is an old one, or the one of this turn
    obtain ⟨e, new, he, -⟩ | ⟨r', made, gone, files, s₂, hprepare, -, hwrote, hend⟩ :=
      ends_generateCategory hroot hs hturn
    · cases he
    obtain ⟨-, new, hreport, hnew⟩ := ends_prepare hprepare
    cases hnew _ rfl
    rw [hwrote.worked.report, hreport, List.mem_append, List.mem_singleton] at hr
    obtain hr | rfl := hr
    · exact .inl hr
    obtain ⟨-, rfl, hsettled⟩ | ⟨e, he, -⟩ := hend
    · obtain ⟨m, hm⟩ := List.exists_mem_of_ne_nil _ hmodules
      have hget := hsettled.modules m hm
      rw [← (hprogress.untouched c hc).child] at hget
      rw [hsettled.category]
      exact .inr (hprogress.sound.tree.parent_get? hget)
    · cases he

end AccessLayer.Layer
