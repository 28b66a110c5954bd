import AccessLayer.Proofs.Layer.Turns

/-!
# Passes

A pass is one turn for each package and a last step for the index of the layer. Turns keep to their
own directories, so that a package is settled from its turn on and untouched until then, and nothing
that a turn writes is an input of a later one.

* `Later`: a tree at a later time of a pass.
* `Progress`: what the turns that are done have made of a tree.
* `ends_finish`: the last step of a pass.
-/

namespace AccessLayer.Layer

open AccessLayer.Tree (Edited Change Nameable)

variable {p : Project} {c : Category} {s s₁ s' : Session} {t u v : Tree} {out : Place → Prop}
  {q : Except Failure Unit} {cs : List Category}

/-! ## Trees in the course of a pass -/

/-- A Go file in the directory of a package. -/
def Project.IsPackageFile (p : Project) (y : Place) : Prop :=
  ∃ c n, IsGoFile n ∧ y = p.categoryPlace c ++ [n]

/-- A file that a pass may write. -/
def Project.IsOutputFile (p : Project) (y : Place) : Prop :=
  p.IsPackageFile y ∨ y = p.layerIndexPlace

/-- At a later time of a pass: only the entries of some files have changed, and there may be
directories more or less on the way to packages. -/
def Later (p : Project) (out : Place → Prop) (t u : Tree) : Prop :=
  ∀ y, u.get? y = t.get? y ∨ out y ∨
    (∃ c, y <+: p.categoryPlace c) ∧ t.fileAt? y = none ∧ u.fileAt? y = none

namespace Later

theorem refl (p : Project) (out : Place → Prop) (t : Tree) : Later p out t t := fun _ => .inl rfl

theorem trans (h : Later p out t u) (h' : Later p out u v) : Later p out t v := by
  intro y
  obtain hsame | hout | ⟨hup, ht, hu⟩ := h y
  · rw [← hsame, Tree.fileAt?_congr hsame.symm]
    exact h' y
  · exact .inr (.inl hout)
  · obtain hsame' | hout | ⟨-, -, hv⟩ := h' y
    · exact .inr (.inr ⟨hup, ht, (Tree.fileAt?_congr hsame').trans hu⟩)
    · exact .inr (.inl hout)
    · exact .inr (.inr ⟨hup, ht, hv⟩)

theorem mono {out' : Place → Prop} (h : Later p out t u) (hout : ∀ y, out y → out' y) :
    Later p out' t u :=
  fun y => (h y).imp_right (Or.imp_left (hout y))

theorem fileAt? (h : Later p out t u) {y : Place} (hy : ¬ out y) : u.fileAt? y = t.fileAt? y := by
  obtain hsame | hout | ⟨-, ht, hu⟩ := h y
  · exact Tree.fileAt?_congr hsame
  · exact absurd hout hy
  · rw [ht, hu]

end Later

/-- The last name of an output file is the one of a Go file. -/
theorem Project.IsOutputFile.isGoFile {x : Place} {n : Bytes} (h : p.IsOutputFile (x ++ [n])) :
    IsGoFile n := by
  obtain ⟨c, m, hm, heq⟩ | heq := h
  · obtain ⟨-, hname⟩ := List.append_inj' heq rfl
    cases hname
    exact hm
  · obtain ⟨-, hname⟩ := List.append_inj' heq rfl
    cases hname
    exact p.isGoFile_layerIndexFile

section

variable (h : Later p out t u) (hout : ∀ y, out y → p.IsOutputFile y)
include h hout

/-- Templates, module files and definitions elsewhere are no output. -/
theorem Later.sameInputs (hdefinition : ∀ c n, ¬ out (p.sourcePlace c ++ [n])) :
    SameInputs p t u := by
  have hother : ∀ {x : Place} {n : Bytes}, goExtension.isSuffixOf n = false → ¬ out (x ++ [n]) :=
    fun hn hx => (hout _ hx).isGoFile.ne hn rfl
  refine ⟨fun c n _ => (h.fileAt? (hdefinition c n)).symm, fun x =>
    (h.fileAt? (hother (by decide))).symm, fun dir _ name => (h.fileAt? (hother ?_)).symm⟩
  cases name <;> decide

/-- What a file is rendered to does not change in a pass. -/
theorem Later.templateIn? (name : TemplateName) : templateIn? p u name = templateIn? p t name := by
  unfold Layer.templateIn?
  cases p.templatesDir? with
  | none => rfl
  | some dir =>
    dsimp only
    rw [h.fileAt? fun hx => (hout _ hx).isGoFile.ne (by cases name <;> decide) rfl]

theorem Later.rendered? (a : Artifact) : rendered? p u a = rendered? p t a := by
  rw [Layer.rendered?, Layer.rendered?, h.templateIn? hout]

end

theorem Sound.later (hs : Sound p s) (h : Later p out s.tree s'.tree)
    (hout : ∀ y, out y → p.IsOutputFile y)
    (hwf : s'.tree.WellFormed) (htemplates : s'.templates = s.templates) : Sound p s' := by
  refine ⟨hwf, fun name loaded hlookup => ?_⟩
  rw [h.templateIn? hout]
  exact hs.templates name loaded (htemplates ▸ hlookup)

theorem Project.Apart.definition (h : p.Apart) (c : Category) (n : Bytes) :
    ¬ p.IsPackageFile (p.sourcePlace c ++ [n]) := by
  rintro ⟨d, m, -, heq⟩
  exact h c d (List.append_inj' heq rfl).1

/-! ## One turn -/

/-- The trees agree on the directory of a package and on what is in it. -/
def SamePackage (p : Project) (c : Category) (t u : Tree) : Prop :=
  ∀ y, p.categoryPlace c <+: y → u.get? y = t.get? y

theorem SamePackage.trans (h : SamePackage p c t u) (h' : SamePackage p c u v) :
    SamePackage p c t v :=
  fun y hy => (h' y hy).trans (h y hy)

theorem SamePackage.child (h : SamePackage p c t u) (n : Bytes) :
    u.get? (p.categoryPlace c ++ [n]) = t.get? (p.categoryPlace c ++ [n]) :=
      h _ (List.prefix_append _ _)

/-- A package stays settled as long as nothing is done in its directory, and it may be seen from any
earlier tree in which nothing had been done there. -/
theorem Settled.extend {r : CategoryResult} {t' u' : Tree} (h : Settled p c r t u)
    (ht : SamePackage p c t' t)
    (hlater : Later p p.IsPackageFile t' t) (hu : SamePackage p c u u') : Settled p c r t' u' := by
  have hrender : ∀ a, Layer.rendered? p t a = Layer.rendered? p t' a := fun a =>
    hlater.rendered? (fun _ => .inl) a
  refine ⟨h.category, fun hapart => ?_, h.names, h.paths, fun m hm => ?_, fun hne => ?_, h.lists,
    fun n hn hgen => ?_, fun n hn hgen => ?_, fun hnil hnone => ?_⟩
  · obtain ⟨s, s', hs, hsame, hmake⟩ := h.made hapart
    exact ⟨s, s', hs, (hlater.sameInputs (fun _ => .inl) hapart.definition).trans hsame, hmake⟩
  · rw [hu.child]
    exact h.modules m hm
  · obtain ⟨content, hcontent, hget⟩ := h.index hne
    exact ⟨content, hrender _ ▸ hcontent, (hu.child _).trans hget⟩
  · rw [hu.child]
    exact h.stale n hn (ht.child n ▸ hgen)
  · rw [hu.child, ← ht.child]
    exact h.rest n hn (ht.child n ▸ hgen)
  · rw [hu _ (List.prefix_refl _)]
    exact h.emptied hnil fun n => (hu.child n).symm.trans (hnone n)

section

variable (hroot : Path.isAbs p.root = true) {r : CategoryResult} {files done : List Module}
  {gone : List Bytes}
include hroot

/-- What is done in one package leaves the others alone. -/
theorem Edited.samePackage {f : Change} (h : Edited (p.categoryPlace c) f t u) {d : Category}
    (hd : d ≠ c) : SamePackage p d t u := by
  intro y hy
  obtain ⟨hbelow, habove⟩ := Project.categoryPlace_prefix hroot hd hy
  exact h.get?_apart hbelow habove

variable (h : Wrote p c r files gone done s s') (hprep : Prepared p c t r files)
include h hprep

theorem Wrote.inPackage : ∀ m ∈ done, InPackage p c m := by
  intro m hm
  have hm := h.done.subset hm
  obtain ⟨-, rfl⟩ | ⟨-, content, -, rfl⟩ := hprep.files
  · cases hm
  · exact hprep.made.inPackage_files hroot m hm

theorem Wrote.allowed (n : Bytes) :
    Allowed n (s.tree.get? (p.categoryPlace c ++ [n])) (s'.tree.get? (p.categoryPlace c ++ [n])) :=
  h.worked.allowed (fun n hn => (h.gone n hn).2) (fun m hm => (h.inPackage hroot hprep m hm).go) n

theorem Wrote.later (hs : s.tree.WellFormed) : Later p p.IsPackageFile s.tree s'.tree := by
  intro y
  by_cases hchild : ∃ n, y = p.categoryPlace c ++ [n]
  · obtain ⟨n, rfl⟩ := hchild
    obtain hsame | ⟨hgo, -⟩ | ⟨hgen, -⟩ := h.allowed hroot hprep n
    · exact .inl hsame
    · exact .inr (.inl ⟨c, n, hgo, rfl⟩)
    · exact .inr (.inl ⟨c, n, hgen.isGoFile hs, rfl⟩)
  · obtain hsame | ⟨hpre, ht, hu⟩ := h.worked.edited.other y fun n hn => hchild ⟨n, hn⟩
    · exact .inl hsame
    · exact .inr (.inr ⟨⟨c, hpre⟩, ht, hu⟩)

/-- The report names files of the package. -/
theorem Wrote.reported (hs : s.tree.WellFormed) {w : Bytes}
    (hw : w ∈ s'.report.written ++ s'.report.removed) :
    w ∈ s.report.written ++ s.report.removed ∨ ∃ n, IsGoFile n ∧
      w = p.relative (Path.join [p.categoryDir c, n]) := by
  rw [h.worked.report] at hw
  simp only [List.mem_append, List.mem_map] at hw ⊢
  obtain (hw | ⟨m, hm, rfl⟩) | hw | ⟨n, hn, rfl⟩ := hw
  · exact .inl (.inl hw)
  · have hin := h.inPackage hroot hprep m hm
    exact .inr ⟨m.file, hin.go, by rw [Project.join_categoryDir hroot c hin.go.1, ← hin.path]⟩
  · exact .inl (.inr hw)
  · exact .inr ⟨n, (h.gone n hn).2.isGoFile hs, rfl⟩

end

/-! ## A run of turns -/

def turns (p : Project) (cs : List Category) : Task PUnit :=
  forIn cs PUnit.unit fun c _ => do
    generateCategory p c
    pure (ForInStep.yield PUnit.unit)

theorem gives_turns_cons :
    (turns p (c :: cs)).Gives s ⟨⟩ s' ↔ ∃ s₁, (generateCategory p c).Gives s () s₁ ∧
      (turns p cs).Gives s₁ ⟨⟩ s' := by
  rw [turns, List.forIn_cons, Task.gives_bind]
  constructor
  · rintro ⟨step, s₁, hbody, hrest⟩
    obtain ⟨⟨⟩, s₂, hturn, hend⟩ := Task.gives_bind.1 hbody
    obtain ⟨rfl, rfl⟩ := Task.gives_pure.1 hend
    exact ⟨_, hturn, hrest⟩
  · rintro ⟨s₁, hturn, hrest⟩
    exact ⟨.yield ⟨⟩, s₁, Task.gives_bind.2 ⟨(), s₁, hturn, Task.gives_pure.2 ⟨rfl, rfl⟩⟩, hrest⟩

theorem gives_turns_concat (h : (turns p cs).Gives s ⟨⟩ s₁)
    (hturn : (generateCategory p c).Gives s₁ () s') : (turns p (cs ++ [c])).Gives s ⟨⟩ s' := by
  induction cs generalizing s with
  | nil =>
    obtain ⟨-, rfl⟩ := Task.gives_pure.1 h
    exact gives_turns_cons.2 ⟨s', hturn, Task.gives_pure.2 ⟨rfl, rfl⟩⟩
  | cons d cs ih =>
    obtain ⟨s₂, hd, hrest⟩ := gives_turns_cons.1 h
    exact gives_turns_cons.2 ⟨s₂, hd, ih hrest⟩

/-- What turns may do to a tree, however they end. -/
structure Touched (p : Project) (t u : Tree) : Prop where
  wf : u.WellFormed
  later : Later p p.IsPackageFile t u
  allowed : ∀ c n, Allowed n (t.get? (p.categoryPlace c ++ [n])) (u.get? (p.categoryPlace c ++ [n]))

/-- What the turns that are done have made of a session. -/
structure Progress (p : Project) (done : List Category) (s s' : Session) : Prop where
  sound : Sound p s'
  touched : Touched p s.tree s'.tree
  untouched : ∀ c, c ∉ done → SamePackage p c s.tree s'.tree
  settled : ∀ c ∈ done, ∃ r ∈ s'.report.results, Settled p c r s.tree s'.tree
  reported : ∀ w ∈ s'.report.written ++ s'.report.removed,
    w ∈ s.report.written ++ s.report.removed ∨
    ∃ c ∈ done, ∃ n, IsGoFile n ∧ w = p.relative (Path.join [p.categoryDir c, n])

namespace Progress

theorem refl (hs : Sound p s) : Progress p [] s s :=
  ⟨hs, ⟨hs.tree, Later.refl _ _ _, fun _ _ => .inl rfl⟩, fun _ _ _ _ => rfl, nofun, fun _ hw =>
    .inl hw⟩

section

variable (hroot : Path.isAbs p.root = true) {done : List Category} (h : Progress p done s s₁)
  (hc : c ∉ done)
include hroot h hc

/-- A turn touches nothing but its package, however it ends. -/
theorem touched_turn (hturn : (generateCategory p c).Ends s₁ q s') : Touched p s.tree s'.tree := by
  obtain ⟨e, new, -, htree, -⟩ | ⟨r, files, gone, written, s₂, hprepare, hprep, hwrote, -⟩ :=
    ends_generateCategory hroot h.sound hturn
  · rw [htree]
    exact h.touched
  obtain ⟨-, hs₂⟩ := gives_prepare hroot h.sound hprepare
  have htree := (ends_prepare hprepare).1
  refine ⟨hwrote.worked.edited.wf,
    h.touched.later.trans (htree ▸ hwrote.later hroot hprep hs₂.tree), fun d n => ?_⟩
  by_cases hdc : d = c
  · subst hdc
    rw [← (h.untouched d hc).child, ← htree]
    exact hwrote.allowed hroot hprep n
  · rw [(Edited.samePackage hroot hwrote.worked.edited hdc).child, htree]
    exact h.touched.allowed d n

/-- A turn that succeeds settles one package more. -/
theorem turn (hturn : (generateCategory p c).Gives s₁ () s') : Progress p (done ++ [c]) s s' := by
  have htouched := h.touched_turn hroot hc hturn
  obtain ⟨e, new, he, -⟩ | ⟨r, files, gone, written, s₂, hprepare, hprep, hwrote, hend⟩ :=
    ends_generateCategory hroot h.sound hturn
  · cases he
  obtain ⟨-, rfl, hsettled⟩ | ⟨e, he, -⟩ := hend
  swap
  · cases he
  obtain ⟨-, hs₂⟩ := gives_prepare hroot h.sound hprepare
  obtain ⟨htree, new, hreport, hnew⟩ := ends_prepare hprepare
  have hresults : s'.report.results = s₁.report.results ++ [r] := by
    rw [hwrote.worked.report, hreport, hnew _ rfl]
  have hothers : ∀ d, d ≠ c → SamePackage p d s₁.tree s'.tree := by
    intro d hd
    rw [← htree]
    exact Edited.samePackage hroot hwrote.worked.edited hd
  refine ⟨hs₂.later (hwrote.later hroot hprep hs₂.tree) (fun _ =>
    .inl) htouched.wf hwrote.worked.templates,
    htouched, fun d hd => ?_, fun d hd => ?_, fun w hw => ?_⟩
  · rw [List.mem_append, List.mem_singleton, not_or] at hd
    exact (h.untouched d hd.1).trans (hothers d hd.2)
  · rw [List.mem_append, List.mem_singleton] at hd
    rw [hresults]
    obtain hd | rfl := hd
    · obtain ⟨r', hr', hsettled'⟩ := h.settled d hd
      have hdc : d ≠ c := fun heq => hc (heq ▸ hd)
      exact ⟨r', by simp [hr'], hsettled'.extend (fun _ _ =>
        rfl) (Later.refl _ _ _) (hothers d hdc)⟩
    · exact ⟨r, by simp, hsettled.extend (h.untouched d hc) h.touched.later fun _ _ => rfl⟩
  · obtain hw | ⟨n, hn, rfl⟩ := hwrote.reported hroot hprep hs₂.tree hw
    · rw [hreport] at hw
      obtain hw | ⟨d, hd, hn⟩ := h.reported w hw
      · exact .inl hw
      · exact .inr ⟨d, by simp [hd], hn⟩
    · exact .inr ⟨c, by simp, n, hn, rfl⟩

end

end Progress

/-- A run of turns gets to its end, or one of them fails. -/
theorem ends_turns (hroot : Path.isAbs p.root) (hcs : cs.Nodup) (hs : Sound p s)
    {q : Except Failure PUnit} (h : (turns p cs).Ends s q s') :
    q = .ok ⟨⟩ ∧ Progress p cs s s' ∨
      ∃ done c rest s₁ e, cs = done ++ c :: rest ∧ c ∉ done ∧ (turns p done).Gives s ⟨⟩ s₁ ∧
        Progress p done s s₁ ∧
        (generateCategory p c).Ends s₁ (.error e) s' ∧ q = .error e := by
  have hfresh : ∀ {done c rest}, cs = done ++ c :: rest → c ∉ done := by
    intro done c rest hcs'
    rw [hcs', List.nodup_append] at hcs
    exact fun hmem => hcs.2.2 c hmem c (by simp) rfl
  have hstep : ∀ done c rest, cs = done ++ c :: rest → ∀ s₁ step s₂,
      (turns p done).Gives s ⟨⟩ s₁ ∧ Progress p done s s₁ →
      (do
        generateCategory p c
        pure (ForInStep.yield PUnit.unit) : Task (ForInStep PUnit)).Gives s₁ step s₂ →
      step = .yield ⟨⟩ ∧ (turns p (done ++ [c])).Gives s ⟨⟩ s₂ ∧ Progress p (done ++ [c]) s s₂ := by
    rintro done c rest hcs' s₁ step s₂ ⟨hrun, hdone⟩ hbody
    obtain ⟨⟨⟩, s₃, hturn, hend⟩ := Task.gives_bind.1 hbody
    obtain ⟨rfl, rfl⟩ := Task.gives_pure.1 hend
    exact ⟨rfl, gives_turns_concat hrun hturn, hdone.turn hroot (hfresh hcs') hturn⟩
  obtain ⟨hok, -, hdone⟩ | ⟨done, c, rest, s₁, e, hcs', ⟨hrun, hdone⟩, hfail, rfl⟩ :=
    Task.ends_forIn (fun done s₁ => (turns p done).Gives s ⟨⟩ s₁ ∧ Progress p done s s₁) hstep
      ⟨Task.gives_pure.2 ⟨rfl, rfl⟩, Progress.refl hs⟩ h
  · exact .inl ⟨hok, hdone⟩
  · refine .inr ⟨done, c, rest, s₁, e, hcs', hfresh hcs', hrun, hdone, ?_, rfl⟩
    obtain ⟨e', hfail, he⟩ | ⟨⟨⟩, s₂, -, hend⟩ := Task.ends_bind.1 hfail
    · cases he
      exact hfail
    · cases (Task.ends_pure.1 hend).1

theorem progress_of_turns (hroot : Path.isAbs p.root) (hcs : cs.Nodup) (hs : Sound p s)
    (h : (turns p cs).Gives s ⟨⟩ s') : Progress p cs s s' := by
  obtain ⟨-, hprogress⟩ | ⟨_, _, _, _, _, -, -, -, -, -, hfail⟩ := ends_turns hroot hcs hs h
  · exact hprogress
  · cases hfail

/-! ## The index of the layer -/

/-- The last step of a pass. -/
def finish (p : Project) : Task Unit := do
  match (← get).report.nonEmpty with
  | [] =>
    Task.log ("no definitions found, leaving " ++ p.relative (layerIndexPath p) ++ " as it is")
  | categories => writeLayerIndex p categories

/-- The session in which a pass starts to work. -/
def Session.fresh (s : Session) : Session := { s with templates := [], report := {} }

/-- A pass ends as its turns and its last step do. -/
theorem ends_generate :
    (generate p).Ends s q s' ↔
      (turns p Category.generationOrder >>= fun _ => finish p).Ends s.fresh q s' :=
  Task.ends_modify_bind

theorem Sound.fresh (hs : s.tree.WellFormed) : Sound p s.fresh := ⟨hs, nofun⟩

/-- The packages with their import paths. -/
def layerParts (p : Project) (categories : List Category) : Task (List (Category × Bytes)) :=
  categories.mapM fun c => do return (c, ← p.categoryImport c)

def layerText (p : Project) (package : Bytes) (categories : List Category) : Task Bytes := do
  let parts ← layerParts p categories
  render p .layerIndex ({ package, parts } : LayerIndex).artifact

theorem writeLayerIndex_eq (p : Project) (categories : List Category) :
    writeLayerIndex p categories = (do
      let s ← get
      let content ← layerText p (packageName s.tree s.cwd p.outputDir) categories
      writeOutput p (layerIndexPath p) content
      Task.report fun x =>
        { x with
          written := x.written ++ [p.relative (layerIndexPath p)], indexWritten := true }) := by
  unfold layerText layerParts
  refine bind_congr fun s => ?_
  rw [bind_assoc]

theorem quiet_layerParts (p : Project) (categories : List Category) :
    (layerParts p categories).Quiet :=
  Task.Quiet.mapM fun _ => (quiet_importPath p _).bind fun _ => Task.Quiet.pure _

theorem quiet_layerText (p : Project) (package : Bytes) (categories : List Category) :
    (layerText p package categories).Quiet :=
  (quiet_layerParts p categories).bind fun _ => quiet_render p _ _

theorem ends_finish_of_modules (h : s.report.nonEmpty ≠ []) :
    (finish p).Ends s q s' ↔ (writeLayerIndex p s.report.nonEmpty).Ends s q s' := by
  rw [finish, Task.ends_get_bind]
  obtain ⟨c, cs, hcs⟩ := List.exists_cons_of_ne_nil h
  rw [hcs]

/-- What the last step of a pass does: nothing without modules, and otherwise it renders the index
and writes it. -/
inductive Finish (p : Project) (s : Session) : Except Failure Unit → Session → Prop where
  | nothing {s' : Session} : s.report.nonEmpty = [] → Keeps s s' → Finish p s (.ok ()) s'
  | unrendered {e : Failure} {s' : Session} : Keeps s s' → Finish p s (.error e) s'
  | unwritten {e : Failure} {s' : Session} : IsFileFailure e →
    Edited p.outputPlace .keep s.tree s'.tree →
      s'.report = s.report → Finish p s (.error e) s'
  | written {content : Bytes} {s₁ s' : Session} : s.report.nonEmpty ≠ [] →
      (layerText p (packageName s.tree s.cwd p.outputDir) s.report.nonEmpty).Gives s content s₁ →
      Edited p.outputPlace (.put p.layerIndexFile content) s.tree s'.tree →
        Nameable p.layerIndexPlace →
      s'.report = { s.report with
        written := s.report.written ++ [p.relative (layerIndexPath p)], indexWritten := true } →
      Finish p s (.ok ()) s'

theorem ends_finish (hroot : Path.isAbs p.root) (hs : s.tree.WellFormed)
    (h : (finish p).Ends s q s') : Finish p s q s' := by
  by_cases hempty : s.report.nonEmpty = []
  · rw [finish, Task.ends_get_bind, hempty] at h
    obtain ⟨rfl, rfl⟩ := Task.ends_modify.1 h
    exact .nothing hempty ⟨rfl, rfl⟩
  rw [ends_finish_of_modules hempty, writeLayerIndex_eq, Task.ends_get_bind] at h
  obtain ⟨e, hfail, rfl⟩ | ⟨content, s₁, htext, hend⟩ := Task.ends_bind.1 h
  · exact .unrendered (quiet_layerText p _ _ hfail)
  have hkeeps := quiet_layerText p _ _ htext
  have hwf : s₁.tree.WellFormed := hkeeps.tree.symm ▸ hs
  have hplace : ∀ n ∈ p.outputPlace, Path.Proper n := Project.proper_place hroot _
  have hgo := p.isGoFile_layerIndexFile.1
  rw [Project.layerIndexPath_eq hroot] at hend
  obtain ⟨e, hfail, rfl⟩ | ⟨⟨⟩, s₂, hout, hnote⟩ := Task.ends_bind.1 hend
  · obtain ⟨-, hreport, ⟨⟨e', he, hfile⟩, hedit⟩ | ⟨hok, -⟩⟩ :=
      ends_writeOutput hwf hplace hgo hfail
    · cases he
      exact .unwritten hfile (hkeeps.tree ▸ hedit) (hreport.trans hkeeps.report)
    · cases hok
  · rw [← Project.layerIndexPath_eq hroot] at hnote
    obtain ⟨rfl, rfl⟩ := Task.ends_modify.1 hnote
    obtain ⟨-, hreport, ⟨⟨e, he, -⟩, -⟩ | ⟨-, hedit, hname⟩⟩ := ends_writeOutput hwf hplace hgo hout
    · cases he
    · exact .written hempty htext (hkeeps.tree ▸ hedit) hname (by rw [hreport, hkeeps.report])

/-- The last step leaves the packages alone. -/
theorem Finish.samePackage (hroot : Path.isAbs p.root) (h : Finish p s q s') (c : Category) :
    SamePackage p c s.tree s'.tree := by
  have hedited : ∀ {f : Change}, Edited p.outputPlace f s.tree s'.tree → (∀ e, f c.name e = e) →
      SamePackage p c s.tree s'.tree := by
    intro f hedit hkeep y hy
    rw [Project.categoryPlace_eq hroot] at hy
    by_cases hne : y = p.outputPlace ++ [c.name]
    · rw [hne, hedit.child, hkeep]
    · exact hedit.get?_deep hy hne
  cases h with
  | nothing _ hkeeps => exact fun y _ => by rw [hkeeps.tree]
  | unrendered hkeeps => exact fun y _ => by rw [hkeeps.tree]
  | unwritten _ hedit _ => exact hedited hedit fun _ => rfl
  | written _ _ hedit _ _ =>
    refine hedited hedit fun e => if_neg fun heq => ?_
    exact p.isGoFile_layerIndexFile.ne (by cases c <;> decide) heq.symm

theorem Finish.results (h : Finish p s q s') : s'.report.results = s.report.results := by
  cases h with
  | nothing _ hkeeps => rw [hkeeps.report]
  | unrendered hkeeps => rw [hkeeps.report]
  | unwritten _ _ hreport => rw [hreport]
  | written _ _ _ _ hreport => rw [hreport]

end AccessLayer.Layer
