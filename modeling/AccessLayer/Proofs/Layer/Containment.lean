import AccessLayer.Layer.Endpoint
import AccessLayer.Proofs.Layer.Convergence

/-!
# What a pass can reach

Whatever the names in definitions are, and whether it succeeds or fails, a pass writes Go files
directly in the directories of packages and the index of the layer, and it removes only generated
files directly in the directories of packages. Making an endpoint writes at most one Go file,
directly in its directory.

* `Contained`: what may become of a file.
* `contained_generate`: a pass, however it ends.
* `effects_contained`: both together.
-/

namespace AccessLayer.Layer

open AccessLayer.Tree (Edited Change)

variable {p : Project} {c : Category} {s s' : Session}

/-! ## A pass -/

/-- What may become of a file in a pass: it stays, it is written as a file of the access layer, or
it was a generated file of a package and is removed. -/
def Contained (p : Project) (t u : Tree) (y : Place) : Prop :=
  u.fileAt? y = t.fileAt? y ∨
    (p.IsOutputFile y ∧ ∃ content, u.fileAt? y = some content) ∨
    (u.fileAt? y = none ∧ ∃ c n content, y = p.categoryPlace c ++ [n] ∧ Path.ext n = goExtension ∧
      t.fileAt? y = some content ∧ generatedHeader <+: content)

theorem Touched.contained {t u : Tree} (h : Touched p t u) (y : Place) : Contained p t u y := by
  by_cases hchild : ∃ c n, y = p.categoryPlace c ++ [n]
  · obtain ⟨c, n, rfl⟩ := hchild
    obtain hsame | ⟨hgo, content, hput⟩ | ⟨⟨content, hget, hext, hheader⟩, hnone⟩ := h.allowed c n
    · exact .inl (Tree.fileAt?_congr hsame)
    · exact .inr (.inl ⟨.inl ⟨c, n, hgo, rfl⟩, content, Tree.fileAt?_eq_some.2 hput⟩)
    · exact .inr (.inr ⟨by rw [Tree.fileAt?, hnone], c, n, content, rfl, hext,
        Tree.fileAt?_eq_some.2 hget, hheader⟩)
  · refine .inl (h.later.fileAt? ?_)
    rintro ⟨c, n, -, heq⟩
    exact hchild ⟨c, n, heq⟩

/-- The last step writes at most the index of the layer. -/
theorem Finish.fileAt? {q : Except Failure Unit} (h : Finish p s q s') (y : Place) :
    s'.tree.fileAt? y = s.tree.fileAt? y ∨ y = p.layerIndexPlace ∧
      ∃ content, s'.tree.fileAt? y = some content := by
  cases h with
  | nothing _ hkeeps => exact .inl (by rw [hkeeps.tree])
  | unrendered hkeeps => exact .inl (by rw [hkeeps.tree])
  | unwritten _ hedit _ => exact .inl (hedit.fileAt? fun _ _ _ => rfl)
  | @written content _ _ _ _ hedit _ _ =>
    by_cases hy : y = p.layerIndexPlace
    · refine .inr ⟨hy, content, Tree.fileAt?_eq_some.2 ?_⟩
      rw [hy, Project.layerIndexPlace, hedit.child]
      exact if_pos rfl
    · refine .inl (hedit.fileAt? fun n hn e => if_neg ?_)
      rintro rfl
      exact hy hn

theorem contained_generate (hroot : Path.isAbs p.root) (hs : s.tree.WellFormed)
    {q : Except Failure Unit}
    (h : (generate p).Ends s q s') (y : Place) : Contained p s.tree s'.tree y := by
  have hnodup : Category.generationOrder.Nodup := by decide
  obtain ⟨e, hfail, rfl⟩ | ⟨⟨⟩, s₁, hrun, hfinish⟩ := Task.ends_bind.1 (ends_generate.1 h)
  · obtain ⟨hok, -⟩ | ⟨done, c, rest, s₁, e', -, hc, -, hprogress, hturn, -⟩ :=
      ends_turns hroot hnodup (Sound.fresh hs) hfail
    · cases hok
    · exact (hprogress.touched_turn hroot hc hturn).contained y
  · have hprogress := progress_of_turns hroot hnodup (Sound.fresh hs) hrun
    obtain hsame | ⟨hy, hput⟩ := (ends_finish hroot hprogress.sound.tree hfinish).fileAt? y
    · rw [Contained, hsame]
      exact hprogress.touched.contained y
    · exact .inr (.inl ⟨.inr hy, hput⟩)

/-! ## An endpoint -/

/-- The place of the directory of endpoints. -/
def Project.apiPlace (p : Project) : Place := Path.names (p.place p.settings.paths.api)

theorem quiet_findSource (p : Project) (kind : SourceKind) (dir name : Bytes) :
    (findSource p kind dir name).Quiet := by
  refine Task.Quiet.get_bind fun s => ?_
  split_ifs
  · exact Task.Quiet.pure _
  · exact Task.Quiet.throw _

theorem quiet_statementTarget (p : Project) (kind : StatementKind) (name : Bytes) :
    (statementTarget p kind name).Quiet := by
  refine (quiet_findSource p _ _ _).bind fun path => ?_
  refine (Task.Quiet.readFile path).bind fun text => ?_
  refine (quiet_importPath p _).bind fun importPath => ?_
  exact (quiet_signatureOf p path text).bind fun signature => Task.Quiet.pure _

theorem quiet_eventTarget (p : Project) (name : Bytes) : (eventTarget p name).Quiet := by
  refine (quiet_findSource p _ _ _).bind fun path => ?_
  refine (quiet_statements p _ path).bind fun statements => ?_
  cases chosen? ((Surql.events statements).map (·.name)) (sourceStem p name) with
  | none => exact Task.Quiet.throw _
  | some event => exact (quiet_importPath p _).bind fun importPath => Task.Quiet.pure _

theorem quiet_tableTarget (p : Project) (name method : Bytes) :
    (tableTarget p name method).Quiet := by
  unfold tableTarget
  split_ifs
  · exact Task.Quiet.throw_bind _ _
  refine (quiet_findSource p _ _ _).bind fun path => ?_
  refine (quiet_statements p _ path).bind fun statements => ?_
  cases chosen? ((Surql.tables statements).map (·.name)) (sourceStem p name) with
  | none => exact Task.Quiet.throw _
  | some table =>
    dsimp only
    cases tableMethod p.settings table method with
    | error fault => exact Task.Quiet.throw _
    | ok m => exact (quiet_importPath p _).bind fun importPath => Task.Quiet.pure _

theorem quiet_targetOf (p : Project) (r : EndpointRequest) : (targetOf p r).Quiet := by
  unfold targetOf
  split_ifs
  · exact Task.Quiet.throw _
  · exact Task.Quiet.throw _
  · exact quiet_statementTarget p _ _
  · exact quiet_statementTarget p _ _
  · exact quiet_eventTarget p _
  · exact quiet_tableTarget p _ _
  · exact Task.Quiet.pure _

def EndpointRequest.file (r : EndpointRequest) : Bytes :=
  Naming.fileStem (Naming.snake r.name) ++ goExtension

theorem EndpointRequest.isGoFile_file (r : EndpointRequest) : IsGoFile r.file :=
  isGoFile_append (Naming.separator_notMem_fileStem _)

/-- Making an endpoint writes its file, or nothing but directories on the way to it. -/
theorem ends_makeEndpoint (hroot : Path.isAbs p.root) (hs : s.tree.WellFormed) {r : EndpointRequest}
    {q : Except Failure Bytes} (h : (makeEndpoint p r).Ends s q s') :
    Edited p.apiPlace .keep s.tree s'.tree ∨
      ∃ content, Edited p.apiPlace (.put r.file content) s.tree s'.tree := by
  have hkeep : ∀ {u : Session}, Keeps s u → Edited p.apiPlace .keep s.tree u.tree := by
    intro u hu
    rw [hu.tree]
    exact Edited.refl _ hs
  unfold makeEndpoint at h
  dsimp only at h
  split_ifs at h
  · exact .inl (hkeep (Task.Quiet.throw_bind _ _ h))
  rw [Task.ends_get_bind] at h
  obtain ⟨e, hfail, -⟩ | ⟨target, s₁, htarget, h⟩ := Task.ends_bind.1 h
  · exact .inl (hkeep (quiet_targetOf p r hfail))
  have hs₁ := quiet_targetOf p r htarget
  obtain ⟨e, hfail, -⟩ | ⟨content, s₂, hrender, h⟩ := Task.ends_bind.1 h
  · exact .inl (hkeep (hs₁.trans (quiet_render p _ _ hfail)))
  have hs₂ := hs₁.trans (quiet_render p _ _ hrender)
  -- only the file system can stop what is left
  have hwrite : ∃ q', (Task.writeFile (Path.ofNames true (p.apiPlace ++ [r.file])) content).Ends s₂
      q' s' := by
    rw [← EndpointRequest.file, Project.join_place hroot _ r.isGoFile_file.1] at h
    obtain ⟨e, hfail, -⟩ | ⟨⟨⟩, s₃, hwrite, hend⟩ := Task.ends_bind.1 h
    · exact ⟨_, hfail⟩
    · rw [(Task.ends_pure.1 hend).2]
      exact ⟨_, hwrite⟩
  obtain ⟨q', hwrite⟩ := hwrite
  have hwf : s₂.tree.WellFormed := hs₂.tree.symm ▸ hs
  have hend :=
    (ends_writeFile_ofNames hwf (Project.proper_place hroot _) r.isGoFile_file.1 hwrite).2
  rw [hs₂.tree] at hend
  obtain ⟨-, hedit⟩ | ⟨-, hedit, -⟩ := hend
  · exact .inl hedit
  · exact .inr ⟨content, hedit⟩

/-! ## Both together -/

/-- A pass changes no file outside of the access layer and removes only generated files of packages,
and an endpoint changes at most its own file, whether they succeed or fail. -/
theorem effects_contained (hroot : Path.isAbs p.root = true) (hs : s.tree.WellFormed) :
    (∀ y, Contained p s.tree ((generate p).runIn s).2.tree y) ∧
      ∀ r : EndpointRequest, IsGoFile r.file ∧
        (∀ y, y ≠ p.apiPlace ++ [r.file] →
          ((makeEndpoint p r).runIn s).2.tree.fileAt? y = s.tree.fileAt? y) ∧
        (((makeEndpoint p r).runIn s).2.tree.fileAt? (p.apiPlace ++ [r.file]) =
          s.tree.fileAt? (p.apiPlace ++ [r.file]) ∨
          ∃ content, ((makeEndpoint p r).runIn s).2.tree.fileAt? (p.apiPlace ++ [r.file]) =
            some content) := by
  refine ⟨contained_generate hroot hs (Task.ends_runIn _ s), fun r => ⟨r.isGoFile_file, ?_⟩⟩
  obtain hedit | ⟨content, hedit⟩ :=
    ends_makeEndpoint hroot hs (Task.ends_runIn (makeEndpoint p r) s)
  · exact ⟨fun y _ => hedit.fileAt? fun _ _ _ => rfl, .inl (hedit.fileAt? fun _ _ _ => rfl)⟩
  · refine ⟨fun y hy => hedit.fileAt? fun n hn e => if_neg ?_,
      .inr ⟨content, Tree.fileAt?_eq_some.2 ?_⟩⟩
    · rintro rfl
      exact hy hn
    · rw [hedit.child]
      exact if_pos rfl

/-- In the small project, for an endpoint whose name looks like a way out of its directory. -/
theorem effects_contained_small :
    Path.isAbs smallProject.root = true ∧ smallTree.WellFormed ∧
      (∀ y, Contained smallProject smallTree
        ((generate smallProject).runIn { tree := smallTree }).2.tree y) ∧
      ∀ y, y ≠ smallProject.apiPlace ++ [EndpointRequest.file { name := "../db" }] →
        ((makeEndpoint smallProject { name := "../db" }).runIn { tree := smallTree }).2.tree.fileAt?
          y =
          smallTree.fileAt? y := by
  have h := effects_contained (p := smallProject) (s := { tree := smallTree }) rfl
    wellFormed_smallTree
  exact ⟨rfl, wellFormed_smallTree, h.1, (h.2 { name := "../db" }).2.1⟩

end AccessLayer.Layer
