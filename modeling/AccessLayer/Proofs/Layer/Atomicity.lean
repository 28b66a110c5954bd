import AccessLayer.Proofs.Layer.Convergence

/-!
# Passes that fail

When a pass fails and the file system is not to blame, each package is either settled or as it was:
the check of a package is over before the first of its files is touched.

* `Stopped`: what a pass has left that was stopped between two packages.
* `generate_atomic`: a pass that fails was stopped between two packages or before the index of the
  layer.
-/

namespace AccessLayer.Layer

variable {p : Project} {s s₁ s' : Session} {e : Failure}

/-- A pass from `s` to `s'` has stopped: the packages `before` are `Settled`, nothing in the
directories `p.categoryPlace c` of the packages `after` and nothing at `p.layerIndexPlace` has
changed, and `report.written` and `report.removed` name files of the packages `before` only. -/
structure Stopped (p : Project) (before after : List Category) (s s' : Session) : Prop where
  settled : ∀ c ∈ before, ∃ r ∈ s'.report.results, Settled p c r s.tree s'.tree
  untouched : ∀ c ∈ after, ∀ y, p.categoryPlace c <+: y → s'.tree.get? y = s.tree.get? y
  index : s'.tree.get? p.layerIndexPlace = s.tree.get? p.layerIndexPlace
  reported : ∀ w ∈ s'.report.written ++ s'.report.removed,
    ∃ c ∈ before, ∃ n, IsGoFile n ∧ w = p.relative (Path.join [p.categoryDir c, n])

/-- The turns leave the index of the layer alone. -/
theorem Touched.layerIndex (hroot : Path.isAbs p.root) {t u : Tree} (h : Touched p t u) :
    u.get? p.layerIndexPlace = t.get? p.layerIndexPlace := by
  obtain hsame | ⟨c, n, -, heq⟩ | ⟨⟨c, hpre⟩, -⟩ := h.later p.layerIndexPlace
  · exact hsame
  · exact absurd (heq ▸ List.prefix_append _ _) (Project.layerIndexPlace_apart hroot c).1
  · exact absurd hpre (Project.layerIndexPlace_apart hroot c).2

/-- After the turns of some packages, a step that changes no file leaves a pass stopped there. -/
theorem Progress.stopped (hroot : Path.isAbs p.root) {before after : List Category}
    (h : Progress p before s.fresh s₁) (hafter : ∀ c ∈ after, c ∉ before)
    (htree : s'.tree = s₁.tree) {new : List CategoryResult}
    (hreport : s'.report = { s₁.report with results := s₁.report.results ++ new }) :
    Stopped p before after s s' := by
  refine ⟨fun c hc => ?_, fun c hc y hy => ?_, ?_, fun w hw => ?_⟩
  · obtain ⟨r, hr, hsettled⟩ := h.settled c hc
    refine ⟨r, ?_, htree ▸ hsettled⟩
    rw [hreport]
    exact List.mem_append_left _ hr
  · rw [htree]
    exact h.untouched c (hafter c hc) y hy
  · rw [htree]
    exact h.touched.layerIndex hroot
  · rw [hreport] at hw
    exact (h.reported w hw).resolve_left nofun

/-- A pass that fails, other than by the file system, has failed in the turn of a package or at the
index of the layer. Everything up to there is settled and the rest is as it was. -/
theorem generate_atomic (hroot : Path.isAbs p.root = true) (hs : s.tree.WellFormed)
    (h : (generate p).Ends s (.error e) s') (he : ¬ IsFileFailure e) :
    (∃ before c after s₁, Category.generationOrder = before ++ c :: after ∧
      (turns p before).Gives s.fresh ⟨⟩ s₁ ∧
        (generateCategory p c).Ends s₁ (.error e) s' ∧ Stopped p before (c :: after) s s') ∨
      ∃ s₁, (turns p Category.generationOrder).Gives s.fresh ⟨⟩ s₁ ∧
        (finish p).Ends s₁ (.error e) s' ∧
        Stopped p Category.generationOrder [] s s' := by
  have hnodup : Category.generationOrder.Nodup := by decide
  obtain ⟨e', hfail, he'⟩ | ⟨⟨⟩, s₁, hrun, hfinish⟩ := Task.ends_bind.1 (ends_generate.1 h)
  · cases he'
    obtain ⟨hok, -⟩ | ⟨before, c, after, s₁, e', horder, -, hrun, hprogress, hturn, heq⟩ :=
      ends_turns hroot hnodup (Sound.fresh hs) hfail
    · cases hok
    cases heq
    refine .inl ⟨before, c, after, s₁, horder, hrun, hturn, ?_⟩
    obtain ⟨_, new, -, htree, hreport⟩ | ⟨_, _, _, _, _, -, -, -, ⟨hok, -⟩ | ⟨e', heq, hfile⟩⟩ :=
      ends_generateCategory hroot hprogress.sound hturn
    · rw [horder, List.nodup_append] at hnodup
      exact hprogress.stopped hroot (fun d hd hmem => hnodup.2.2 d hmem d hd rfl) htree hreport
    · cases hok
    · cases heq
      exact absurd hfile he
  · have hprogress := progress_of_turns hroot hnodup (Sound.fresh hs) hrun
    refine .inr ⟨s₁, hrun, hfinish, ?_⟩
    cases ends_finish hroot hprogress.sound.tree hfinish with
    | unrendered hkeeps =>
      exact hprogress.stopped hroot nofun hkeeps.tree (by rw [hkeeps.report, List.append_nil])
    | unwritten hfile _ _ => exact absurd hfile he

/-- The small project with a definition of an event that cannot be read. -/
def brokenTree : Tree :=
  ⟨smallTree.entries ++
    [([("p" : Bytes), "events"], .dir),
      (["p", "events", "e.surql"], .file "DEFINE EVENT ON")]⟩

theorem wellFormed_brokenTree : brokenTree.WellFormed := by decide +kernel

def failsAtDefinition : Except Failure Unit → Bool
  | .error (.source _ _ _) => true
  | _ => false

theorem eq_of_failsAtDefinition {q : Except Failure Unit} (h : failsAtDefinition q) :
    ∃ c path error, q = .error (.source c path error) := by
  unfold failsAtDefinition at h
  split at h
  · exact ⟨_, _, _, rfl⟩
  · cases h

set_option maxRecDepth 100000 in
theorem generate_broken :
    failsAtDefinition ((generate smallProject).runIn { tree := brokenTree }).1 = true := by
  decide +kernel

/-- The events of the small project cannot be made, after its table was. -/
theorem generate_atomic_broken : ∃ e,
    Path.isAbs smallProject.root = true ∧ brokenTree.WellFormed ∧
      (generate smallProject).Ends { tree := brokenTree } (.error e)
        ((generate smallProject).runIn { tree := brokenTree }).2 ∧ ¬ IsFileFailure e ∧
      ((∃ before c after, Category.generationOrder = before ++ c :: after ∧
          Stopped smallProject before (c :: after) { tree := brokenTree }
            ((generate smallProject).runIn { tree := brokenTree }).2) ∨
        Stopped smallProject Category.generationOrder [] { tree := brokenTree }
          ((generate smallProject).runIn { tree := brokenTree }).2) := by
  rcases hrun : (generate smallProject).runIn { tree := brokenTree } with ⟨q, s'⟩
  have hbroken := generate_broken
  rw [hrun] at hbroken
  obtain ⟨c, path, error, rfl⟩ := eq_of_failsAtDefinition hbroken
  have hfile : ¬ IsFileFailure (.source c path error) := nofun
  refine ⟨_, rfl, wellFormed_brokenTree, hrun, hfile, ?_⟩
  obtain ⟨before, c, after, -, horder, -, -, hstopped⟩ | ⟨-, -, -, hstopped⟩ :=
    generate_atomic rfl wellFormed_brokenTree hrun hfile
  · exact .inl ⟨before, c, after, horder, hstopped⟩
  · exact .inr hstopped

end AccessLayer.Layer
