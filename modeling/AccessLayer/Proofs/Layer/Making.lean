import AccessLayer.Proofs.Layer.Inputs

/-!
# Modules of a package

The modules of a package come from the inputs of the pass. Each is stored under a stem of its own,
which is never the one of the index, and making them changes no file.

* `quiet_makeCategory`: making changes no file.
* `Made`: what the modules of a package are like.
* `agrees_makeCategory`: the same inputs make the same modules.
-/

namespace AccessLayer.Layer

variable {p : Project} {strict : Prop} {r : CategoryResult} {c : Category} {s s' : Session}

/-! ## Making changes no file -/

theorem quiet_loadTemplate (p : Project) (task : RenderTask) (name : TemplateName) :
    (loadTemplate p task name).Quiet := by
  refine Task.Quiet.get_bind fun s => ?_
  have hnote : ∀ x : Task LoadedTemplate, x.Quiet → (do
      let loaded ← x
      modify fun s : Session => { s with templates := (name, loaded) :: s.templates }
      pure loaded : Task LoadedTemplate).Quiet :=
    fun x hx => hx.bind fun loaded => Task.Quiet.bind (Task.Quiet.note fun _ => ⟨rfl, rfl⟩) fun _ =>
      Task.Quiet.pure loaded
  cases s.templates.lookup name with
  | some t => exact Task.Quiet.pure t
  | none =>
    dsimp only
    cases p.templatesDir? with
    | none => exact hnote _ (Task.Quiet.pure _)
    | some dir =>
      dsimp only
      cases s.tree.readFile s.cwd (Path.join [dir, name.file]) with
      | error e =>
        dsimp only
        split_ifs
        · exact hnote _ (Task.Quiet.pure _)
        · exact hnote _ (Task.Quiet.throw _)
      | ok text =>
        dsimp only
        cases Template.parse? text with
        | none => exact hnote _ (Task.Quiet.throw _)
        | some parts => exact hnote _ (Task.Quiet.pure _)

theorem quiet_render (p : Project) (task : RenderTask) (a : Artifact) :
    (render p task a).Quiet := by
  refine (quiet_loadTemplate p task a.template).bind fun loaded => ?_
  cases unformatted a loaded with
  | error fault => exact Task.Quiet.throw _
  | ok text =>
    dsimp only
    cases Go.format text with
    | none => exact Task.Quiet.throw _
    | some formatted => exact Task.Quiet.pure _

theorem quiet_findImportPath (dir : Bytes) : (findImportPath dir).Quiet := by
  refine Task.Quiet.get_bind fun s => ?_
  cases moduleDir? s.tree s.cwd (dir.length + 1) dir with
  | none => exact Task.Quiet.throw _
  | some d =>
    dsimp only
    cases s.tree.readFile s.cwd (Path.join [d, moduleFile]) with
    | error e => exact Task.Quiet.throw _
    | ok text =>
      dsimp only
      cases moduleDirective? text with
      | none => exact Task.Quiet.throw _
      | some module => exact Task.Quiet.pure _

theorem quiet_importPath (p : Project) (dir : Bytes) : (p.importPath dir).Quiet := by
  unfold Project.importPath
  split_ifs
  · exact quiet_findImportPath dir
  · exact Task.Quiet.pure _

theorem quiet_sources (p : Project) (dir : Bytes) : (p.sources dir).Quiet :=
  (Task.Quiet.listDir _).bind fun _ => Task.Quiet.pure _

theorem quiet_statements (p : Project) (c : Category) (path : Bytes) :
    (p.statements c path).Quiet := by
  refine (Task.Quiet.readFile path).bind fun text => ?_
  cases Surql.parse text with
  | ok statements => exact Task.Quiet.pure _
  | error e => exact Task.Quiet.throw _

theorem quiet_signatureOf (p : Project) (path text : Bytes) : (signatureOf p path text).Quiet := by
  unfold signatureOf
  cases Query.Signature.ofVariables? (Query.annotations text) with
  | none => exact Task.Quiet.throw _
  | some signature =>
    refine Task.Quiet.bind (Task.Quiet.forIn fun line _ => ?_) fun _ => Task.Quiet.pure _
    exact (Task.Quiet.log line).bind fun _ => Task.Quiet.pure _

theorem quiet_addModule (p : Project) (r : CategoryResult) (name : Bytes) (a : Artifact) :
    (addModule p r name a).Quiet := by
  refine (quiet_render p _ a).bind fun content => ?_
  split_ifs
  · exact (Task.Quiet.log _).bind fun _ => Task.Quiet.pure _
  · exact Task.Quiet.pure _

theorem quiet_addStatement (p : Project) (kind : StatementKind) (typesImport : Bytes)
    (r : CategoryResult) (path : Bytes) : (addStatement p kind typesImport r path).Quiet := by
  refine (Task.Quiet.readFile path).bind fun text => ?_
  cases Surql.parse text with
  | error e => exact Task.Quiet.throw _
  | ok statements =>
    refine (quiet_signatureOf p path text).bind fun signature => ?_
    cases StatementUnit.ofFile? kind typesImport path (p.relative path) text signature with
    | none => exact Task.Quiet.throw _
    | some u => exact quiet_addModule p r _ _

theorem quiet_makeStatements (p : Project) (kind : StatementKind) :
    (makeStatements p kind).Quiet := by
  refine (quiet_sources p _).bind fun files => ?_
  split_ifs
  · exact Task.Quiet.pure _
  · refine Task.Quiet.bind ?_ fun typesImport =>
      Task.Quiet.foldlM (quiet_addStatement p kind typesImport) _
    unfold Project.typesImport
    split_ifs
    · exact Task.Quiet.pure _
    · exact quiet_importPath p _

/-- Making the modules of a package changes no file, however it ends. -/
theorem quiet_makeCategory (p : Project) (c : Category) : (makeCategory p c).Quiet := by
  cases c with
  | queries => exact quiet_makeStatements p .query
  | mutations => exact quiet_makeStatements p .mutation
  | crud =>
    refine (quiet_sources p _).bind fun files => Task.Quiet.foldlM (fun r path => ?_) _
    refine (quiet_statements p .crud path).bind fun statements => ?_
    exact Task.Quiet.foldlM (fun r u => quiet_addModule p r _ _) _
  | events =>
    refine (quiet_sources p _).bind fun files => Task.Quiet.foldlM (fun r path => ?_) _
    refine (quiet_statements p .events path).bind fun statements => ?_
    exact Task.Quiet.foldlM (fun r u => quiet_addModule p r _ _) _

/-! ## Rendering -/

theorem TemplateName.proper_file (name : TemplateName) : Path.Proper name.file := by
  cases name <;> decide

/-- A template is read from the tree. -/
def Fetches (p : Project) (s : Session) (name : TemplateName) (loaded : LoadedTemplate) : Prop :=
  p.templatesDir? = none ∧ loaded = .builtIn ∨
    ∃ dir, p.templatesDir? = some dir ∧
      ((∃ text parts, s.tree.readFile s.cwd (Path.join [dir, name.file]) = .ok text ∧
          Template.parse? text = some parts ∧ loaded = .own parts text.length) ∨
        ∃ e, s.tree.readFile s.cwd (Path.join [dir, name.file]) = .error e ∧ e.fault = .notFound ∧
          loaded = .builtIn)

/-- A template that was read is noted. -/
theorem gives_noteTemplate {name : TemplateName} {t loaded : LoadedTemplate} :
    (do
      let loaded ← pure t
      modify fun s : Session => { s with templates := (name, loaded) :: s.templates }
      pure loaded : Task LoadedTemplate).Gives s loaded s' ↔
    loaded = t ∧ s' = { s with templates := (name, loaded) :: s.templates } := by
  rw [pure_bind, Task.Gives, Task.ends_modify_bind, ← Task.Gives, Task.gives_pure]
  exact and_congr_right fun h => by rw [h]

theorem gives_loadTemplate {task : RenderTask} {name : TemplateName} {loaded : LoadedTemplate} :
    (loadTemplate p task name).Gives s loaded s' ↔
      s.templates.lookup name = some loaded ∧ s' = s ∨
        s.templates.lookup name = none ∧ Fetches p s name loaded ∧
          s' = { s with templates := (name, loaded) :: s.templates } := by
  rw [loadTemplate, Task.gives_get_bind]
  cases hlookup : s.templates.lookup name with
  | some t =>
    simp only [Task.gives_pure, Option.some.injEq, reduceCtorEq, false_and, or_false,
    eq_comm (a := t)]
  | none =>
    simp only [reduceCtorEq, false_and, false_or, true_and, Fetches]
    cases hdir : p.templatesDir? with
    | none =>
      simp only [gives_noteTemplate, true_and, reduceCtorEq, false_and, exists_false, or_false]
    | some dir =>
      simp only [reduceCtorEq, false_and, false_or, Option.some.injEq, exists_eq_left']
      cases hread : s.tree.readFile s.cwd (Path.join [dir, name.file]) with
      | error e =>
        simp only [reduceCtorEq, false_and, exists_false, false_or, Except.error.injEq,
          exists_eq_left']
        split_ifs with hfault
        · simp only [gives_noteTemplate, beq_iff_eq.1 hfault, true_and]
        · have hother : e.fault ≠ .notFound := fun h => hfault (beq_iff_eq.2 h)
          simp only [Task.not_gives_throw_bind, hother, false_and]
      | ok text =>
        simp only [reduceCtorEq, false_and, exists_false, or_false, Except.ok.injEq,
          exists_and_left, exists_eq_left']
        cases hparse : Template.parse? text with
        | none => simp only [Task.not_gives_throw_bind, reduceCtorEq, false_and, exists_false]
        | some parts => simp only [gives_noteTemplate, Option.some.injEq, exists_eq_left']

section

variable (hroot : Path.isAbs p.root = true) {loaded : LoadedTemplate} {name : TemplateName}
  {task : RenderTask}
include hroot

theorem templatesDir?_eq {dir : Bytes} (h : p.templatesDir? = some dir) (name : TemplateName) :
    Path.join [dir, name.file] = Path.ofNames true (Path.names dir ++ [name.file]) ∧
      ∀ n ∈ Path.names dir ++ [name.file], Path.Proper n := by
  unfold Project.templatesDir? at h
  split_ifs at h
  cases h
  exact ⟨Project.join_place hroot _ name.proper_file,
    Path.proper_concat (Project.proper_place hroot _) name.proper_file⟩

theorem Fetches.templateIn? (hs : s.tree.WellFormed) (h : Fetches p s name loaded) :
    templateIn? p s.tree name = some loaded := by
  obtain ⟨hdir, rfl⟩ | ⟨dir, hdir, h⟩ := h
  · simp only [Layer.templateIn?, hdir]
  · obtain ⟨hpath, hproper⟩ := templatesDir?_eq hroot hdir name
    rw [hpath] at h
    obtain ⟨content, hok, hget, -⟩ | ⟨e, herror, hnone⟩ := Tree.readFile_cases hs s.cwd hproper
    · simp only [hok, Except.ok.injEq, reduceCtorEq, false_and, exists_false, or_false] at h
      obtain ⟨text, parts, rfl, hparse, rfl⟩ := h
      simp only [Layer.templateIn?, hdir, Tree.fileAt?_eq_some.2 hget, hparse, Option.map_some]
    · simp only [herror, Except.error.injEq, reduceCtorEq, false_and, exists_false, false_or] at h
      obtain ⟨e', rfl, hfault, rfl⟩ := h
      simp only [Layer.templateIn?, hdir, Tree.fileAt?, (hnone hfault).1]

/-- A template that can be read in one session can be read in the other. -/
theorem Fetches.of_alike {u : Session} (hsu : Alike p strict s u) (hstrict : strict)
    (h : Fetches p s name loaded) : Fetches p u name loaded := by
  obtain hbuiltIn | ⟨dir, hdir, h⟩ := h
  · exact .inl hbuiltIn
  · obtain ⟨hpath, hproper⟩ := templatesDir?_eq hroot hdir name
    refine .inr ⟨dir, hdir, ?_⟩
    rw [hpath] at h ⊢
    obtain ⟨content, hok, hget, hname⟩ | ⟨e, herror, hnone⟩ :=
      Tree.readFile_cases hsu.left.tree s.cwd hproper
    · simp only [hok, Except.ok.injEq, reduceCtorEq, false_and, exists_false, or_false] at h
      obtain ⟨text, parts, rfl, hparse, rfl⟩ := h
      have hfile := hsu.inputs.templates dir hdir name ▸ Tree.fileAt?_eq_some.2 hget
      exact .inl ⟨content, parts,
        Tree.readFile_of_get? hsu.right.tree u.cwd (Tree.fileAt?_eq_some.1 hfile) hname,
        hparse, rfl⟩
    · simp only [herror, Except.error.injEq, reduceCtorEq, false_and, exists_false, false_or] at h
      obtain ⟨e', rfl, hfault, rfl⟩ := h
      obtain ⟨hget, hopen⟩ := hnone hfault
      obtain ⟨hget', hopen', hname⟩ := (hsu.ready hstrict).1.templates dir hdir name hget hopen
      obtain ⟨e', he', hfault'⟩ := (Tree.notFound_of_open u.cwd hproper hget' hname hopen').1
      exact .inr ⟨e', he', hfault', rfl⟩

theorem Sound.loadTemplate (hs : Sound p s) (h : (loadTemplate p task name).Gives s loaded s') :
    templateIn? p s.tree name = some loaded ∧ Sound p s' := by
  obtain ⟨hlookup, rfl⟩ | ⟨-, hfetch, rfl⟩ := gives_loadTemplate.1 h
  · exact ⟨hs.templates _ _ hlookup, hs⟩
  · have htemplate := hfetch.templateIn? hroot hs.tree
    refine ⟨htemplate, hs.tree, fun other found hfound => ?_⟩
    rw [List.lookup_cons] at hfound
    by_cases hname : other = name
    · subst hname
      simp only [beq_self_eq_true, Option.some.injEq] at hfound
      exact hfound ▸ htemplate
    · simp only [beq_false_of_ne hname] at hfound
      exact hs.templates other found hfound

theorem agrees_loadTemplate (task : RenderTask) (name : TemplateName) :
    Agrees p strict (loadTemplate p task name) fun _ => True := by
  intro s u hsu loaded s' hs
  refine ⟨fun hstrict => ?_, fun loaded' u' hu => ?_⟩
  · have htemplates := (hsu.ready hstrict).2
    obtain ⟨hlookup, -⟩ | ⟨hlookup, hfetch, -⟩ := gives_loadTemplate.1 hs
    · exact ⟨loaded, u, gives_loadTemplate.2 (.inl ⟨htemplates ▸ hlookup, rfl⟩)⟩
    · exact ⟨loaded, _, gives_loadTemplate.2
        (.inr ⟨htemplates ▸ hlookup, hfetch.of_alike hroot hsu hstrict, rfl⟩)⟩
  · obtain ⟨htemplate, hs'⟩ := hsu.left.loadTemplate hroot hs
    obtain ⟨htemplate', hu'⟩ := hsu.right.loadTemplate hroot hu
    rw [hsu.inputs.templateIn?, htemplate', Option.some.injEq] at htemplate
    subst htemplate
    have hks := quiet_loadTemplate p task name hs
    have hku := quiet_loadTemplate p task name hu
    refine ⟨rfl, trivial, hs', hu', by rw [hks.tree, hku.tree]; exact hsu.inputs, fun hstrict => ?_⟩
    obtain ⟨hready, htemplates⟩ := hsu.ready hstrict
    refine ⟨by rw [hks.tree, hku.tree]; exact hready, ?_⟩
    -- both sessions have the template already, or both note it
    obtain ⟨hlookup, rfl⟩ | ⟨hlookup, -, rfl⟩ := gives_loadTemplate.1 hs
    · obtain ⟨-, rfl⟩ | ⟨hlookup', -⟩ := gives_loadTemplate.1 hu
      · exact htemplates
      · rw [htemplates, hlookup] at hlookup'
        cases hlookup'
    · obtain ⟨hlookup', -⟩ | ⟨-, -, rfl⟩ := gives_loadTemplate.1 hu
      · rw [htemplates, hlookup] at hlookup'
        cases hlookup'
      · simp only [htemplates]

theorem agrees_render (task : RenderTask) (a : Artifact) :
    Agrees p strict (render p task a) fun _ => True := by
  refine (agrees_loadTemplate hroot task a.template).bind fun loaded _ => ?_
  cases unformatted a loaded with
  | error fault => exact Agrees.throw _
  | ok text =>
    dsimp only
    cases Go.format text with
    | none => exact Agrees.throw _
    | some formatted => exact Agrees.pure trivial

/-- With its template, a file is rendered to its text, and rendering fails if it has none. -/
theorem ends_render (hs : Sound p s) {a : Artifact}
    (hload : (loadTemplate p task a.template).Gives s loaded s') :
    ∃ q, (render p task a).Ends s q s' ∧ q.toOption = rendered? p s.tree a := by
  obtain ⟨htemplate, -⟩ := hs.loadTemplate hroot hload
  rw [rendered?, htemplate, Option.map_some]
  cases hfill : unformatted a loaded with
  | error fault =>
    refine ⟨.error (.render task fault), Task.ends_bind.2 (.inr ⟨loaded, s', hload, ?_⟩), rfl⟩
    simp only [hfill]
    exact Task.ends_throw.2 ⟨rfl, rfl⟩
  | ok text =>
    cases hformat : Go.format text with
    | none =>
      refine ⟨.error (.render task .notGo), Task.ends_bind.2 (.inr ⟨loaded, s', hload, ?_⟩),
        hformat.symm⟩
      simp only [hfill, hformat]
      exact Task.ends_throw.2 ⟨rfl, rfl⟩
    | some formatted =>
      refine ⟨.ok formatted, Task.ends_bind.2 (.inr ⟨loaded, s', hload, ?_⟩), hformat.symm⟩
      simp only [hfill, hformat]
      exact Task.ends_pure.2 ⟨rfl, rfl⟩

/-- The text of a file is the one by the templates in the tree. -/
theorem gives_render (hs : Sound p s) {a : Artifact} {content : Bytes}
    (h : (render p task a).Gives s content s') : rendered? p s.tree a = some content := by
  obtain ⟨loaded, s₁, hload, -⟩ := Task.gives_bind.1 h
  obtain ⟨q, hends, hq⟩ := ends_render hroot hs hload
  rw [← hq, (Task.ends_unique hends h).1]
  rfl

end

/-! ## Modules -/

/-- The modules of a package: each under a stem of its own, at the path of its stem. -/
structure Made (p : Project) (c : Category) (r : CategoryResult) : Prop where
  category : r.category = c
  stem : ∀ m ∈ r.modules, ∃ name, m.name = Naming.fileStem name
  path : ∀ m ∈ r.modules, m.path = Path.join [p.categoryDir c, m.name ++ goExtension]
  nodup : (r.modules.map (·.name)).Nodup

theorem Made.empty (p : Project) (c : Category) : Made p c { category := c } :=
  ⟨rfl, nofun, nofun, List.nodup_nil⟩

theorem put_category (r : CategoryResult) (m : Module) : (r.put m).category = r.category := by
  unfold CategoryResult.put
  split_ifs <;> rfl

theorem mem_put {m n : Module} (h : n ∈ (r.put m).modules) : n = m ∨ n ∈ r.modules := by
  unfold CategoryResult.put at h
  split_ifs at h
  · obtain ⟨k, hk, rfl⟩ := List.mem_map.1 h
    split_ifs
    · exact .inl rfl
    · exact .inr hk
  · rw [List.mem_append, List.mem_singleton] at h
    exact h.symm

theorem nodup_put {m : Module} (h : (r.modules.map (·.name)).Nodup) :
    ((r.put m).modules.map (·.name)).Nodup := by
  unfold CategoryResult.put
  split_ifs with hhas
  · have hnames : (r.modules.map fun n => if n.name == m.name then m else n).map (·.name) =
        r.modules.map (·.name) := by
      rw [List.map_map]
      refine List.map_congr_left fun n _ => ?_
      by_cases hn : n.name = m.name <;> simp [hn]
    rw [hnames]
    exact h
  · rw [List.map_append, List.map_singleton, List.nodup_append]
    refine ⟨h, List.nodup_singleton _, ?_⟩
    intro name hname other hother heq
    obtain ⟨n, hn, rfl⟩ := List.mem_map.1 hname
    rw [List.mem_singleton] at hother
    exact hhas (List.any_eq_true.2 ⟨n, hn, by simp [heq, hother]⟩)

theorem Made.put (h : Made p c r) {m : Module} (hstem : ∃ name, m.name = Naming.fileStem name)
    (hpath : m.path = Path.join [p.categoryDir c, m.name ++ goExtension]) : Made p c (r.put m) := by
  refine ⟨?_, fun n hn => ?_, fun n hn => ?_, nodup_put h.nodup⟩
  · rw [put_category, h.category]
  · obtain rfl | hn := mem_put hn
    · exact hstem
    · exact h.stem n hn
  · obtain rfl | hn := mem_put hn
    · exact hpath
    · exact h.path n hn

section

variable (hroot : Path.isAbs p.root = true)
include hroot

theorem agrees_addModule (hr : Made p c r) (name : Bytes) (a : Artifact) :
    Agrees p strict (addModule p r name a) (Made p c) := by
  refine (agrees_render hroot _ _).bind fun content _ => ?_
  have hput : Made p c (r.put
      { name := Naming.fileStem name
        path := Path.join [p.categoryDir r.category, Naming.fileStem name ++ goExtension],
          content }) :=
    hr.put ⟨name, rfl⟩ (by rw [hr.category])
  split_ifs
  · exact (Agrees.log _).bind fun _ _ => Agrees.pure hput
  · exact Agrees.pure hput

omit hroot in
theorem agrees_signatureOf (path text : Bytes) :
    Agrees p strict (signatureOf p path text) fun _ => True := by
  unfold signatureOf
  cases Query.Signature.ofVariables? (Query.annotations text) with
  | none => exact Agrees.throw _
  | some signature =>
    refine Agrees.bind (Agrees.forIn fun line _ => ?_) fun _ _ => Agrees.pure trivial
    exact (Agrees.log line).bind fun _ _ => Agrees.pure trivial

theorem agrees_statements {path : Bytes} (hpath : p.IsDefinitionPath path) :
    Agrees p strict (p.statements c path) fun _ => True := by
  refine (agrees_readFile hroot hpath).bind fun text _ => ?_
  cases Surql.parse text with
  | ok statements => exact Agrees.pure trivial
  | error e => exact Agrees.throw _

theorem agrees_addStatement (kind : StatementKind) (typesImport : Bytes)
    (hr : Made p kind.category r) {path : Bytes} (hpath : p.IsDefinitionPath path) :
    Agrees p strict (addStatement p kind typesImport r path) (Made p kind.category) := by
  refine (agrees_readFile hroot hpath).bind fun text _ => ?_
  cases Surql.parse text with
  | error e => exact Agrees.throw _
  | ok statements =>
    refine (agrees_signatureOf path text).bind fun signature _ => ?_
    cases StatementUnit.ofFile? kind typesImport path (p.relative path) text signature with
    | none => exact Agrees.throw _
    | some u => exact agrees_addModule hroot hr _ _

theorem agrees_makeStatements (kind : StatementKind) :
    Agrees p strict (makeStatements p kind) (Made p kind.category) := by
  have hdir : kind.dir p.settings = kind.category.sourceDir p.settings := by cases kind <;> rfl
  unfold makeStatements
  rw [hdir]
  refine (agrees_sources hroot kind.category).bind fun files hfiles => ?_
  split_ifs
  · exact Agrees.pure (Made.empty p kind.category)
  · refine (agrees_typesImport hroot).bind fun typesImport _ => ?_
    exact Agrees.foldlM (fun path hpath r hr =>
      agrees_addStatement hroot kind typesImport hr (hfiles path hpath))
      (Made.empty p kind.category)

theorem agrees_makeCategory (c : Category) : Agrees p strict (makeCategory p c) (Made p c) := by
  cases c with
  | queries => exact agrees_makeStatements hroot .query
  | mutations => exact agrees_makeStatements hroot .mutation
  | crud =>
    refine (agrees_sources hroot .crud).bind fun files hfiles => ?_
    refine Agrees.foldlM (fun path hpath r hr => ?_) (Made.empty p .crud)
    refine (agrees_statements hroot (hfiles path hpath)).bind fun statements _ => ?_
    exact Agrees.foldlM (fun u _ r hr => agrees_addModule hroot hr _ _) hr
  | events =>
    refine (agrees_sources hroot .events).bind fun files hfiles => ?_
    refine Agrees.foldlM (fun path hpath r hr => ?_) (Made.empty p .events)
    refine (agrees_statements hroot (hfiles path hpath)).bind fun statements _ => ?_
    exact Agrees.foldlM (fun u _ r hr => agrees_addModule hroot hr _ _) hr

end

end AccessLayer.Layer
