import AccessLayer.Proofs.Layer.ModuleFiles

/-!
# Inputs of a pass

What a pass makes depends on the definition files, the module files and the project's own templates,
and on nothing else of the session: not on the working directory, not on the log, and on the
templates that were read before only as far as they are the ones in the tree.

* `SameInputs`: two trees with the same inputs.
* `rendered?`: the text of a file, by the templates in a tree.
* `Agrees`: a task that gives the same in sessions with the same inputs and changes no file.
-/

namespace AccessLayer.Layer

open AccessLayer.Path (isAbs join names ofNames)

variable {p : Project} {x : Place} {s s' : Session} {t u v : Tree}

/-- Whether a name in the directory of a package's definitions is the name of a definition file. -/
def Project.isDefinition (p : Project) (c : Category) (name : Bytes) : Bool :=
  Path.ext name == p.settings.extension && !p.isExcluded (join [p.sourceDir c, name])

/-- Two trees with the same definition files, module files and templates. -/
structure SameInputs (p : Project) (t u : Tree) : Prop where
  definitions : ∀ c n, p.isDefinition c n = true →
    t.fileAt? (p.sourcePlace c ++ [n]) = u.fileAt? (p.sourcePlace c ++ [n])
  modules : ∀ x, t.fileAt? (x ++ [moduleFile]) = u.fileAt? (x ++ [moduleFile])
  templates : ∀ dir, p.templatesDir? = some dir → ∀ name : TemplateName,
    t.fileAt? (names dir ++ [name.file]) = u.fileAt? (names dir ++ [name.file])

theorem SameInputs.refl (p : Project) (t : Tree) : SameInputs p t t :=
  ⟨fun _ _ _ => rfl, fun _ => rfl, fun _ _ _ => rfl⟩

theorem SameInputs.symm (h : SameInputs p t u) : SameInputs p u t :=
  ⟨fun c n hn => (h.definitions c n hn).symm, fun x => (h.modules x).symm,
    fun dir hdir name => (h.templates dir hdir name).symm⟩

theorem SameInputs.trans (h : SameInputs p t u) (h' : SameInputs p u v) : SameInputs p t v :=
  ⟨fun c n hn => (h.definitions c n hn).trans (h'.definitions c n hn),
    fun x => (h.modules x).trans (h'.modules x),
    fun dir hdir name => (h.templates dir hdir name).trans (h'.templates dir hdir name)⟩

/-! ## Templates -/

/-- The template of a kind of file: the project's own one if it has one. -/
def templateIn? (p : Project) (t : Tree) (name : TemplateName) : Option LoadedTemplate :=
  match p.templatesDir? with
  | none => some .builtIn
  | some dir =>
    match t.fileAt? (names dir ++ [name.file]) with
    | none => some .builtIn
    | some text => (Template.parse? text).map fun parts => .own parts text.length

/-- The formatted text of a file. -/
def rendered? (p : Project) (t : Tree) (a : Artifact) : Option Bytes :=
  match (templateIn? p t a.template).map (unformatted a) with
  | some (.ok text) => Go.format text
  | _ => none

/-- The source `s` declares `d`: `d` is one of its declarations, and `s.text` has all its lines. -/
def Source.Declares (s : Source) (d : Declaration) : Prop :=
  d ∈ s.decls.map (·.decl) ∧ Bytes.join "\n" d.lines <:+: s.text

theorem Source.declares {s : Source} {d : Documented} (h : d ∈ s.decls) : s.Declares d.decl := by
  refine ⟨List.mem_map_of_mem h, ?_⟩
  have hlines : Bytes.join "\n" d.decl.lines <:+: d.text := (Bytes.join_suffix _ _ _).isInfix
  have htext : d.text <:+: Bytes.join "\n\n" (s.decls.map (·.text)) :=
    Bytes.infix_join (List.mem_map_of_mem h)
  exact (hlines.trans htext).trans (List.infix_append _ _ _)

theorem SameInputs.templateIn? (h : SameInputs p t u) (name : TemplateName) :
    templateIn? p t name = Layer.templateIn? p u name := by
  unfold Layer.templateIn?
  cases hdir : p.templatesDir? with
  | none => rfl
  | some dir =>
    dsimp only
    rw [h.templates dir hdir name]

theorem SameInputs.rendered? (h : SameInputs p t u) (a : Artifact) :
    rendered? p t a = Layer.rendered? p u a := by
  rw [Layer.rendered?, Layer.rendered?, h.templateIn?]

/-! ## Sessions -/

/-- A session in a pass: its templates are those of the tree. -/
structure Sound (p : Project) (s : Session) : Prop where
  tree : s.tree.WellFormed
  templates : ∀ name loaded, s.templates.lookup name = some loaded →
    templateIn? p s.tree name = some loaded

/-- Where a pass finds nothing in the first tree, nothing is in its way in the second one. -/
structure Ready (p : Project) (t u : Tree) : Prop where
  definitions : ∀ c, Tree.Nameable (p.sourcePlace c) ∧
    ∀ w, w <+: p.sourcePlace c → t.fileAt? w = none → u.fileAt? w = none
  modules : p.settings.module.isEmpty = true →
    ∀ x, t.get? (x ++ [moduleFile]) = none → u.get? (x ++ [moduleFile]) = none
  templates : ∀ dir, p.templatesDir? = some dir → ∀ name : TemplateName,
    t.get? (names dir ++ [name.file]) = none → t.Open (names dir ++ [name.file]) →
      u.get? (names dir ++ [name.file]) = none ∧ u.Open (names dir ++ [name.file]) ∧
        Tree.Nameable (names dir ++ [name.file])

/-- Two sessions whose trees have the same inputs. In the strict sense, the second one has read the
same templates, and nothing keeps a pass from succeeding in it that succeeds in the first one. -/
structure Alike (p : Project) (strict : Prop) (s u : Session) : Prop where
  left : Sound p s
  right : Sound p u
  inputs : SameInputs p s.tree u.tree
  ready : strict → Ready p s.tree u.tree ∧ u.templates = s.templates

theorem Sound.alike (h : Sound p s) : Alike p False s s :=
  ⟨h, h, SameInputs.refl p s.tree, False.elim⟩

/-- Nothing that a session keeps of a pass has changed. -/
theorem Sound.of_eq (h : Sound p s) (htree : s'.tree = s.tree)
    (htemplates : s'.templates = s.templates) : Sound p s' :=
  ⟨by rw [htree]; exact h.tree, by rw [htree, htemplates]; exact h.templates⟩

/-! ## Agreement of two runs -/

variable {α β γ : Type} {strict : Prop}

/-- In sessions with the same inputs, the task gives the same result wherever it succeeds, with the
given property. In the strict sense, it succeeds in the second one if it does in the first. -/
def Agrees (p : Project) (strict : Prop) (x : Task α) (post : α → Prop) : Prop :=
  ∀ ⦃s u : Session⦄, Alike p strict s u → ∀ ⦃a : α⦄ ⦃s' : Session⦄, x.Gives s a s' →
    (strict → ∃ b u', x.Gives u b u') ∧
      ∀ ⦃b : α⦄ ⦃u' : Session⦄, x.Gives u b u' → a = b ∧ post a ∧ Alike p strict s' u'

namespace Agrees

variable {post : α → Prop} {xs : List γ}

/-- One run alone: the property of the result, and a session that is still sound. -/
theorem single {x : Task α} {post : α → Prop} (h : Agrees p False x post) (hs : Sound p s) {a : α}
    (hx : x.Gives s a s') : post a ∧ Sound p s' := by
  obtain ⟨-, hpost, halike⟩ := (h hs.alike hx).2 hx
  exact ⟨hpost, halike.left⟩

/-- In the strict sense, the second run ends as the first one does. -/
theorem follows {x : Task α} {post : α → Prop} (h : Agrees p True x post) {u : Session}
    (hsu : Alike p True s u) {a : α} (hx : x.Gives s a s') :
    ∃ u', x.Gives u a u' ∧ Alike p True s' u' := by
  obtain ⟨hrun, hsame⟩ := h hsu hx
  obtain ⟨b, u', hu⟩ := hrun trivial
  obtain ⟨rfl, -, halike⟩ := hsame hu
  exact ⟨u', hu, halike⟩

theorem pure {a : α} (h : post a) : Agrees p strict (Pure.pure a : Task α) post := by
  intro s u hsu b s' hs
  obtain ⟨rfl, rfl⟩ := Task.gives_pure.1 hs
  refine ⟨fun _ => ⟨b, u, Task.gives_pure.2 ⟨rfl, rfl⟩⟩, fun b' u' hu => ?_⟩
  obtain ⟨rfl, rfl⟩ := Task.gives_pure.1 hu
  exact ⟨rfl, h, hsu⟩

theorem throw (e : Failure) : Agrees p strict (throwThe Failure e : Task α) post :=
  fun _ _ _ _ _ hs => absurd hs Task.not_gives_throw

theorem bind {x : Task α} {f : α → Task β} {post' : β → Prop} (hx : Agrees p strict x post)
    (hf : ∀ a, post a → Agrees p strict (f a) post') : Agrees p strict (x >>= f) post' := by
  intro s u hsu b s' hs
  obtain ⟨a, s₁, hxs, hfs⟩ := Task.gives_bind.1 hs
  obtain ⟨hrun, hsame⟩ := hx hsu hxs
  refine ⟨fun hstrict => ?_, fun b' u' hu => ?_⟩
  · obtain ⟨a', u₁, hxu⟩ := hrun hstrict
    obtain ⟨rfl, hpost, hsu₁⟩ := hsame hxu
    obtain ⟨b', u', hfu⟩ := (hf a hpost hsu₁ hfs).1 hstrict
    exact ⟨b', u', Task.gives_bind.2 ⟨a, u₁, hxu, hfu⟩⟩
  · obtain ⟨a', u₁, hxu, hfu⟩ := Task.gives_bind.1 hu
    obtain ⟨rfl, hpost, hsu₁⟩ := hsame hxu
    exact (hf a hpost hsu₁ hfs).2 hfu

theorem foldlM {f : β → γ → Task β} {post : β → Prop}
    (hf : ∀ x ∈ xs, ∀ b, post b → Agrees p strict (f b x) post)
    {b : β} (hb : post b) : Agrees p strict (xs.foldlM f b) post := by
  induction xs generalizing b with
  | nil => exact pure hb
  | cons x xs ih =>
    rw [List.foldlM_cons]
    exact bind (hf x (by simp) b hb) fun b' hb' => ih (fun y hy => hf y (by simp [hy])) hb'

theorem mapM {f : γ → Task β} (hf : ∀ x ∈ xs, Agrees p strict (f x) fun _ => True) :
    Agrees p strict (xs.mapM f) fun _ => True := by
  induction xs with
  | nil => exact pure trivial
  | cons x xs ih =>
    rw [List.mapM_cons]
    refine bind (hf x (by simp)) fun b _ => ?_
    exact bind (ih fun y hy => hf y (by simp [hy])) fun bs _ => pure trivial

theorem forIn {body : γ → PUnit → Task (ForInStep PUnit)}
    (h : ∀ x r, Agrees p strict (body x r) fun _ => True) :
    Agrees p strict (ForIn.forIn xs PUnit.unit body) fun _ => True := by
  induction xs with
  | nil => exact pure trivial
  | cons x xs ih =>
    rw [List.forIn_cons]
    refine bind (h x ⟨⟩) fun step _ => ?_
    cases step with
    | done r => exact pure trivial
    | yield r => exact ih

theorem note {f : Session → Session}
    (hf : ∀ s, (f s).tree = s.tree ∧ (f s).templates = s.templates) :
    Agrees p strict (modify f : Task PUnit) fun _ => True := by
  intro s u hsu a s' hs
  have hs' := Task.gives_modify.1 hs
  refine ⟨fun _ => ⟨⟨⟩, _, Task.gives_modify.2 rfl⟩, fun b u' hu => ⟨rfl, trivial, ?_⟩⟩
  have hu' := Task.gives_modify.1 hu
  subst hs' hu'
  refine ⟨hsu.left.of_eq (hf s).1 (hf s).2, hsu.right.of_eq (hf u).1 (hf u).2, ?_, ?_⟩
  · rw [(hf s).1, (hf u).1]
    exact hsu.inputs
  · rw [(hf s).1, (hf u).1, (hf s).2, (hf u).2]
    exact hsu.ready

theorem log (line : Bytes) : Agrees p strict (Task.log line) fun _ => True := note fun _ =>
    ⟨rfl, rfl⟩

theorem report (f : Report → Report) : Agrees p strict (Task.report f) fun _ => True :=
  note fun _ => ⟨rfl, rfl⟩

end Agrees

/-! ## Definition files -/

def Project.IsDefinitionPath (p : Project) (path : Bytes) : Prop :=
  ∃ c n, p.isDefinition c n = true ∧ Path.Proper n ∧ path = ofNames true (p.sourcePlace c ++ [n])

theorem gives_readFile_ofNames (hs : s.tree.WellFormed) (hx : ∀ n ∈ x, Path.Proper n)
    {content : Bytes} (h : (Task.readFile (ofNames true x)).Gives s content s') :
    s.tree.fileAt? x = some content ∧ Tree.Nameable x ∧ s' = s := by
  obtain ⟨hread, hsame⟩ := Task.gives_readFile.1 h
  obtain ⟨text, htext, hget, hname⟩ | ⟨e, he, -⟩ := Tree.readFile_cases hs s.cwd hx
  · rw [htext] at hread
    cases hread
    exact ⟨Tree.fileAt?_eq_some.2 hget, hname, hsame⟩
  · rw [he] at hread
    cases hread

/-- Listing a directory by its place; one that is not there lists as an empty one. -/
theorem gives_listDir_ofNames (hs : s.tree.WellFormed) (hx : ∀ n ∈ x, Path.Proper n)
    {r : Option (List (Bytes × Entry))} (h : (Task.listDir (ofNames true x)).Gives s r s') :
    s' = s ∧ (r = none ∧ s.tree.get? x = none ∧ s.tree.Open x ∨
        r.isSome ∧ s.tree.get? x = some .dir ∧ Tree.Nameable x) ∧
      ((r.getD []).map (·.1)).Nodup ∧ ∀ n e, (n, e) ∈ r.getD [] ↔
        s.tree.get? (x ++ [n]) = some e := by
  obtain ⟨hsame, ⟨entries, hread, rfl⟩ | ⟨e, hread, hfault, rfl⟩⟩ := Task.gives_listDir.1 h
  · obtain ⟨hdir, hget, hname⟩ | ⟨e, he, -⟩ := Tree.readDir_cases hs s.cwd hx
    · rw [hdir] at hread
      cases hread
      exact ⟨hsame, .inr ⟨rfl, hget, hname⟩, hs.nodup_children x, fun n e => hs.mem_children⟩
    · rw [he] at hread
      cases hread
  · obtain ⟨hdir, -⟩ | ⟨e', he, hnone⟩ := Tree.readDir_cases hs s.cwd hx
    · rw [hdir] at hread
      cases hread
    · rw [he] at hread
      cases hread
      obtain ⟨hget, hopen⟩ := hnone hfault
      refine ⟨hsame, .inl ⟨rfl, hget, hopen⟩, List.nodup_nil, fun n e => ?_⟩
      rw [hs.get?_below (by simp [hget]) (List.prefix_append x [n]) (by simp)]
      simp

/-- The definition files among the names of a directory. -/
theorem Project.mem_sourcesAmong {dir path : Bytes} {entries : List (Bytes × Entry)} :
    path ∈ p.sourcesAmong dir entries ↔ ∃ n content, (n, Entry.file content) ∈ entries ∧
      (Path.ext n == p.settings.extension && !p.isExcluded (join [dir, n])) ∧
      path = join [dir, n] := by
  rw [sourcesAmong, Bytes.mem_sort, List.mem_map]
  constructor
  · rintro ⟨⟨n, e⟩, he, rfl⟩
    obtain ⟨hin, hsource⟩ := List.mem_filter.1 he
    rw [isSource, Bool.and_assoc, Bool.and_eq_true] at hsource
    cases e with
    | dir => cases hsource.1
    | file content => exact ⟨n, content, hin, hsource.2, rfl⟩
  · rintro ⟨n, content, hin, hsource, rfl⟩
    refine ⟨(n, .file content), List.mem_filter.2 ⟨hin, ?_⟩, rfl⟩
    rw [isSource, Bool.and_assoc, Bool.and_eq_true]
    exact ⟨rfl, hsource⟩

section

variable (hroot : isAbs p.root = true)
include hroot

theorem proper_definition {c : Category} {n : Bytes} (hn : Path.Proper n) :
    ∀ m ∈ p.sourcePlace c ++ [n], Path.Proper m :=
  Path.proper_concat (Project.proper_place hroot _) hn

theorem agrees_readFile {path : Bytes} (hpath : p.IsDefinitionPath path) :
    Agrees p strict (Task.readFile path) fun _ => True := by
  obtain ⟨c, n, hdef, hn, rfl⟩ := hpath
  intro s u hsu a s' hs
  obtain ⟨ha, hname, rfl⟩ := gives_readFile_ofNames hsu.left.tree (proper_definition hroot hn) hs
  have hau := hsu.inputs.definitions c n hdef ▸ ha
  refine ⟨fun _ => ?_, fun b u' hu => ?_⟩
  · have hread := Tree.readFile_of_get? hsu.right.tree u.cwd (Tree.fileAt?_eq_some.1 hau) hname
    exact ⟨a, u, Task.gives_readFile.2 ⟨hread, rfl⟩⟩
  · obtain ⟨hb, -, rfl⟩ := gives_readFile_ofNames hsu.right.tree (proper_definition hroot hn) hu
    rw [hb, Option.some.injEq] at hau
    exact ⟨hau.symm, trivial, hsu⟩

theorem join_sourceDir (c : Category) {n : Bytes} (hn : Path.Proper n) :
    join [p.sourceDir c, n] = ofNames true (p.sourcePlace c ++ [n]) :=
  Project.join_place hroot _ hn

/-- The files that a directory of definitions holds, in order. -/
theorem gives_sources (hs : Sound p s) {c : Category} {files : List Bytes}
    (h : (p.sources (c.sourceDir p.settings)).Gives s files s') :
    s' = s ∧ Bytes.Ascending files ∧ ∀ path, path ∈ files ↔ ∃ n content, p.isDefinition c n ∧
      s.tree.fileAt? (p.sourcePlace c ++ [n]) = some content ∧
      path = ofNames true (p.sourcePlace c ++ [n]) := by
  obtain ⟨r, s₁, hlist, hpure⟩ := Task.gives_bind.1 h
  obtain ⟨rfl, rfl⟩ := Task.gives_pure.1 hpure
  have hdir : p.place (c.sourceDir p.settings) = ofNames true (p.sourcePlace c) :=
    Project.place_eq hroot _
  rw [hdir] at hlist
  obtain ⟨hsame, -, hnodup, hmem⟩ :=
    gives_listDir_ofNames hs.tree (Project.proper_place hroot _) hlist
  have hproper : ∀ e ∈ r.getD [], Path.Proper e.1 := by
    intro e he
    exact hs.tree.proper_of_get? ((hmem e.1 e.2).1 he) e.1 (by simp)
  refine ⟨hsame, Bytes.ascending_sort ?_, fun path => ?_⟩
  · have hnames : ∀ l : List (Bytes × Entry), (l.map fun e => join [p.sourceDir c, e.1]) =
        (l.map (·.1)).map fun n => join [p.sourceDir c, n] := fun l => by simp
    refine (hnames _).symm ▸ List.Nodup.map_on ?_ (hnodup.sublist (List.filter_sublist.map _))
    intro n hn m hm heq
    obtain ⟨e, he, rfl⟩ := List.mem_map.1 hn
    obtain ⟨e', he', rfl⟩ := List.mem_map.1 hm
    have hpe := hproper e (List.mem_of_mem_filter he)
    have hpe' := hproper e' (List.mem_of_mem_filter he')
    rw [join_sourceDir hroot c hpe, join_sourceDir hroot c hpe'] at heq
    rw [← Path.base_ofNames hpe, heq, Path.base_ofNames hpe']
  · rw [Project.mem_sourcesAmong]
    refine exists_congr fun n => exists_congr fun content => ?_
    constructor
    · rintro ⟨hin, hdef, rfl⟩
      exact ⟨hdef, Tree.fileAt?_eq_some.2 ((hmem _ _).1 hin),
        join_sourceDir hroot c (hproper _ hin)⟩
    · rintro ⟨hdef, hfile, rfl⟩
      have hin := (hmem n (.file content)).2 (Tree.fileAt?_eq_some.1 hfile)
      exact ⟨hin, hdef, (join_sourceDir hroot c (hproper _ hin)).symm⟩

/-- A directory of definitions that can be listed stays so. -/
theorem listable_of_ready {u : Session} (hsu : Alike p strict s u) (hstrict : strict) (c : Category)
    {r : Option (List (Bytes × Entry))}
    (h : (Task.listDir (ofNames true (p.sourcePlace c))).Gives s r s') :
    ∃ r', (Task.listDir (ofNames true (p.sourcePlace c))).Gives u r' u := by
  have hproper : ∀ n ∈ p.sourcePlace c, Path.Proper n := Project.proper_place hroot _
  obtain ⟨hname, hready⟩ := (hsu.ready hstrict).1.definitions c
  obtain ⟨-, hplace, -⟩ := gives_listDir_ofNames hsu.left.tree hproper h
  -- in the first tree there is no file at the place or above it
  have hclear : ∀ w, w <+: p.sourcePlace c → s.tree.fileAt? w = none := by
    intro w hw
    by_cases hne : w = p.sourcePlace c
    · rw [hne, Tree.fileAt?]
      obtain ⟨-, hnone, -⟩ | ⟨-, hdir, -⟩ := hplace
      · rw [hnone]
      · rw [hdir]
    · obtain ⟨-, -, hopen⟩ | ⟨-, hdir, -⟩ := hplace
      · exact hopen w hw hne
      · exact hsu.left.tree.open_of_get? hdir w hw hne
  have hfile := hready _ (List.prefix_refl _) (hclear _ (List.prefix_refl _))
  cases hget : u.tree.get? (p.sourcePlace c) with
  | none =>
    obtain ⟨e, he, hfault⟩ := (Tree.notFound_of_open u.cwd hproper hget hname
      fun w hw _ => hready w hw (hclear w hw)).2
    exact ⟨none, Task.gives_listDir.2 ⟨rfl, .inr ⟨e, he, hfault, rfl⟩⟩⟩
  | some entry =>
    cases entry with
    | file content => simp [Tree.fileAt?, hget] at hfile
    | dir =>
      exact ⟨_, Task.gives_listDir.2 ⟨rfl,
      .inl ⟨_, Tree.readDir_of_get? hsu.right.tree u.cwd hget hname, rfl⟩⟩⟩

theorem agrees_sources (c : Category) :
    Agrees p strict (p.sources (c.sourceDir p.settings)) fun files =>
      ∀ path ∈ files, p.IsDefinitionPath path := by
  intro s u hsu files s' hs
  refine ⟨fun hstrict => ?_, fun files' u' hu => ?_⟩
  · obtain ⟨r, s₁, hlist, -⟩ := Task.gives_bind.1 hs
    rw [Project.place_eq hroot (c.sourceDir p.settings)] at hlist
    obtain ⟨r', hr'⟩ := listable_of_ready hroot hsu hstrict c hlist
    refine ⟨_, u, Task.gives_bind.2 ⟨r', u, ?_, Task.gives_pure.2 ⟨rfl, rfl⟩⟩⟩
    rw [Project.place_eq hroot (c.sourceDir p.settings)]
    exact hr'
  · obtain ⟨rfl, hasc, hmem⟩ := gives_sources hroot hsu.left hs
    obtain ⟨rfl, hasc', hmem'⟩ := gives_sources hroot hsu.right hu
    refine ⟨hasc.eq hasc' fun path => ?_, fun path hpath => ?_, hsu⟩
    · rw [hmem, hmem']
      refine exists_congr fun n => exists_congr fun content => and_congr_right fun hdef => ?_
      rw [hsu.inputs.definitions c n hdef]
    · obtain ⟨n, content, hdef, hfile, rfl⟩ := (hmem path).1 hpath
      have hproper := hsu.left.tree.proper_of_get? (Tree.fileAt?_eq_some.1 hfile)
      exact ⟨c, n, hdef, hproper n (by simp), rfl⟩

end

/-! ## Module files -/

theorem agrees_importPath (hx : ∀ n ∈ x, Path.Proper n) :
    Agrees p strict (p.importPath (ofNames true x)) fun _ => True := by
  unfold Project.importPath
  split_ifs with hempty
  · intro s u hsu a s' hs
    obtain ⟨rfl, z, text, module, hz, hfile, hmodule, rfl⟩ :=
      (gives_findImportPath hsu.left.tree hx).1 hs
    have hfile' : u.tree.fileAt? (z ++ [moduleFile]) = some text := hsu.inputs.modules z ▸ hfile
    have hthere : HasModuleFile u.tree z := ⟨hz.has.1, _, Tree.fileAt?_eq_some.1 hfile'⟩
    refine ⟨fun hstrict => ?_, fun b u' hu => ?_⟩
    · -- no other module file has come up on the way
      have hnear : Nearest u.tree x z := by
        refine ⟨hz.above, hthere, fun w hzw hwx hw => hz.between w hzw hwx ⟨hw.1, ?_⟩⟩
        obtain ⟨e, he⟩ := hw.2
        by_contra hnone
        rw [(hsu.ready hstrict).1.modules hempty w
          (Option.eq_none_iff_forall_ne_some.2 (not_exists.1 hnone))] at he
        cases he
      exact ⟨_, u, (gives_findImportPath hsu.right.tree hx).2 ⟨rfl, z, text, module, hnear, hfile',
        hmodule, rfl⟩⟩
    · obtain ⟨rfl, z', text', module', hz', hread, hmodule', rfl⟩ :=
        (gives_findImportPath hsu.right.tree hx).1 hu
      have hother : s'.tree.fileAt? (z' ++ [moduleFile]) = some text' :=
        hsu.inputs.modules z' ▸ hread
      obtain rfl := hz.eq_of_has hz' ⟨hz'.has.1, _, Tree.fileAt?_eq_some.1 hother⟩ hthere
      obtain rfl := Option.some.inj (hfile'.symm.trans hread)
      obtain rfl := Option.some.inj (hmodule.symm.trans hmodule')
      exact ⟨rfl, trivial, hsu⟩
  · exact Agrees.pure trivial

theorem agrees_typesImport (hroot : isAbs p.root) :
    Agrees p strict p.typesImport fun _ => True := by
  unfold Project.typesImport
  split_ifs
  · exact Agrees.pure trivial
  · rw [Project.place_eq hroot]
    exact agrees_importPath (Project.proper_place hroot _)

theorem agrees_categoryImport (hroot : isAbs p.root) (c : Category) :
    Agrees p strict (p.categoryImport c) fun _ => True := by
  rw [Project.categoryImport, Project.categoryDir_eq hroot]
  exact agrees_importPath (Project.proper_categoryPlace hroot c)

end AccessLayer.Layer
