import AccessLayer.Proofs.LastWins
import AccessLayer.Proofs.Layer.Making

/-!
# What a pass stores

Making modules reads files and templates and stores each module under its stem, where a later module
takes the place of an earlier one. When it succeeds and with what is read off the session in which
it starts.

* `ModuleOf`: the module of an artifact.
* `settles_addModule`, `settles_foldlM_put`: modules are made one by one and stored in order.
* `gathers_foldl_put`: of the modules with one name, the last one is kept.
-/

namespace AccessLayer.Layer

variable {α β γ : Type} {p : Project} {s s' v : Session} {c : Category} {a : Artifact}
  {r : CategoryResult} {name : Bytes} {xs : List γ}

/-! ## Templates of a session -/

/-- The template that a session has: one that it has read, or else the one that it will read. -/
def Loads (p : Project) (s : Session) (name : TemplateName) (loaded : LoadedTemplate) : Prop :=
  s.templates.lookup name = some loaded ∨ s.templates.lookup name = none ∧ Fetches p s name loaded

theorem Fetches.unique {name : TemplateName} {t t' : LoadedTemplate} (h : Fetches p s name t)
    (h' : Fetches p s name t') : t = t' := by
  obtain ⟨hdir, rfl⟩ | ⟨dir, hdir, h⟩ := h
  · obtain ⟨-, rfl⟩ | ⟨dir, hdir', -⟩ := h'
    · rfl
    · rw [hdir] at hdir'
      cases hdir'
  · obtain ⟨hdir', -⟩ | ⟨dir', hdir', h'⟩ := h'
    · rw [hdir] at hdir'
      cases hdir'
    · obtain rfl := Option.some.inj (hdir.symm.trans hdir')
      obtain ⟨text, parts, hread, hparse, rfl⟩ | ⟨e, hread, -, rfl⟩ := h
      · obtain ⟨text', parts', hread', hparse', rfl⟩ | ⟨e, hread', -, -⟩ := h'
        · obtain rfl := Except.ok.inj (hread.symm.trans hread')
          obtain rfl := Option.some.inj (hparse.symm.trans hparse')
          rfl
        · rw [hread] at hread'
          cases hread'
      · obtain ⟨text', parts', hread', -, -⟩ | ⟨e', -, -, rfl⟩ := h'
        · rw [hread] at hread'
          cases hread'
        · rfl

theorem Loads.unique {name : TemplateName} {t t' : LoadedTemplate} (h : Loads p s name t)
    (h' : Loads p s name t') : t = t' := by
  obtain h | ⟨hnone, h⟩ := h
  · obtain h' | ⟨hnone, -⟩ := h'
    · exact Option.some.inj (h.symm.trans h')
    · rw [h] at hnone
      cases hnone
  · obtain h' | ⟨-, h'⟩ := h'
    · rw [hnone] at h'
      cases h'
    · exact h.unique h'

/-- Nothing has changed that making modules depends on. -/
structure Undisturbed (p : Project) (s s' : Session) : Prop where
  tree : s'.tree = s.tree
  cwd : s'.cwd = s.cwd
  loads : ∀ name t, Loads p s' name t ↔ Loads p s name t

theorem Undisturbed.refl (p : Project) (s : Session) : Undisturbed p s s :=
  ⟨rfl, rfl, fun _ _ => Iff.rfl⟩

theorem Undisturbed.trans {s'' : Session} (h : Undisturbed p s s') (h' : Undisturbed p s' s'') :
    Undisturbed p s s'' :=
  ⟨h'.tree.trans h.tree, h'.cwd.trans h.cwd, fun name t => (h'.loads name t).trans (h.loads name t)⟩

/-! ## Results of tasks -/

/-- The task succeeds in the session with exactly the results of the property, and it disturbs
nothing. -/
structure Settles (p : Project) (s : Session) (x : Task α) (post : α → Prop) : Prop where
  post_of_gives : ∀ ⦃a s'⦄, x.Gives s a s' → post a ∧ Undisturbed p s s'
  gives_of_post : ∀ ⦃a⦄, post a → ∃ s', x.Gives s a s'

namespace Settles

variable {x : Task α} {post : α → Prop}

theorem exists_gives_iff (h : Settles p s x post) {a : α} : (∃ s', x.Gives s a s') ↔ post a :=
  ⟨fun ⟨_, ha⟩ => (h.post_of_gives ha).1, fun ha => h.gives_of_post ha⟩

theorem congr {post' : α → Prop} (h : Settles p s x post) (hpost : ∀ a, post a ↔ post' a) :
    Settles p s x post' :=
  ⟨fun a _ ha => (h.post_of_gives ha).imp_left (hpost a).1, fun a ha =>
    h.gives_of_post ((hpost a).2 ha)⟩

theorem pure (a : α) : Settles p s (Pure.pure a : Task α) (· = a) := by
  refine ⟨fun b s' h => ?_, ?_⟩
  · obtain ⟨rfl, rfl⟩ := Task.gives_pure.1 h
    exact ⟨rfl, .refl p s'⟩
  · rintro b rfl
    exact ⟨s, Task.gives_pure.2 ⟨rfl, rfl⟩⟩

theorem throw (e : Failure) : Settles p s (throwThe Failure e : Task α) fun _ => False :=
  ⟨fun _ _ h => absurd h Task.not_gives_throw, fun _ h => h.elim⟩

theorem bind {f : α → Task β} {q : α → β → Prop} (hx : Settles p s x post)
    (hf : ∀ a v, post a → Undisturbed p s v → Settles p v (f a) (q a)) :
    Settles p s (x >>= f) fun b => ∃ a, post a ∧ q a b := by
  refine ⟨fun b s' h => ?_, ?_⟩
  · obtain ⟨a, v, hxv, hfv⟩ := Task.gives_bind.1 h
    obtain ⟨ha, hv⟩ := hx.post_of_gives hxv
    obtain ⟨hb, hs'⟩ := (hf a v ha hv).post_of_gives hfv
    exact ⟨⟨a, ha, hb⟩, hv.trans hs'⟩
  · rintro b ⟨a, ha, hb⟩
    obtain ⟨v, hxv⟩ := hx.gives_of_post ha
    obtain ⟨s', hfv⟩ := (hf a v ha (hx.post_of_gives hxv).2).gives_of_post hb
    exact ⟨s', Task.gives_bind.2 ⟨a, v, hxv, hfv⟩⟩

/-- A note in the session that neither files nor templates depend on. -/
theorem log (line : Bytes) : Settles p s (Task.log line) fun _ => True := by
  refine ⟨fun _ s' h => ⟨trivial, ?_⟩, fun _ _ => ⟨_, Task.gives_modify.2 rfl⟩⟩
  obtain rfl := Task.gives_modify.1 h
  exact ⟨rfl, rfl, fun _ _ => Iff.rfl⟩

theorem readFile (path : Bytes) : Settles p s (Task.readFile path) fun text =>
    s.tree.readFile s.cwd path = .ok text := by
  refine ⟨fun text s' h => ?_, fun text h => ⟨s, Task.gives_readFile.2 ⟨h, rfl⟩⟩⟩
  obtain ⟨hread, rfl⟩ := Task.gives_readFile.1 h
  exact ⟨hread, .refl p s'⟩

theorem loadTemplate (task : RenderTask) (name : TemplateName) :
    Settles p s (Layer.loadTemplate p task name) (Loads p s name) := by
  refine ⟨fun t s' h => ?_, fun t h => ?_⟩
  · obtain ⟨hlookup, rfl⟩ | ⟨hlookup, hfetch, rfl⟩ := gives_loadTemplate.1 h
    · exact ⟨.inl hlookup, .refl p s'⟩
    · -- the template that is noted is the one that the session had before
      refine ⟨.inr ⟨hlookup, hfetch⟩, rfl, rfl, fun other t' => ?_⟩
      by_cases hname : other = name
      · subst hname
        constructor
        · rintro (hfound | ⟨hfound, -⟩)
          · rw [List.lookup_cons, beq_self_eq_true] at hfound
            cases hfound
            exact .inr ⟨hlookup, hfetch⟩
          · rw [List.lookup_cons, beq_self_eq_true] at hfound
            cases hfound
        · intro hold
          refine .inl ?_
          rw [List.lookup_cons, beq_self_eq_true, hold.unique (.inr ⟨hlookup, hfetch⟩)]
      · have hsame : List.lookup other ((name, t) :: s.templates) = s.templates.lookup other := by
          rw [List.lookup_cons, beq_false_of_ne hname]
        simp only [Loads, hsame]
        exact Iff.rfl
  · obtain hlookup | ⟨hlookup, hfetch⟩ := h
    · exact ⟨s, gives_loadTemplate.2 (.inl ⟨hlookup, rfl⟩)⟩
    · exact ⟨_, gives_loadTemplate.2 (.inr ⟨hlookup, hfetch, rfl⟩)⟩

end Settles

/-! ## Modules -/

/-- The text of a file in a session. -/
def RendersTo (p : Project) (s : Session) (a : Artifact) (content : Bytes) : Prop :=
  ∃ t, Loads p s a.template t ∧ (unformatted a t).toOption.bind Go.format = some content

theorem RendersTo.unique {content content' : Bytes} (h : RendersTo p s a content)
    (h' : RendersTo p s a content') : content = content' := by
  obtain ⟨t, ht, htext⟩ := h
  obtain ⟨t', ht', htext'⟩ := h'
  obtain rfl := ht.unique ht'
  exact Option.some.inj (htext.symm.trans htext')

/-- By the built-in template, a file is the text of its source, formatted. -/
theorem rendersTo_iff {content : Bytes} (h : Loads p s a.template .builtIn) :
    RendersTo p s a content ↔ Go.format a.source.text = some content := by
  constructor
  · rintro ⟨t, ht, htext⟩
    obtain rfl := ht.unique h
    exact htext
  · exact fun htext => ⟨.builtIn, h, htext⟩

theorem Undisturbed.rendersTo (h : Undisturbed p s v) (a : Artifact) (content : Bytes) :
    RendersTo p v a content ↔ RendersTo p s a content :=
  exists_congr fun t => and_congr_left fun _ => h.loads a.template t

theorem settles_render (task : RenderTask) (a : Artifact) :
    Settles p s (render p task a) (RendersTo p s a) := by
  refine (Settles.loadTemplate task a.template).bind fun t v _ hv => ?_
  cases hfill : unformatted a t with
  | error fault => exact (Settles.throw _).congr fun _ => by simp [Except.toOption]
  | ok text =>
    dsimp only
    cases hformat : Go.format text with
    | none => exact (Settles.throw _).congr fun _ => by simp [Except.toOption, hformat]
    | some formatted =>
      refine (Settles.pure _).congr fun content => ?_
      simp [Except.toOption, hformat, eq_comm]

/-- The module of an artifact in a package: stored under the stem of its name, with the text of the
artifact. -/
structure ModuleOf (p : Project) (s : Session) (c : Category) (name : Bytes) (a : Artifact)
    (m : Module) : Prop where
  name_eq : m.name = Naming.fileStem name
  path_eq : m.path = Path.join [p.categoryDir c, Naming.fileStem name ++ goExtension]
  renders : RendersTo p s a m.content

theorem ModuleOf.unique {m n : Module} (h : ModuleOf p s c name a m)
    (h' : ModuleOf p s c name a n) : m = n := by
  obtain ⟨_, _, content⟩ := m
  obtain ⟨_, _, content'⟩ := n
  obtain ⟨rfl, rfl, hcontent⟩ := h
  obtain ⟨rfl, rfl, hcontent'⟩ := h'
  obtain rfl := hcontent.unique hcontent'
  rfl

theorem exists_moduleOf_iff : (∃ m, ModuleOf p s c name a m) ↔ ∃ content, RendersTo p s a content :=
  ⟨fun ⟨_, hm⟩ => ⟨_, hm.renders⟩, fun ⟨_, hcontent⟩ => ⟨⟨_, _, _⟩, rfl, rfl, hcontent⟩⟩

theorem Undisturbed.moduleOf (h : Undisturbed p s v) (m : Module) :
    ModuleOf p v c name a m ↔ ModuleOf p s c name a m :=
  ⟨fun hm => ⟨hm.name_eq, hm.path_eq, (h.rendersTo a _).1 hm.renders⟩,
    fun hm => ⟨hm.name_eq, hm.path_eq, (h.rendersTo a _).2 hm.renders⟩⟩

theorem foldl_put_category (ms : List Module) (r : CategoryResult) :
    (ms.foldl CategoryResult.put r).category = r.category := by
  induction ms generalizing r with
  | nil => rfl
  | cons m ms ih => rw [List.foldl_cons, ih, put_category]

theorem settles_addModule (hr : r.category = c) (name : Bytes) (a : Artifact) :
    Settles p s (addModule p r name a) fun r' => ∃ m, ModuleOf p s c name a m ∧ r' = r.put m := by
  subst hr
  refine ((settles_render _ a).bind (q := fun content r' => r' = r.put ⟨Naming.fileStem name,
    Path.join [p.categoryDir r.category, Naming.fileStem name ++ goExtension], content⟩)
    fun content v _ _ => ?_).congr fun r' => ?_
  · split_ifs
    · exact ((Settles.log _).bind fun _ _ _ _ => Settles.pure _).congr fun r' => by simp
    · exact Settles.pure _
  · constructor
    · rintro ⟨content, hcontent, rfl⟩
      exact ⟨_, ⟨rfl, rfl, hcontent⟩, rfl⟩
    · rintro ⟨⟨_, _, content⟩, ⟨rfl, rfl, hcontent⟩, rfl⟩
      exact ⟨content, hcontent, rfl⟩

theorem settles_foldlM_put {f : CategoryResult → γ → Task CategoryResult}
    {R : γ → List Module → Prop} (hf : ∀ r x v, r.category = c → Undisturbed p s v →
      Settles p v (f r x) fun r' => ∃ ms, R x ms ∧ r' = ms.foldl CategoryResult.put r)
    (hr : r.category = c) (hv : Undisturbed p s v) :
    Settles p v (xs.foldlM f r) fun r' =>
      ∃ mss, List.Forall₂ R xs mss ∧ r' = mss.flatten.foldl CategoryResult.put r := by
  induction xs generalizing r v with
  | nil =>
    refine (Settles.pure r).congr fun r' => ?_
    simp
  | cons x xs ih =>
    rw [List.foldlM_cons]
    have hrest : ∀ r₁ w, (∃ ms, R x ms ∧ r₁ = ms.foldl CategoryResult.put r) → Undisturbed p v w →
        Settles p w (xs.foldlM f r₁) fun r' =>
          ∃ mss, List.Forall₂ R xs mss ∧ r' = mss.flatten.foldl CategoryResult.put r₁ := by
      rintro r₁ w ⟨ms, -, rfl⟩ hw
      exact ih (by rw [foldl_put_category, hr]) (hv.trans hw)
    refine ((hf r x v hr hv).bind hrest).congr fun r' => ?_
    constructor
    · rintro ⟨_, ⟨ms, hms, rfl⟩, mss, hmss, rfl⟩
      exact ⟨ms :: mss, .cons hms hmss, by rw [List.flatten_cons, List.foldl_append]⟩
    · rintro ⟨_, hall, rfl⟩
      cases hall with
      | @cons _ ms _ mss hms hmss =>
        exact ⟨_, ⟨ms, hms, rfl⟩, mss, hmss, by rw [List.flatten_cons, List.foldl_append]⟩

theorem exists_forall₂_iff {R : α → β → Prop} {xs : List α} :
    (∃ ys, List.Forall₂ R xs ys) ↔ ∀ x ∈ xs, ∃ y, R x y := by
  induction xs with
  | nil => simp
  | cons x xs ih =>
    simp only [List.forall₂_cons_left_iff, List.forall_mem_cons, ← ih]
    constructor
    · rintro ⟨_, y, ys, hy, hys, rfl⟩
      exact ⟨⟨y, hy⟩, ys, hys⟩
    · rintro ⟨⟨y, hy⟩, ys, hys⟩
      exact ⟨y :: ys, y, ys, hy, hys, rfl⟩

theorem forall₂_append_left_iff {R : α → β → Prop} {xs ys : List α} {zs : List β} :
    List.Forall₂ R (xs ++ ys) zs ↔ ∃ as bs, List.Forall₂ R xs as ∧ List.Forall₂ R ys bs ∧
      zs = as ++ bs := by
  induction xs generalizing zs with
  | nil => simp
  | cons x xs ih =>
    rw [List.cons_append, List.forall₂_cons_left_iff]
    constructor
    · rintro ⟨b, zs, hb, hrest, rfl⟩
      obtain ⟨as, bs, has, hbs, rfl⟩ := ih.1 hrest
      exact ⟨b :: as, bs, .cons hb has, hbs, rfl⟩
    · rintro ⟨_, bs, hall, hbs, rfl⟩
      cases hall with
      | @cons _ a _ as ha has => exact ⟨a, _, ha, ih.2 ⟨as, bs, has, hbs, rfl⟩, rfl⟩

theorem forall₂_singleton {R : γ → Module → Prop} {mss : List (List Module)} :
    List.Forall₂ (fun x ms => ∃ m, R x m ∧ ms = [m]) xs mss ↔
      ∃ ms, List.Forall₂ R xs ms ∧ mss = ms.map ([·]) := by
  induction xs generalizing mss with
  | nil => simp
  | cons x xs ih =>
    rw [List.forall₂_cons_left_iff]
    constructor
    · rintro ⟨_, mss, ⟨m, hm, rfl⟩, hmss, rfl⟩
      obtain ⟨ms, hms, rfl⟩ := ih.1 hmss
      exact ⟨m :: ms, .cons hm hms, rfl⟩
    · rintro ⟨_, hall, rfl⟩
      cases hall with
      | @cons _ m _ ms hm hms => exact ⟨[m], _, ⟨m, hm, rfl⟩, ih.2 ⟨ms, hms, rfl⟩, rfl⟩

theorem settles_foldlM_addModule (name : γ → Bytes) (artifact : γ → Artifact) (hr : r.category = c)
    (hv : Undisturbed p s v) :
    Settles p v (xs.foldlM (fun r x => addModule p r (name x) (artifact x)) r) fun r' =>
      ∃ ms, List.Forall₂ (fun x m => ModuleOf p s c (name x) (artifact x) m) xs ms ∧
        r' = ms.foldl CategoryResult.put r := by
  refine (settles_foldlM_put (R := fun x ms => ∃ m, ModuleOf p s c (name x) (artifact x) m ∧
    ms = [m])
    (fun r x w hr hw => (settles_addModule hr _ _).congr fun r' => ?_) hr hv).congr fun r' => ?_
  · constructor
    · rintro ⟨m, hm, rfl⟩
      exact ⟨[m], ⟨m, (hw.moduleOf m).1 hm, rfl⟩, rfl⟩
    · rintro ⟨_, ⟨m, hm, rfl⟩, rfl⟩
      exact ⟨m, (hw.moduleOf m).2 hm, rfl⟩
  · simp only [forall₂_singleton]
    constructor
    · rintro ⟨_, ⟨ms, hms, rfl⟩, rfl⟩
      exact ⟨ms, hms, by rw [← List.flatMap_def, List.flatMap_singleton']⟩
    · rintro ⟨ms, hms, rfl⟩
      exact ⟨_, ⟨ms, hms, rfl⟩, by rw [← List.flatMap_def, List.flatMap_singleton']⟩

/-! ## Modules with one name -/

theorem put_modules (r : CategoryResult) (m : Module) :
    (r.put m).modules = upsert Module.name r.modules m := by
  unfold CategoryResult.put CategoryResult.has upsert
  split_ifs <;> rfl

theorem gathers_foldl_put (c : Category) (ms : List Module) :
    Gathers Module.name ms (ms.foldl CategoryResult.put { category := c }).modules := by
  have hfold : ∀ r : CategoryResult,
      (ms.foldl CategoryResult.put r).modules = ms.foldl (upsert Module.name) r.modules := by
    induction ms with
    | nil => exact fun _ => rfl
    | cons m ms ih =>
      intro r
      rw [List.foldl_cons, ih, put_modules, List.foldl_cons]
  rw [hfold]
  exact Gathers.nil.foldl ms

end AccessLayer.Layer
