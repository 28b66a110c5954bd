import AccessLayer.Proofs.Layer.Modules
import AccessLayer.Proofs.Layer.StatementCalls

/-!
# Calls of event functions

The handler of an event calls the function of one event of its file. That function is in the module
of the event, which a pass makes only for some of the events.

* `HasModule`: a module that is made for an event.
* `settles_makeUnits`: a pass over a directory of definitions.
* `Fires`: a file that gives an event a module.
* `eventTarget_module_iff`: when the event that a handler calls has a module.
-/

namespace AccessLayer.Layer

open Bytes Naming

variable {p : Project} {s s' : Session} {files : List Bytes} {statements : List Surql.Statement}
  {name event : Bytes} {units : List EventUnit} {ms : List Module}

/-! ## Definition files -/

/-- The statements of a definition file. -/
def statementsAt? (s : Session) (path : Bytes) : Option (List Surql.Statement) :=
  (s.tree.readFile s.cwd path).toOption.bind fun text => (Surql.parse text).toOption

/-- The events of a definition file that get a module. -/
def unitsAt (s : Session) (path : Bytes) : List EventUnit :=
  ((statementsAt? s path).map EventUnit.ofStatements).getD []

/-- The events of the definition files that get a module, in order. -/
def eventUnits (s : Session) (files : List Bytes) : List EventUnit := files.flatMap (unitsAt s)

/-- The file defines the event, the table of its name and a field of that table other than the id
that takes a value from the caller. -/
def Fires (s : Session) (path event : Bytes) : Prop :=
  ∃ statements, statementsAt? s path = some statements ∧
    (∃ e ∈ Surql.events statements, e.name = event) ∧
    (∃ t ∈ Surql.tables statements, t.name = event) ∧
    ∃ f ∈ Record.fieldsOf (Surql.fields statements) event,
      f.name ≠ Record.idName ∧ Record.usesValue f.value = true

theorem payloadDefs_ne_nil :
    EventUnit.payloadDefs statements event ≠ [] ↔
      ∃ f ∈ Record.fieldsOf (Surql.fields statements) event,
      f.name ≠ Record.idName ∧ Record.usesValue f.value := by
  rw [EventUnit.payloadDefs, Ne, List.filter_eq_nil_iff]
  simp

/-- An event gets a module if its table is defined with a field that takes a value. -/
theorem exists_ofEvent?_iff :
    (∃ w, EventUnit.ofEvent? statements name = some w) ↔
      (∃ t ∈ Surql.tables statements, t.name = name) ∧
        EventUnit.payloadDefs statements name ≠ [] := by
  have htable : (Surql.tables statements).any (·.name == name) = true ↔
      ∃ t ∈ Surql.tables statements, t.name = name := by simp
  unfold EventUnit.ofEvent?
  rw [← htable]
  split_ifs with h
  · cases EventUnit.payloadDefs statements name <;> simp [h]
  · simp [h]

theorem ofEvent?_eq_some {w : EventUnit} (h : EventUnit.ofEvent? statements name = some w) :
    w.name = name ∧ w.fields =
      Record.goFields (Record.structFields (EventUnit.payloadDefs statements name) false) := by
  unfold EventUnit.ofEvent? at h
  split_ifs at h
  cases hdefs : EventUnit.payloadDefs statements name with
  | nil =>
    rw [hdefs] at h
    cases h
  | cons f fs =>
    rw [hdefs] at h
    cases h
    exact ⟨rfl, rfl⟩

/-- An event of a file gets a module if and only if the file fires it. -/
theorem exists_unitAt_iff {path : Bytes} :
    (∃ w ∈ unitsAt s path, w.name = event) ↔ Fires s path event := by
  unfold unitsAt Fires
  cases statementsAt? s path with
  | none => simp
  | some statements =>
    simp only [Option.map_some, Option.getD_some, Option.some.injEq, exists_eq_left',
      EventUnit.ofStatements, List.mem_filterMap, ← payloadDefs_ne_nil, ← exists_ofEvent?_iff]
    constructor
    · rintro ⟨w, ⟨e, he, hw⟩, rfl⟩
      rw [(ofEvent?_eq_some hw).1] at *
      exact ⟨⟨e, he, rfl⟩, w, hw⟩
    · rintro ⟨⟨e, he, rfl⟩, w, hw⟩
      exact ⟨w, ⟨e, he, hw⟩, (ofEvent?_eq_some hw).1⟩

/-! ## The pass over the events -/

/-- The pass over the events can be made: its files can be found, read and parsed, and the modules
can be rendered. -/
structure EventPass (p : Project) (s : Session) (files : List Bytes) : Prop where
  found : (p.sources p.settings.paths.events).Gives s files s
  parsed : ∀ path ∈ files, ∃ statements, statementsAt? s path = some statements
  rendered : ∀ w ∈ eventUnits s files, ∃ content, RendersTo p s w.artifact content

theorem settles_sources (dir : Bytes) :
    Settles p s (p.sources dir) fun files => (p.sources dir).Gives s files s := by
  refine ⟨fun files s' h => ?_, fun files h => ⟨s, h⟩⟩
  obtain ⟨entries, s₁, hlist, hpure⟩ := Task.gives_bind.1 h
  obtain ⟨-, rfl⟩ := Task.gives_pure.1 hpure
  obtain ⟨rfl, -⟩ := Task.gives_listDir.1 hlist
  exact ⟨h, .refl p s'⟩

theorem settles_statements (c : Category) (path : Bytes) :
    Settles p s (p.statements c path) fun statements => statementsAt? s path = some statements := by
  refine ((Settles.readFile path).bind (q := fun text statements =>
    Surql.parse text = .ok statements)
    fun text v _ _ => ?_).congr fun statements => ?_
  · cases Surql.parse text with
    | error e => exact (Settles.throw _).congr fun _ => by simp
    | ok parsed => exact (Settles.pure parsed).congr fun _ => by simp [eq_comm]
  · simp only [statementsAt?, Option.bind_eq_some_iff, toOption_eq_some]

theorem Undisturbed.statementsAt? {v : Session} (h : Undisturbed p s v) (path : Bytes) :
    Layer.statementsAt? v path = Layer.statementsAt? s path := by
  rw [Layer.statementsAt?, Layer.statementsAt?, h.tree, h.cwd]

/-- The modules of the units of the definition file `path`, in order. -/
def UnitModules {α : Type} (p : Project) (s : Session) (c : Category)
    (units : List Surql.Statement → List α) (name : α → Bytes) (artifact : α → Artifact)
    (path : Bytes) (ms : List Module) : Prop :=
  ∃ statements, statementsAt? s path = some statements ∧
    List.Forall₂ (fun u m => ModuleOf p s c (name u) (artifact u) m) (units statements) ms

/-- A pass over a directory makes the modules of the units of all its definition files, and stores
them in order. -/
theorem settles_makeUnits {α : Type} (c : Category) (dir : Bytes)
    (units : List Surql.Statement → List α) (name : α → Bytes) (artifact : α → Artifact) :
    Settles p s (do
      let files ← p.sources dir
      files.foldlM (fun r path => do
        let statements ← p.statements c path
        (units statements).foldlM (fun r u => addModule p r (name u) (artifact u)) r)
        { category := c }) fun r =>
      ∃ files, (p.sources dir).Gives s files s ∧
        ∃ mss, List.Forall₂ (UnitModules p s c units name artifact) files mss ∧
          r = mss.flatten.foldl CategoryResult.put { category := c } := by
  refine (settles_sources dir).bind fun files v _ hv => ?_
  refine settles_foldlM_put (fun r path w hr hw => ?_) rfl hv
  refine ((settles_statements c path).bind fun statements x _ hx =>
    settles_foldlM_addModule name artifact hr (hw.trans hx)).congr fun r' => ?_
  rw [hw.statementsAt?]
  constructor
  · rintro ⟨statements, hstatements, ms, hms, rfl⟩
    exact ⟨ms, ⟨statements, hstatements, hms⟩, rfl⟩
  · rintro ⟨ms, ⟨statements, hstatements, hms⟩, rfl⟩
    exact ⟨statements, hstatements, ms, hms, rfl⟩

abbrev EventUnit.IsModule (p : Project) (s : Session) (w : EventUnit) (m : Module) : Prop :=
  ModuleOf p s .events w.name w.artifact m

/-- The modules of the events of a definition file, in order. -/
abbrev FileModules (p : Project) (s : Session) : Bytes → List Module → Prop :=
  UnitModules p s .events EventUnit.ofStatements EventUnit.name EventUnit.artifact

theorem fileModules_iff {path : Bytes} : FileModules p s path ms ↔
    (∃ statements, statementsAt? s path = some statements) ∧
      List.Forall₂ (EventUnit.IsModule p s) (unitsAt s path) ms := by
  unfold FileModules UnitModules unitsAt
  cases statementsAt? s path <;> simp

theorem exists_fileModules_iff :
    (∃ mss, List.Forall₂ (FileModules p s) files mss ∧ ms = mss.flatten) ↔
      (∀ path ∈ files, ∃ statements, statementsAt? s path = some statements) ∧
        List.Forall₂ (EventUnit.IsModule p s) (eventUnits s files) ms := by
  induction files generalizing ms with
  | nil => simp [eventUnits]
  | cons path files ih =>
    simp only [eventUnits, List.flatMap_cons, forall₂_append_left_iff, List.forall_mem_cons] at ih ⊢
    constructor
    · rintro ⟨_, hall, rfl⟩
      cases hall with
      | @cons _ as _ mss hfirst hrest =>
        obtain ⟨hparsed, hmodules⟩ := ih.1 ⟨mss, hrest, rfl⟩
        obtain ⟨hstatements, has⟩ := fileModules_iff.1 hfirst
        exact ⟨⟨hstatements, hparsed⟩, as, mss.flatten, has, hmodules, rfl⟩
    · rintro ⟨⟨hfirst, hparsed⟩, as, bs, has, hbs, rfl⟩
      obtain ⟨mss, hmss, rfl⟩ := ih.2 ⟨hparsed, hbs⟩
      exact ⟨as :: mss, .cons (fileModules_iff.2 ⟨hfirst, has⟩) hmss, rfl⟩

theorem settles_makeEvents : Settles p s (makeEvents p) fun r =>
    ∃ files, (p.sources p.settings.paths.events).Gives s files s ∧
      ∃ mss, List.Forall₂ (FileModules p s) files mss ∧
        r = mss.flatten.foldl CategoryResult.put { category := .events } :=
  settles_makeUnits .events _ _ _ _

/-! ## Modules of events -/

def IsLast (units : List EventUnit) (x : EventUnit) : Prop :=
  ∃ before after, units = before ++ x :: after ∧ ∀ y ∈ after, fileStem y.name ≠ fileStem x.name

theorem exists_isLast {w : EventUnit} (hw : w ∈ units) :
    ∃ x ∈ units, IsLast units x ∧ fileStem x.name = fileStem w.name := by
  obtain ⟨x, hx⟩ := isSome_lastOf?_iff.2 (List.mem_map_of_mem (f := fun w => fileStem w.name) hw)
  obtain ⟨before, after, hunits, hstem, hlast⟩ := lastOf?_eq_some_iff.1 hx
  exact ⟨x, by simp [hunits], ⟨before, after, hunits, hstem ▸ hlast⟩, hstem⟩

theorem forall_name_ne_iff (h : List.Forall₂ (EventUnit.IsModule p s) units ms) {stem : Bytes} :
    (∀ n ∈ ms, n.name ≠ stem) ↔ ∀ y ∈ units, fileStem y.name ≠ stem := by
  induction h with
  | nil => simp
  | cons hm _ ih => rw [List.forall_mem_cons, List.forall_mem_cons, ih, hm.name_eq]

/-- The modules that are kept are those of the units that are the last ones with their stems. -/
theorem mem_stored_iff (h : List.Forall₂ (EventUnit.IsModule p s) units ms) {m : Module} :
    m ∈ (ms.foldl CategoryResult.put { category := .events }).modules ↔
      ∃ x, IsLast units x ∧ EventUnit.IsModule p s x m := by
  rw [(gathers_foldl_put .events ms).mem_iff, lastOf?_eq_some_iff]
  constructor
  · rintro ⟨before, after, rfl, -, hafter⟩
    obtain ⟨as, _, -, hrest, rfl⟩ := forall₂_append_left_iff.1 (List.Forall₂.flip h)
    obtain ⟨x, bs, hx, hbs, rfl⟩ := List.forall₂_cons_left_iff.1 hrest
    have hm : EventUnit.IsModule p s x m := hx
    rw [hm.name_eq, forall_name_ne_iff (List.Forall₂.flip hbs)] at hafter
    exact ⟨x, ⟨as, bs, rfl, hafter⟩, hm⟩
  · rintro ⟨x, ⟨before, after, rfl, hlast⟩, hm⟩
    obtain ⟨as, _, -, hrest, rfl⟩ := forall₂_append_left_iff.1 h
    obtain ⟨n, bs, hn, hbs, rfl⟩ := List.forall₂_cons_left_iff.1 hrest
    obtain rfl := hm.unique hn
    refine ⟨as, bs, rfl, rfl, ?_⟩
    rw [hm.name_eq]
    exact (forall_name_ne_iff hbs).2 hlast

section

variable (hfiles : (p.sources p.settings.paths.events).Gives s files s)
include hfiles

/-- The pass over the events succeeds if all files are parsed and all modules rendered, with these
modules stored in order. -/
theorem gives_makeEvents_iff {r : CategoryResult} :
    (∃ s', (makeEvents p).Gives s r s') ↔
      (∀ path ∈ files, ∃ statements, statementsAt? s path = some statements) ∧
        ∃ ms, List.Forall₂ (EventUnit.IsModule p s) (eventUnits s files) ms ∧
          r = ms.foldl CategoryResult.put { category := .events } := by
  rw [settles_makeEvents.exists_gives_iff]
  constructor
  · rintro ⟨files', hfiles', mss, hmss, rfl⟩
    obtain rfl := Except.ok.inj (Task.ends_unique hfiles hfiles').1
    obtain ⟨hparsed, hmodules⟩ := exists_fileModules_iff.1 ⟨mss, hmss, rfl⟩
    exact ⟨hparsed, _, hmodules, rfl⟩
  · rintro ⟨hparsed, ms, hms, rfl⟩
    obtain ⟨mss, hmss, rfl⟩ := exists_fileModules_iff.2 ⟨hparsed, hms⟩
    exact ⟨files, hfiles, mss, hmss, rfl⟩

theorem eventPass_of_gives {r : CategoryResult} (h : (makeEvents p).Gives s r s') :
    EventPass p s files := by
  obtain ⟨hparsed, ms, hms, -⟩ := (gives_makeEvents_iff hfiles).1 ⟨s', h⟩
  exact ⟨hfiles, hparsed, fun w hw => exists_moduleOf_iff.1 (exists_forall₂_iff.1 ⟨ms, hms⟩ w hw)⟩

/-- The result has the module of an event: the one with the payload struct and the function of a
unit of that name. -/
def HasModule (p : Project) (s : Session) (files : List Bytes) (event : Bytes)
    (r : CategoryResult) : Prop :=
  ∃ w ∈ eventUnits s files, w.name = event ∧ ∃ m ∈ r.modules, EventUnit.IsModule p s w m

/-- A unit `w` of `event` and the last unit `x` with `fileStem x.name = fileStem event` render to
one text. -/
def Kept (p : Project) (s : Session) (files : List Bytes) (event : Bytes) : Prop :=
  ∃ w ∈ eventUnits s files, w.name = event ∧ ∃ x, IsLast (eventUnits s files) x ∧
    fileStem x.name = fileStem event ∧
    ∃ content, RendersTo p s w.artifact content ∧ RendersTo p s x.artifact content

theorem exists_hasModule_iff :
    (∃ r s', (makeEvents p).Gives s r s' ∧ HasModule p s files event r) ↔ EventPass p s files ∧
      Kept p s files event := by
  constructor
  · rintro ⟨r, s', hmake, w, hw, rfl, m, hm, hmodule⟩
    obtain ⟨-, ms, hms, rfl⟩ := (gives_makeEvents_iff hfiles).1 ⟨s', hmake⟩
    obtain ⟨x, hx, hxm⟩ := (mem_stored_iff hms).1 hm
    refine ⟨eventPass_of_gives hfiles hmake, w, hw, rfl, x, hx, ?_⟩
    exact ⟨by rw [← hxm.name_eq, hmodule.name_eq], m.content, hmodule.renders, hxm.renders⟩
  · rintro ⟨hpass, w, hw, rfl, x, hx, hstem, content, hwc, hxc⟩
    obtain ⟨ms, hms⟩ := exists_forall₂_iff.2 fun w hw => exists_moduleOf_iff.2 (hpass.rendered w hw)
    obtain ⟨s', hmake⟩ := (gives_makeEvents_iff hfiles).2 ⟨hpass.parsed, ms, hms, rfl⟩
    have hxm : EventUnit.IsModule p s x ⟨fileStem x.name,
        Path.join [p.categoryDir .events, fileStem x.name ++ goExtension], content⟩ :=
          ⟨rfl, rfl, hxc⟩
    refine ⟨_, s', hmake, w, hw, rfl, _, (mem_stored_iff hms).2 ⟨x, hx, hxm⟩, hstem, ?_, hwc⟩
    rw [← hstem]

end

/-- An event has a unit if and only if a file fires it. -/
theorem exists_fires_iff :
    (∃ path ∈ files, Fires s path event) ↔ ∃ w ∈ eventUnits s files, w.name = event := by
  simp only [← exists_unitAt_iff, eventUnits, List.mem_flatMap]
  constructor
  · rintro ⟨path, hpath, w, hw, hname⟩
    exact ⟨w, ⟨path, hpath, hw⟩, hname⟩
  · rintro ⟨w, ⟨path, hpath, hw⟩, hname⟩
    exact ⟨path, hpath, w, hw, hname⟩

/-- Where no other event has its stem, an event is kept if and only if a file fires it. -/
theorem kept_iff (hpass : EventPass p s files)
    (hstems : ∀ x ∈ eventUnits s files, fileStem x.name = fileStem event → x.name = event) :
    Kept p s files event ↔ ∃ path ∈ files, Fires s path event := by
  rw [exists_fires_iff]
  constructor
  · rintro ⟨w, hw, hname, -⟩
    exact ⟨w, hw, hname⟩
  · rintro ⟨w, hw, rfl⟩
    obtain ⟨x, hx, hlast, hstem⟩ := exists_isLast hw
    obtain ⟨content, hcontent⟩ := hpass.rendered x hx
    exact ⟨x, hx, hstems x hx hstem, x, hlast, hstem, content, hcontent, hcontent⟩

/-! ## Handlers -/

/-- What the handler of an event calls: the function of the event that has the name of the file, or
of the first one. -/
theorem gives_eventTarget {target : Target} (h : (eventTarget p name).Gives s target s') :
    ∃ statements event importPath, statementsAt? s (sourcePath p p.settings.paths.events name) =
      some statements ∧
      chosen? ((Surql.events statements).map (·.name)) (sourceStem p name) = some event ∧
      target = .event ⟨.events, importPath, EventUnit.functionOf event⟩
        (EventUnit.structOf event) := by
  obtain ⟨path, s₁, hfind, hrest⟩ := Task.gives_bind.1 h
  obtain ⟨rfl, -, rfl⟩ := gives_findSource.1 hfind
  obtain ⟨statements, s₂, hstatements, htarget⟩ := Task.gives_bind.1 hrest
  cases hchosen : chosen? ((Surql.events statements).map (·.name)) (sourceStem p name) with
  | none =>
    simp only [hchosen] at htarget
    exact absurd htarget Task.not_gives_throw
  | some event =>
    simp only [hchosen] at htarget
    obtain ⟨importPath, s₃, -, hpure⟩ := Task.gives_bind.1 htarget
    obtain ⟨rfl, -⟩ := Task.gives_pure.1 hpure
    exact ⟨statements, event, importPath,
      ((settles_statements .events _).post_of_gives hstatements).1, hchosen, rfl⟩

/-- The handler of an event file calls the function of one event of the file. The pass over the same
files makes the module of that event if and only if it can be made at all and the last event with
the same stem has the text of that module. If no other event has the stem, this is so if and only if
a file of the pass defines the event and its table with a field that takes a value from the caller.
-/
theorem eventTarget_module_iff {name : Bytes} {target : Target}
    (h : (eventTarget p name).Gives s target s')
    {u : Session} (htree : u.tree = s.tree) (hcwd : u.cwd = s.cwd) {files : List Bytes}
    (hfiles : (p.sources p.settings.paths.events).Gives u files u) :
    ∃ statements event importPath, statementsAt? u (sourcePath p p.settings.paths.events name) =
      some statements ∧
      chosen? ((Surql.events statements).map (·.name)) (sourceStem p name) = some event ∧
      target = .event ⟨.events, importPath, EventUnit.functionOf event⟩ (EventUnit.structOf event) ∧
      ((∃ r u', (makeEvents p).Gives u r u' ∧ HasModule p u files event r) ↔
        EventPass p u files ∧ Kept p u files event) ∧
      ((∀ x ∈ eventUnits u files, fileStem x.name = fileStem event → x.name = event) →
        ((∃ r u', (makeEvents p).Gives u r u' ∧ HasModule p u files event r) ↔
          EventPass p u files ∧ ∃ path ∈ files, Fires u path event)) := by
  obtain ⟨statements, event, importPath, hstatements, hchosen, htarget⟩ := gives_eventTarget h
  refine ⟨statements, event, importPath, ?_, hchosen, htarget, exists_hasModule_iff hfiles,
    fun hstems => ?_⟩
  · rw [statementsAt?, htree, hcwd]
    exact hstatements
  · rw [exists_hasModule_iff hfiles]
    exact and_congr_right fun hpass => kept_iff hpass hstems

/-- A project with its own short template for events. -/
def eventProject : Project :=
  { root := "/p", settings := { module := "m", templatesDir := "t" }, exclude := [] }

/-- A session with the project's files: an event file with a name and a text, and the template. -/
def eventSession (name text : Bytes) : Session where
  tree := ⟨[(["p"], .dir), (["p", "events"], .dir),
    (["p", "events", name], .file text), (["p", "t"], .dir),
    (["p", "t", "event.go.tmpl"],
      .file "package events\n\ntype \x7b\x7b.Struct\x7d\x7d int\n")]⟩

/-- A session with an event, its table and a field that takes a value. -/
def firedSession : Session := eventSession "doc.surql"
  ("DEFINE TABLE doc; DEFINE FIELD at ON doc TYPE datetime VALUE $value; " ++
    "DEFINE EVENT doc ON doc THEN \x7b \x7d;")

/-- A session with an event that has no table of its name. -/
def bareSession : Session := eventSession "x.surql" "DEFINE EVENT x ON y THEN \x7b \x7d;"

theorem fired_runs :
    ((eventTarget eventProject "doc").runIn firedSession).1.toOption =
        some (.event ⟨.events, "m/db/events", "Doc"⟩ "DocData") ∧
      ((eventProject.sources "events").runIn firedSession).1.toOption =
        some [ofString "/p/events/doc.surql"] ∧
      ((makeEvents eventProject).runIn firedSession).1.toOption = some
        { category := .events
          modules := [⟨"doc_gen", "/p/db/events/doc_gen.go",
            "package events\n\ntype DocData int\n"⟩] } ∧
      (statementsAt? firedSession
        (sourcePath eventProject eventProject.settings.paths.events "doc")).map
        (fun statements => chosen? ((Surql.events statements).map (·.name))
          (sourceStem eventProject "doc")) =
          some (some (ofString "doc")) ∧
      (eventUnits firedSession [ofString "/p/events/doc.surql"]).map (·.name) =
        [ofString "doc"] := by
  decide +kernel

theorem bare_runs :
    ((eventTarget eventProject "x").runIn bareSession).1.toOption =
        some (.event ⟨.events, "m/db/events", "X"⟩ "XData") ∧
      ((eventProject.sources "events").runIn bareSession).1.toOption =
        some [sourcePath eventProject "events" "x"] ∧
      ((makeEvents eventProject).runIn bareSession).1.toOption = some { category := .events } := by
  decide +kernel

/-- The event of the first session is called by a handler and has a module. -/
theorem eventTarget_module_iff_doc : ∃ s' r u',
    (eventTarget eventProject "doc").Gives firedSession
      (.event ⟨.events, "m/db/events", "Doc"⟩ "DocData") s' ∧
      (eventProject.sources "events").Gives firedSession [ofString "/p/events/doc.surql"]
        firedSession ∧
      (makeEvents eventProject).Gives firedSession r u' ∧
      HasModule eventProject firedSession [ofString "/p/events/doc.surql"] "doc" r := by
  obtain ⟨hrun, hsources, hmake, hchosen, hunits⟩ := fired_runs
  have htarget := Task.gives_of_toOption hrun
  have hfiles := ((settles_sources "events").post_of_gives (Task.gives_of_toOption hsources)).1
  obtain ⟨statements, event, importPath, hstatements, hevent, -, -, hiff⟩ :=
    eventTarget_module_iff htarget rfl rfl hfiles
  rw [hstatements, Option.map_some, hevent, Option.some.injEq, Option.some.injEq] at hchosen
  subst hchosen
  have hname : ∀ x ∈ eventUnits firedSession [ofString "/p/events/doc.surql"], x.name = "doc" := by
    intro x hx
    have hmem := List.mem_map_of_mem hx (f := (·.name))
    rw [hunits] at hmem
    exact List.mem_singleton.1 hmem
  obtain ⟨w, hw, -⟩ := List.mem_map.1 (hunits ▸ List.mem_singleton_self (ofString "doc"))
  obtain ⟨r, u', hgives, hmodule⟩ := (hiff fun x hx _ => hname x hx).2
    ⟨eventPass_of_gives hfiles (Task.gives_of_toOption hmake),
      exists_fires_iff.2 ⟨w, hw, hname w hw⟩⟩
  exact ⟨_, r, u', htarget, hfiles, hgives, hmodule⟩

/-- The handler of the event of the second session, whose file the pass reads, calls a function that
no module has. -/
theorem eventTarget_without_module : ∃ s' u',
    (eventTarget eventProject "x").Gives bareSession
      (.event ⟨.events, "m/db/events", "X"⟩ "XData") s' ∧
      (eventProject.sources "events").Gives bareSession [sourcePath eventProject "events" "x"]
        bareSession ∧
      (makeEvents eventProject).Gives bareSession { category := .events, modules := [] } u' := by
  obtain ⟨hrun, hsources, hmake⟩ := bare_runs
  exact ⟨_, _, Task.gives_of_toOption hrun,
    ((settles_sources "events").post_of_gives (Task.gives_of_toOption hsources)).1,
      Task.gives_of_toOption hmake⟩

end AccessLayer.Layer
