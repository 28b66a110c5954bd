import AccessLayer.Proofs.Layer.EventCalls
import AccessLayer.Proofs.Layer.Listing

/-!
# Calls of table functions

The handler of a table calls a function of the table's module. Handler and module are made apart
from each other: the handler finds the function by the method that is asked for, and the module has
functions to write records only if the table is not read-only. Both come to the same names,
arguments and methods.

* `TableUnit.serving`: the function of a module that does what a method asks for.
* `TableUnit.Serves`: a rendered module has the function of a method.
* `gives_tableTarget_iff`: what the handler of a table calls.
* `tableTarget_serving`: a handler can be made for the methods that the module serves, and calls the
  function for them.
-/

namespace AccessLayer.Layer

variable {statements : List Surql.Statement} {names : List Bytes} {m : Method} {name : Bytes}

/-! ## Methods -/

namespace Method

theorem mem_all (m : Method) : m ∈ all := by cases m <;> decide

theorem ofName?_eq_some_iff : ofName? name = some m ↔ m.name = name := by
  have hall : ∀ m ∈ all, ofName? m.name = some m := by decide
  constructor
  · intro h
    rw [ofName?, List.find?_eq_some_iff_append] at h
    exact beq_iff_eq.1 h.1
  · rintro rfl
    exact hall m (mem_all m)

theorem name_ne_nil (m : Method) : m.name ≠ [] := by
  have hall : ∀ m ∈ all, m.name ≠ [] := by decide
  exact hall m (mem_all m)

end Method

theorem tableMethod_eq_ok_iff {settings : Settings} {table method : Bytes} :
    tableMethod settings table method = .ok m ↔
      m.name = method ∧ (m.isWriting && settings.isReadOnly table) = false := by
  rw [← Method.ofName?_eq_some_iff, tableMethod]
  cases Method.ofName? method with
  | none => simp
  | some n =>
    simp only [Option.some.injEq]
    split_ifs with h
    · simp only [false_iff, not_and]
      rintro rfl
      simp [h]
    · simp only [Except.ok.injEq]
      constructor
      · rintro rfl
        exact ⟨rfl, by simpa using h⟩
      · exact fun hm => hm.1

/-! ## Functions -/

namespace TableUnit

/-- The function of the module that does what a method asks for. -/
def serving (u : TableUnit) : Method → Documented
  | .list => u.getAll
  | .get => u.get
  | .find => u.find
  | .create => u.create
  | .update => u.update
  | .delete => u.delete

/-- The parameters that a method needs after the context and the database. -/
def methodParams (u : TableUnit) (m : Method) : List FuncParam :=
  (if m.needsId then [idParam] else []) ++ if m.needsBody then [u.dataParam] else []

theorem names_methodParams (u : TableUnit) (m : Method) :
    (u.methodParams m).map (·.name) = m.args := by
  cases m <;> rfl

def verb : Method → Bytes
  | .list => "GetAll"
  | .get => "Get"
  | .find => "Find"
  | .create => "Create"
  | .update => "Update"
  | .delete => "Delete"

/-- What the name of a method's function ends with: many records or one. -/
def noun (u : TableUnit) (m : Method) : Bytes := if m = .list then u.plural else u.struct

theorem methodFunction_eq (u : TableUnit) (m : Method) :
    methodFunction u.struct m = verb m ++ u.noun m := by
  have hall : ∀ m ∈ Method.all, m ≠ .list → Naming.pascal m.name = verb m := by decide
  by_cases hm : m = .list
  · subst hm
    rfl
  · have hname : methodFunction u.struct m = Naming.pascal m.name ++ u.struct := by
      cases m with
      | list => exact absurd rfl hm
      | _ => rfl
    rw [hname, hall m m.mem_all hm, noun, if_neg hm]

/-- The function of a method has the name by which the handler calls it, and the parameters that the
method needs. -/
theorem decl_serving (u : TableUnit) (m : Method) : ∃ result body,
    (u.serving m).decl = .func (methodFunction u.struct m) (callParams ++ u.methodParams m) result
      body := by
  rw [methodFunction_eq]
  cases m <;> exact ⟨_, _, rfl⟩

theorem name_serving (u : TableUnit) (m : Method) :
    (u.serving m).decl.name = verb m ++ u.noun m := by
  cases m <;> rfl

/-- The functions that write records have names apart from all else that the module of a read-only
table declares. -/
theorem notMem_declared {u : TableUnit} (hreadOnly : u.readOnly) (hm : m.isWriting) :
    (u.serving m).decl.name ∉ u.source.declared := by
  have hall : ∀ m ∈ Method.all, m.isWriting = true → (verb m).length = 6 ∧
      ∀ n ∈ [Method.list, .get, .find], (verb m).head? ≠ (verb n).head? ∧ verb n ≠ [] := by
    decide
  obtain ⟨hlen, hverbs⟩ := hall m m.mem_all hm
  have hnoun : u.noun m = u.struct := by
    cases m with
    | list => cases hm
    | _ => rfl
  have hdeclared : u.source.declared =
      [u.constant, u.struct] ++ [Method.list, .get, .find].map fun n =>
        (u.serving n).decl.name := by
    rw [Source.declared, source, functions, if_pos hreadOnly]
    rfl
  rw [name_serving, hdeclared, List.mem_append, not_or]
  constructor
  · -- the verb is neither as long as nothing nor as the end of the constant's name
    have hend : (Bytes.ofString "TableName").length = 9 := by decide
    rw [hnoun, List.mem_pair, not_or]
    constructor
    · intro h
      have hlength := congrArg List.length h
      rw [constant, List.length_append, List.length_append] at hlength
      omega
    · intro h
      have hlength := congrArg List.length h
      rw [List.length_append] at hlength
      omega
  · rw [List.mem_map]
    rintro ⟨n, hn, heq⟩
    obtain ⟨hhead, hne⟩ := hverbs n hn
    have hverb : verb m ≠ [] := List.ne_nil_of_length_pos (by omega)
    have hheads := congrArg List.head? heq
    rw [name_serving, List.head?_append_of_ne_nil _ hne,
      List.head?_append_of_ne_nil _ hverb] at hheads
    exact hhead hheads.symm

theorem serving_mem {u : TableUnit} (h : (m.isWriting && u.readOnly) = false) :
    u.serving m ∈ u.source.decls := by
  refine List.mem_append_right _ ?_
  rw [functions]
  cases m with
  | list | get | find => simp [serving]
  | create | update | delete => simp [serving, show u.readOnly = false from h]

/-- A module serves all methods but those that change the records of a read-only table. -/
theorem declared_serving_iff (u : TableUnit) (m : Method) :
    (u.serving m).decl.name ∈ u.source.declared ↔ (m.isWriting && u.readOnly) = false := by
  constructor
  · intro hmem
    by_contra h
    rw [Bool.not_eq_false, Bool.and_eq_true] at h
    exact notMem_declared h.2 h.1 hmem
  · exact fun h => List.mem_map_of_mem (serving_mem h)

end TableUnit

/-! ## Handlers -/

variable {p : Project} {s s' : Session}

theorem gives_statements {c : Category} {path : Bytes}
    (h : statementsAt? s path = some statements) : (p.statements c path).Gives s statements s := by
  obtain ⟨text, hread, hparse⟩ := Option.bind_eq_some_iff.1 h
  rw [toOption_eq_some] at hread hparse
  refine Task.gives_bind.2 ⟨text, s, Task.gives_readFile.2 ⟨hread, rfl⟩, ?_⟩
  rw [hparse]
  exact Task.gives_pure.2 ⟨rfl, rfl⟩

theorem hasSource_of_readFile {t : Tree} {cwd : Place} {path text : Bytes}
    (h : t.readFile cwd path = .ok text) : hasSource t cwd path := by
  rw [Tree.readFile] at h
  cases hloc : t.locate cwd path with
  | error fault =>
    rw [hloc] at h
    cases h
  | ok place =>
    simp only [hloc] at h
    split at h
    · next hget => simp [hasSource, Tree.stat, hloc, hget, Entry.isFile]
    · cases h
    · cases h

theorem gives_findSource_of_statementsAt? {kind : SourceKind} {dir : Bytes}
    (h : statementsAt? s (sourcePath p dir name) = some statements) :
    (findSource p kind dir name).Gives s (sourcePath p dir name) s := by
  obtain ⟨text, hread, -⟩ := Option.bind_eq_some_iff.1 h
  rw [toOption_eq_some] at hread
  exact gives_findSource.2 ⟨rfl, hasSource_of_readFile hread, rfl⟩

theorem gives_tableTarget_iff {method table : Bytes} {target : Target}
    (hfile : statementsAt? s (sourcePath p p.settings.paths.schemas name) = some statements)
    (htable : chosen? ((Surql.tables statements).map (·.name)) (sourceStem p name) = some table) :
    (tableTarget p name method).Gives s target s' ↔
      ∃ m importPath, m.name = method ∧ (m.isWriting && p.settings.isReadOnly table) = false ∧
        (p.categoryImport .crud).Gives s importPath s' ∧
        target = .table ⟨.crud, importPath, methodFunction (Naming.pascal table) m⟩ m
          (Naming.pascal table) := by
  unfold tableTarget
  by_cases hempty : method.isEmpty = true
  · simp only [hempty, if_true]
    refine iff_of_false Task.not_gives_throw_bind ?_
    rintro ⟨m, -, rfl, -⟩
    exact m.name_ne_nil (List.isEmpty_iff.1 hempty)
  · simp only [hempty, Bool.false_eq_true, if_false]
    rw [Task.gives_bind_of (gives_findSource_of_statementsAt? hfile),
      Task.gives_bind_of (gives_statements hfile)]
    simp only [htable]
    cases hmethod : tableMethod p.settings table method with
    | error fault =>
      refine iff_of_false Task.not_gives_throw ?_
      rintro ⟨m, -, hname, hwriting, -⟩
      rw [tableMethod_eq_ok_iff.2 ⟨hname, hwriting⟩] at hmethod
      cases hmethod
    | ok m =>
      simp only [Task.gives_bind, Task.gives_pure]
      constructor
      · rintro ⟨importPath, _, himport, rfl, rfl⟩
        obtain ⟨hname, hwriting⟩ := tableMethod_eq_ok_iff.1 hmethod
        exact ⟨m, importPath, hname, hwriting, himport, rfl⟩
      · rintro ⟨n, importPath, hname, hwriting, himport, rfl⟩
        rw [tableMethod_eq_ok_iff.2 ⟨hname, hwriting⟩] at hmethod
        cases hmethod
        exact ⟨importPath, s', himport, rfl, rfl⟩

/-- The table that a handler is made for: the one with the name of the file, or else the first. -/
theorem chosen?_eq_some_iff {stem : Bytes} :
    chosen? names stem = some name ↔
      stem ∈ names ∧ name = stem ∨ stem ∉ names ∧ ∃ rest, names = name :: rest := by
  unfold chosen?
  split_ifs with h
  · rw [List.contains_iff_mem] at h
    simp [h, eq_comm]
  · rw [List.contains_iff_mem] at h
    simp [h, List.head?_eq_some_iff]

theorem exists_chosen? (h : names ≠ []) (stem : Bytes) :
    ∃ name, chosen? names stem = some name := by
  obtain ⟨name, rest, rfl⟩ := List.exists_cons_of_ne_nil h
  by_cases hstem : stem ∈ name :: rest
  · exact ⟨stem, chosen?_eq_some_iff.2 (.inl ⟨hstem, rfl⟩)⟩
  · exact ⟨name, chosen?_eq_some_iff.2 (.inr ⟨hstem, rest, rfl⟩)⟩

theorem mem_of_chosen? {stem : Bytes} (h : chosen? names stem = some name) : name ∈ names := by
  obtain ⟨hmem, rfl⟩ | ⟨-, rest, rfl⟩ := chosen?_eq_some_iff.1 h
  · exact hmem
  · exact List.mem_cons_self

/-! ## Modules -/

theorem TableUnit.declares_struct (u : TableUnit) :
    u.artifact.source.Declares (.struct u.struct u.fields) :=
  Source.declares (s := u.source) (List.mem_cons_of_mem _ List.mem_cons_self)

theorem TableUnit.declares_serving {u : TableUnit} (h : (m.isWriting && u.readOnly) = false) :
    u.artifact.source.Declares (u.serving m).decl :=
  Source.declares (serving_mem h)

/-- The module of `u`, which the built-in template renders to `content`, has a function for `m`. -/
structure TableUnit.Serves (p : Project) (s : Session) (u : TableUnit) (m : Method)
    (content : Bytes) : Prop where
  renders : RendersTo p s u.artifact content
  formatted : Go.format u.artifact.source.text = some content
  declared : (u.serving m).decl.name ∈ u.artifact.source.declared

theorem TableUnit.exists_serves_iff {u : TableUnit} (h : Loads p s .table .builtIn) :
    (∃ content, u.Serves p s m content) ↔
      (∃ content, RendersTo p s u.artifact content) ∧ (m.isWriting && u.readOnly) = false := by
  constructor
  · rintro ⟨content, hserves⟩
    exact ⟨⟨content, hserves.renders⟩, (u.declared_serving_iff m).1 hserves.declared⟩
  · rintro ⟨⟨content, hcontent⟩, hm⟩
    exact ⟨content, hcontent, (rendersTo_iff h).1 hcontent, (u.declared_serving_iff m).2 hm⟩

/-- A pass that reads a definition file has rendered the modules of its tables. -/
theorem rendersTo_of_makeTables {r : CategoryResult} {files : List Bytes} {path : Bytes}
    (h : (makeTables p).Gives s r s')
    (hfiles : (p.sources p.settings.paths.schemas).Gives s files s) (hpath : path ∈ files)
    (hfile : statementsAt? s path = some statements) {u : TableUnit}
    (hu : u ∈ TableUnit.ofStatements p.settings statements) :
    ∃ content, RendersTo p s u.artifact content := by
  have hmade := settles_makeUnits (p := p) (s := s) .crud p.settings.paths.schemas
    (TableUnit.ofStatements p.settings) TableUnit.table TableUnit.artifact
  obtain ⟨files', hfiles', mss, hmss, -⟩ := (hmade.post_of_gives h).1
  obtain rfl := Except.ok.inj (Task.ends_unique hfiles hfiles').1
  obtain ⟨ms, statements', hfile', hms⟩ := exists_forall₂_iff.1 ⟨mss, hmss⟩ path hpath
  obtain rfl := Option.some.inj (hfile.symm.trans hfile')
  obtain ⟨m, hm⟩ := exists_forall₂_iff.1 ⟨ms, hms⟩ u hu
  exact ⟨_, hm.renders⟩

/-- A handler can be made that calls a function of a table. -/
def HasTableTarget (p : Project) (s : Session) (name method : Bytes) : Prop :=
  ∃ target s', (tableTarget p name method).Gives s target s'

/-- The import path of a package can be computed. -/
def Project.Importable (p : Project) (s : Session) (c : Category) : Prop :=
  ∃ importPath s', (p.categoryImport c).Gives s importPath s'

/-- The handler of a definition file calls a function of the table `u`: the one with the name of the
file, or else the first one. It can be made if and only if its import path can be computed and
`method` is one of the six that the template for `u` has a function for, so one that only reads if
`u` is read-only. If the module of `u` renders, this is the same as to say that the rendered module
has the function. If it does not render, the handler is made all the same, and no pass that reads
the file succeeds. The handler calls the function that the module declares for the method, with
arguments for just the parameters that follow the context and the database, and reads its request
into the struct that the module declares. -/
theorem tableTarget_serving (name method : Bytes) {statements : List Surql.Statement}
    (hfile : statementsAt? s (sourcePath p p.settings.paths.schemas name) = some statements)
    (htables : Surql.tables statements ≠ []) :
    ∃ u ∈ TableUnit.ofStatements p.settings statements,
      (sourceStem p name ∈ (Surql.tables statements).map (·.name) ∧ u.table = sourceStem p name ∨
        sourceStem p name ∉ (Surql.tables statements).map (·.name) ∧
          ∃ rest, (Surql.tables statements).map (·.name) = u.table :: rest) ∧
      (Path.isAbs p.root = true → 2 ≤ p.settings.extension.length →
        Path.ext p.settings.extension = p.settings.extension → Path.separator ∉ name →
        Path.base (sourcePath p p.settings.paths.schemas name) =
          sourceStem p name ++ p.settings.extension) ∧
      u.readOnly = p.settings.isReadOnly u.table ∧
      (Template.Datum.record .context u.artifact.data).field? "ReadOnly" = some (.flag u.readOnly) ∧
      (HasTableTarget p s name method ↔ p.Importable s .crud ∧
        ∃ m : Method, m.name = method ∧
          (u.serving m).decl.name ∈ u.artifact.source.declared) ∧
      (Loads p s .table .builtIn →
        (HasTableTarget p s name method ∧ (∃ content, RendersTo p s u.artifact content) ↔
          p.Importable s .crud ∧
            ∃ m : Method, m.name = method ∧ ∃ content, u.Serves p s m content)) ∧
      ((¬ ∃ content, RendersTo p s u.artifact content) →
        ∀ files, (p.sources p.settings.paths.schemas).Gives s files s →
          sourcePath p p.settings.paths.schemas name ∈ files →
          ¬ ∃ r s', (makeTables p).Gives s r s') ∧
      ∀ target s', (tableTarget p name method).Gives s target s' →
        ∃ m callee params result body,
          target.method? = some m ∧ m.name = method ∧ target.callee? = some callee ∧
          u.artifact.source.Declares
            (.func callee.function (callParams ++ params) result body) ∧
          (u.serving m).decl = .func callee.function (callParams ++ params) result body ∧
          target.args = params.map (·.name) ∧
          params = (if m.needsId then [TableUnit.idParam] else []) ++
            (if m.needsBody then [u.dataParam] else []) ∧
          u.artifact.source.Declares (.struct target.struct u.fields) := by
  obtain ⟨table, hchosen⟩ := exists_chosen? (mt List.map_eq_nil_iff.1 htables) (sourceStem p name)
  have htarget : HasTableTarget p s name method ↔ p.Importable s .crud ∧
      ∃ m : Method, m.name = method ∧ (m.isWriting && p.settings.isReadOnly table) = false := by
    simp only [HasTableTarget, gives_tableTarget_iff hfile hchosen]
    constructor
    · rintro ⟨_, s', m, importPath, hname, hwriting, himport, -⟩
      exact ⟨⟨importPath, s', himport⟩, m, hname, hwriting⟩
    · rintro ⟨⟨importPath, s', himport⟩, m, hname, hwriting⟩
      exact ⟨_, s', m, importPath, hname, hwriting, himport, rfl⟩
  have hu : TableUnit.ofTable p.settings statements table ∈
      TableUnit.ofStatements p.settings statements := by
    obtain ⟨t, ht, rfl⟩ := List.mem_map.1 (mem_of_chosen? hchosen)
    exact List.mem_map_of_mem ht
  refine ⟨_, hu, chosen?_eq_some_iff.1 hchosen, ?_, rfl, rfl, ?_, fun hbuiltIn => ?_, ?_, ?_⟩
  · exact fun hroot hlen hext hname => base_sourcePath hroot hlen hext _ hname
  · rw [htarget]
    refine and_congr_right fun _ => exists_congr fun m => and_congr_right fun _ => ?_
    exact ((TableUnit.ofTable p.settings statements table).declared_serving_iff m).symm
  · simp only [TableUnit.exists_serves_iff hbuiltIn, htarget]
    constructor
    · rintro ⟨⟨himport, m, hname, hwriting⟩, hrenders⟩
      exact ⟨himport, m, hname, hrenders, hwriting⟩
    · rintro ⟨himport, m, hname, hrenders, hwriting⟩
      exact ⟨⟨himport, m, hname, hwriting⟩, hrenders⟩
  · rintro hnone files hfiles hpath ⟨r, s', hmake⟩
    exact hnone (rendersTo_of_makeTables hmake hfiles hpath hfile hu)
  · intro target s' h
    obtain ⟨m, importPath, hname, hwriting, -, rfl⟩ := (gives_tableTarget_iff hfile hchosen).1 h
    obtain ⟨result, body, hdecl⟩ := (TableUnit.ofTable p.settings statements table).decl_serving m
    have hdeclares := TableUnit.declares_serving
      (u := TableUnit.ofTable p.settings statements table) hwriting
    rw [hdecl] at hdeclares
    exact ⟨m, _, _, result, body, rfl, hname, rfl, hdeclares, hdecl,
      (TableUnit.names_methodParams _ m).symm, rfl, TableUnit.declares_struct _⟩

/-- A session with two definition files of the same two tables, of which the first is read-only. -/
def blogSession : Session where
  tree := ⟨[([("p" : Bytes)], .dir), (["p", "schemas"], .dir)] ++
    ["post.surql", "log.surql"].map fun file : Bytes =>
      ([("p" : Bytes), "schemas", file], .file "DEFINE TABLE script_migration; DEFINE TABLE post;")⟩

/-- The tables of the definition files. -/
def blogTables : List Bytes := ["script_migration", "post"]

/-- A definition file of the session can be parsed and has the tables. -/
def HasBlogTables (name : Bytes) : Prop :=
  (statementsAt? blogSession (sourcePath bareProject bareProject.settings.paths.schemas name)).map
    (fun statements => (Surql.tables statements).map (·.name)) = some blogTables

instance (name : Bytes) : Decidable (HasBlogTables name) := inferInstanceAs (Decidable (_ = _))

theorem blog_runs :
    ((tableTarget bareProject "post" "update").runIn blogSession).1.toOption =
        some (.table ⟨.crud, "m/db/crud", "UpdatePost"⟩ .update "Post") ∧
      HasBlogTables "post" ∧ HasBlogTables "log" ∧
      sourceStem bareProject "post" ∈ blogTables ∧ sourceStem bareProject "post" = "post" ∧
      sourceStem bareProject "log" ∉ blogTables ∧
      bareProject.settings.isReadOnly "script_migration" ∧
        Method.ofName? "update" = some .update := by
  decide +kernel

theorem HasBlogTables.exists_statements (h : HasBlogTables name) : ∃ statements,
    statementsAt? blogSession (sourcePath bareProject bareProject.settings.paths.schemas name) =
      some statements ∧
      (Surql.tables statements).map (·.name) = blogTables ∧ Surql.tables statements ≠ [] := by
  obtain ⟨statements, hfile, hnames⟩ := Option.map_eq_some_iff.1 h
  refine ⟨statements, hfile, hnames, fun hnil => ?_⟩
  rw [hnil] at hnames
  cases hnames

/-- The table with the name of its file can be changed. The other file leads to the first table,
which cannot. -/
theorem tableTarget_serving_blog :
    (∃ (s' : Session) (u : TableUnit) (params : List FuncParam) (result : Bytes)
      (body : List Bytes),
      u.table = "post" ∧
      (tableTarget bareProject "post" "update").Gives blogSession
        (.table ⟨.crud, "m/db/crud", "UpdatePost"⟩ .update "Post") s' ∧
      u.artifact.source.Declares (.func "UpdatePost" (callParams ++ params) result body) ∧
      params.map (·.name) = [Bytes.ofString "id", Bytes.ofString "data"]) ∧
    ¬ ∃ target s', (tableTarget bareProject "log" "update").Gives blogSession target s' := by
  obtain ⟨hrun, hpost, hlog, hpostStem, hstem, hlogStem, hreadOnly, hupdate⟩ := blog_runs
  constructor
  · obtain ⟨statements, hfile, hnames, htables⟩ := hpost.exists_statements
    have hgives := Task.gives_of_toOption hrun
    obtain ⟨u, -, hselect, -, -, -, -, -, -, hcall⟩ :=
      tableTarget_serving "post" "update" hfile htables
    obtain ⟨m, callee, params, result, body, hm, -, hcallee, hdecl, -, hargs, -⟩ := hcall _ _ hgives
    cases hm
    cases hcallee
    rw [hnames] at hselect
    obtain ⟨-, htable⟩ | ⟨hnot, -⟩ := hselect
    · exact ⟨_, u, params, result, body, htable.trans hstem, hgives, hdecl, hargs.symm⟩
    · exact absurd hpostStem hnot
  · obtain ⟨statements, hfile, hnames, htables⟩ := hlog.exists_statements
    obtain ⟨u, -, hselect, -, hu, -, hserved, -⟩ := tableTarget_serving "log" "update" hfile htables
    rw [hnames] at hselect
    obtain ⟨hmem, -⟩ | ⟨-, rest, hfirst⟩ := hselect
    · exact absurd hmem hlogStem
    · rw [← (List.cons.inj hfirst).1, hreadOnly] at hu
      intro h
      obtain ⟨-, m, hname, hmem⟩ := hserved.1 h
      obtain rfl := Option.some.inj (hupdate.symm.trans (Method.ofName?_eq_some_iff.2 hname))
      exact TableUnit.notMem_declared hu rfl hmem

/-- A session with a table whose name has a quotation mark. -/
def markSession : Session where
  tree := ⟨[(["p"], .dir), (["p", "schemas"], .dir),
    (["p", "schemas", "t.surql"], .file "DEFINE TABLE `a\"b`;")]⟩

/-- The table of the session. -/
def markUnit : TableUnit := TableUnit.ofTable bareProject.settings [] "a\"b"

theorem mark_runs :
    ((tableTarget bareProject "t" "create").runIn markSession).1.toOption =
        some (.table ⟨.crud, "m/db/crud", "CreateAB"⟩ .create "AB") ∧
      ((bareProject.sources "schemas").runIn markSession).1.toOption =
        some [sourcePath bareProject "schemas" "t"] ∧
      (statementsAt? markSession (sourcePath bareProject "schemas" "t")).map
        (TableUnit.ofStatements bareProject.settings) = some [markUnit] := by
  decide +kernel

-- the mark ends a string of the module too early
set_option maxRecDepth 100000 in
theorem format_markUnit : Go.format markUnit.artifact.source.text = none := by decide +kernel

/-- A handler is made that calls a function of the table of the session, but the module of the table
does not render, and the pass over the definition file fails. -/
theorem tableTarget_without_module : ∃ s',
    (tableTarget bareProject "t" "create").Gives markSession
        (.table ⟨.crud, "m/db/crud", "CreateAB"⟩ .create "AB") s' ∧
      Loads bareProject markSession .table .builtIn ∧
      (¬ ∃ content, RendersTo bareProject markSession markUnit.artifact content) ∧
      ¬ ∃ r s'', (makeTables bareProject).Gives markSession r s'' := by
  obtain ⟨hrun, hsources, hunits⟩ := mark_runs
  have hfiles := ((settles_sources "schemas").post_of_gives (Task.gives_of_toOption hsources)).1
  obtain ⟨statements, hfile, hunit⟩ := Option.map_eq_some_iff.1 hunits
  have hloads : Loads bareProject markSession .table .builtIn := .inr ⟨rfl, .inl ⟨rfl, rfl⟩⟩
  have hnone : ¬ ∃ content, RendersTo bareProject markSession markUnit.artifact content := by
    rintro ⟨content, hcontent⟩
    have htext := (rendersTo_iff hloads).1 hcontent
    rw [format_markUnit] at htext
    cases htext
  refine ⟨_, Task.gives_of_toOption hrun, hloads, hnone, ?_⟩
  rintro ⟨r, s'', hmake⟩
  exact hnone (rendersTo_of_makeTables hmake hfiles List.mem_cons_self hfile (hunit ▸
    List.mem_cons_self))

end AccessLayer.Layer
