import AccessLayer.Layer.Endpoint
import AccessLayer.Proofs.Layer.Capture
import AccessLayer.Proofs.Layer.Making
import AccessLayer.Proofs.Query.Bindings

/-!
# Calls of query and mutation functions

The handler of a query or mutation reads its request into a struct and calls the function of the
file with the fields of that struct. The struct has a field for every variable, the function has a
parameter for every annotation, and both lists are written from the same annotations.

* `ToldApart`: annotations whose Go names tell variables and types apart.
* `answers_request_iff`: the arguments answer the parameters if and only if the annotations are told
  apart.
* `statementTarget_answers_iff`: when the call in the handler of a file matches the function of the
  file.
-/

namespace AccessLayer.Layer

open Naming
open Query (annotations paramType)

/-! ## Arguments and parameters -/

/-- The arguments stand for the parameters in order: each reads a field of the request that is the
only one of its name and has the type of the parameter. -/
def Answers (fields : List Record.GoField) (args : List Bytes) (params : List Query.Param) : Prop :=
  List.Forall₂ (fun (arg : Bytes) q => ∃ f, arg = "req." ++ f.name ∧
    fields.filter (·.name == f.name) = [f] ∧ f.type = q.type) args params

/-- Annotations with the same field name are of one variable and have one type. -/
def ToldApart (vars : List Query.Variable) : Prop :=
  ∀ v ∈ vars, ∀ w ∈ vars, pascal v.name = pascal w.name →
    v.name = w.name ∧ paramType v.type = paramType w.type

instance (vars : List Query.Variable) : Decidable (ToldApart vars) :=
  inferInstanceAs (Decidable (∀ v ∈ vars, ∀ w ∈ vars, pascal v.name = pascal w.name →
    v.name = w.name ∧ paramType v.type = paramType w.type))

section

variable {vars : List Query.Variable} {sig : Query.Signature}

/-- The parameters and the annotations are the same declarations. -/
theorem mem_params_iff (h : Query.Signature.ofVariables? vars = some sig) {name type : Bytes} :
    (∃ q ∈ sig.params, q.binds = name ∧ q.type = type) ↔
      ∃ v ∈ vars, v.name = name ∧ paramType v.type = type := by
  have hmem : (name, type) ∈ sig.declared ↔
      (name, type) ∈ vars.map fun v => (v.name, paramType v.type) := by
    rw [Query.Signature.declared_eq h]
  simpa only [Query.Signature.declared, List.mem_map, Prod.mk.injEq] using hmem

theorem mem_requestFields {f : Record.GoField} :
    f ∈ requestFields sig ↔ ∃ b ∈ sig.bindings, ⟨pascal b.binds, b.type, b.binds⟩ = f :=
  List.mem_map

/-- No variable has two fields. -/
theorem nodup_requestFields (h : sig.Bound) : (requestFields sig).Nodup := by
  refine List.Nodup.of_map (·.key) ?_
  rw [requestFields, List.map_map]
  exact h.nodup

theorem answers_iff_forall {fields : List Record.GoField} :
    Answers fields (requestArgs sig) sig.params ↔
      ∀ q ∈ sig.params, ∃ f, fields.filter (·.name == pascal q.binds) = [f] ∧ f.type = q.type := by
  rw [Answers, requestArgs, List.forall₂_map_left_iff, List.forall₂_same]
  refine forall₂_congr fun q _ => exists_congr fun f => ?_
  constructor
  · rintro ⟨hname, hfields, htype⟩
    rw [List.append_cancel_left hname]
    exact ⟨hfields, htype⟩
  · rintro ⟨hfields, htype⟩
    have hmem : f ∈ fields.filter (·.name == pascal q.binds) := by simp [hfields]
    have hname : f.name = pascal q.binds := beq_iff_eq.1 (List.mem_filter.1 hmem).2
    rw [hname]
    exact ⟨rfl, hfields, htype⟩

/-- A field that is the only one of its name is that of every variable with this field name. -/
theorem binds_eq_key (h : sig.Bound) {name : Bytes} {f : Record.GoField}
    (hf : (requestFields sig).filter (·.name == name) = [f]) {q : Query.Param} (hq : q ∈ sig.params)
    (hname : pascal q.binds = name) : q.binds = f.key := by
  obtain ⟨b, hb, hbinds⟩ := h.covers q hq
  have hmem : (⟨pascal b.binds, b.type, b.binds⟩ : Record.GoField) ∈
      (requestFields sig).filter (·.name == name) := by
    refine List.mem_filter.2 ⟨mem_requestFields.2 ⟨b, hb, rfl⟩, beq_iff_eq.2 ?_⟩
    rw [← hname, ← hbinds]
  rw [hf, List.mem_singleton] at hmem
  rw [← hbinds, ← hmem]

/-- If all bindings with the field name of a parameter have its variable and type, there is one such
field. -/
theorem filter_requestFields (h : sig.Bound) {q : Query.Param} (hq : q ∈ sig.params)
    (hsame : ∀ c ∈ sig.bindings, pascal c.binds = pascal q.binds →
      c.binds = q.binds ∧ c.type = q.type) :
    (requestFields sig).filter (·.name == pascal q.binds) =
      [⟨pascal q.binds, q.type, q.binds⟩] := by
  refine List.perm_singleton.1 ((List.perm_ext_iff_of_nodup ((nodup_requestFields h).filter _)
    (List.nodup_singleton _)).2 fun f => ?_)
  rw [List.mem_filter, List.mem_singleton, mem_requestFields, beq_iff_eq]
  constructor
  · rintro ⟨⟨c, hc, rfl⟩, hname⟩
    obtain ⟨hbinds, htype⟩ := hsame c hc hname
    rw [hbinds, htype]
  · rintro rfl
    obtain ⟨b, hb, hbinds⟩ := h.covers q hq
    have htype := (hsame b hb (by rw [hbinds])).2
    exact ⟨⟨b, hb, by rw [hbinds, htype]⟩, rfl⟩

theorem answers_request_iff (h : Query.Signature.ofVariables? vars = some sig) :
    Answers (requestFields sig) (requestArgs sig) sig.params ↔ ToldApart vars := by
  have hbound := Query.Signature.bound_ofVariables? h
  rw [answers_iff_forall]
  constructor
  · -- annotations of one field name: the fields of their bindings are the same field
    intro hanswers v hv w hw hpascal
    obtain ⟨q, hq, hqname, hqtype⟩ := (mem_params_iff h).2 ⟨v, hv, rfl, rfl⟩
    obtain ⟨r, hr, hrname, hrtype⟩ := (mem_params_iff h).2 ⟨w, hw, rfl, rfl⟩
    have hpascal' : pascal r.binds = pascal q.binds := by rw [hqname, hrname, hpascal]
    obtain ⟨f, hf, hftype⟩ := hanswers q hq
    obtain ⟨g, hg, hgtype⟩ := hanswers r hr
    rw [hpascal', hf] at hg
    obtain rfl := List.singleton_inj.1 hg
    constructor
    · rw [← hqname, ← hrname, binds_eq_key hbound hf hq rfl, binds_eq_key hbound hf hr hpascal']
    · rw [← hqtype, ← hrtype, ← hftype, ← hgtype]
  · intro hapart q hq
    obtain ⟨v, hv, hvname, hvtype⟩ := (mem_params_iff h).1 ⟨q, hq, rfl, rfl⟩
    refine ⟨_, filter_requestFields hbound hq fun c hc hname => ?_, rfl⟩
    obtain ⟨w, hw, hwname, hwtype⟩ := (mem_params_iff h).1 ⟨c, hbound.mem_params c hc, rfl, rfl⟩
    have := hapart w hw v hv (by rw [hwname, hvname, hname])
    rwa [hwname, hvname, hwtype, hvtype] at this

end

/-! ## Handlers -/

variable {p : Project} {s s' : Session}

theorem gives_findSource {kind : SourceKind} {dir name path : Bytes} :
    (findSource p kind dir name).Gives s path s' ↔
      path = sourcePath p dir name ∧ hasSource s.tree s.cwd (sourcePath p dir name) ∧ s' = s := by
  rw [findSource, Task.gives_get_bind]
  split_ifs with hfile
  · rw [Task.gives_pure]
    exact and_congr_right fun _ => (and_iff_right hfile).symm
  · constructor
    · exact fun h => absurd h Task.not_gives_throw
    · exact fun h => absurd h.2.1 hfile

theorem gives_signatureOf {path text : Bytes} {sig : Query.Signature}
    (h : (signatureOf p path text).Gives s sig s') :
    Query.Signature.ofVariables? (annotations text) = some sig := by
  unfold signatureOf at h
  cases hsig : Query.Signature.ofVariables? (annotations text) with
  | none =>
    rw [hsig] at h
    exact absurd h Task.not_gives_throw
  | some signature =>
    simp only [hsig] at h
    obtain ⟨_, _, _, hresult⟩ := Task.gives_bind.1 h
    rw [(Task.gives_pure.1 hresult).1]

/-- What the handler of a file calls: its request and its arguments are those of the signature of
the file. -/
theorem gives_statementTarget {kind : StatementKind} {name : Bytes} {target : Target}
    (h : (statementTarget p kind name).Gives s target s') :
    ∃ text sig, s.tree.readFile s.cwd (sourcePath p (kind.dir p.settings) name) = .ok text ∧
      Query.Signature.ofVariables? (annotations text) = some sig ∧
      target.fields = requestFields sig ∧ target.args = requestArgs sig := by
  obtain ⟨path, s₁, hfind, hrest⟩ := Task.gives_bind.1 h
  obtain ⟨rfl, -, rfl⟩ := gives_findSource.1 hfind
  obtain ⟨text, s₂, hread, htext⟩ := Task.gives_bind.1 hrest
  obtain ⟨hfile, rfl⟩ := Task.gives_readFile.1 hread
  obtain ⟨importPath, s₃, -, himport⟩ := Task.gives_bind.1 htext
  obtain ⟨sig, s₄, hsig, htarget⟩ := Task.gives_bind.1 himport
  obtain ⟨rfl, -⟩ := Task.gives_pure.1 htarget
  exact ⟨text, sig, hfile, gives_signatureOf hsig, rfl, rfl⟩

/-- The handler of a file passes one argument for each parameter that the function of the file has
after the context and the database, in their order. They answer these parameters if and only if the
annotations of the file are told apart: those with one field name are all of one variable and one
type. -/
theorem statementTarget_answers_iff {kind : StatementKind} {name : Bytes} {target : Target}
    (h : (statementTarget p kind name).Gives s target s') :
    ∃ text sig, s.tree.readFile s.cwd (sourcePath p (kind.dir p.settings) name) = .ok text ∧
      Query.Signature.ofVariables? (annotations text) = some sig ∧
      (∀ typesImport path shownPath u,
        StatementUnit.ofFile? kind typesImport path shownPath text sig = some u →
        u.params = callParams ++ sig.params.map fun q => ⟨q.name, q.type⟩) ∧
      target.args = sig.params.map (fun q => "req." ++ pascal q.binds) ∧
      (Answers target.fields target.args sig.params ↔ ToldApart (annotations text)) := by
  obtain ⟨text, sig, hread, hsig, hfields, hargs⟩ := gives_statementTarget h
  refine ⟨text, sig, hread, hsig, fun typesImport path shownPath u hu => ?_, hargs, ?_⟩
  · rw [StatementUnit.params, (StatementUnit.constant_signature hu).2]
  · rw [hfields, hargs]
    exact answers_request_iff hsig

/-- A project with the conventional layout. -/
def bareProject : Project := { root := "/p", settings := { module := "m" }, exclude := [] }

/-- The files of the project: a query with a text. -/
def queryTree (text : Bytes) : Tree :=
  ⟨[(["p"], .dir), (["p", "queries"], .dir),
    (["p", "queries", "find.surql"], .file text)]⟩

/-- A query with a variable that is declared twice with one type. -/
def pageQuery : Bytes :=
  "// $user_id: string\n// $limit: int\n// $user_id: String\nSELECT * FROM post LIMIT $limit;"

/-- A query with a variable that is declared twice with two types. -/
def retypedQuery : Bytes := "// $a: string\n// $a: int\nSELECT * FROM post WHERE a = $a;"

/-- The target of a handler for the query. -/
def findTarget (fields : List Record.GoField) (args : List Bytes) : Target :=
  .statement ⟨.queries, "m/db/queries", "QueryFind"⟩ fields args

theorem find_page :
    ((statementTarget bareProject .query "find").runIn { tree := queryTree pageQuery }).1.toOption =
        some (findTarget [⟨"UserId", "string", "user_id"⟩, ⟨"Limit", "int64", "limit"⟩]
          ["req.UserId", "req.Limit", "req.UserId"]) ∧
      (queryTree pageQuery).readFile [] (sourcePath bareProject "queries" "find") = .ok pageQuery ∧
      ToldApart (annotations pageQuery) := by
  decide +kernel

/-- A variable that is declared again with the same type is passed twice. -/
theorem statementTarget_answers_iff_page : ∃ s' sig,
    (statementTarget bareProject .query "find").Gives { tree := queryTree pageQuery }
        (findTarget [⟨"UserId", "string", "user_id"⟩, ⟨"Limit", "int64", "limit"⟩]
          ["req.UserId", "req.Limit", "req.UserId"]) s' ∧
      Query.Signature.ofVariables? (annotations pageQuery) = some sig ∧
      Answers [⟨"UserId", "string", "user_id"⟩, ⟨"Limit", "int64", "limit"⟩]
        ["req.UserId", "req.Limit", "req.UserId"] sig.params := by
  obtain ⟨hrun, hfile, hapart⟩ := find_page
  have htarget := Task.gives_of_toOption hrun
  obtain ⟨text, sig, hread, hsig, -, -, hiff⟩ := statementTarget_answers_iff htarget
  obtain rfl := Except.ok.inj (hread.symm.trans hfile)
  exact ⟨_, sig, htarget, hsig, hiff.2 hapart⟩

theorem find_retyped :
    ((statementTarget bareProject .query "find").runIn
        { tree := queryTree retypedQuery }).1.toOption =
        some (findTarget [⟨"A", "int64", "a"⟩] ["req.A", "req.A"]) ∧
      (queryTree retypedQuery).readFile [] (sourcePath bareProject "queries" "find") =
        .ok retypedQuery ∧
      ¬ ToldApart (annotations retypedQuery) := by
  decide +kernel

/-- A variable that is declared again with another type has one field, of the last type, and it is
passed for both parameters. -/
theorem statementTarget_retyped : ∃ s' sig,
    (statementTarget bareProject .query "find").Gives { tree := queryTree retypedQuery }
        (findTarget [⟨"A", "int64", "a"⟩] ["req.A", "req.A"]) s' ∧
      Query.Signature.ofVariables? (annotations retypedQuery) = some sig ∧
      ¬ Answers [⟨"A", "int64", "a"⟩] ["req.A", "req.A"] sig.params := by
  obtain ⟨hrun, hfile, hapart⟩ := find_retyped
  have htarget := Task.gives_of_toOption hrun
  obtain ⟨text, sig, hread, hsig, hfields, hargs⟩ := gives_statementTarget htarget
  obtain rfl := Except.ok.inj (hread.symm.trans hfile)
  refine ⟨_, sig, htarget, hsig, ?_⟩
  have hanswers := answers_request_iff hsig
  rw [← hfields, ← hargs] at hanswers
  exact mt hanswers.1 hapart

end AccessLayer.Layer
