import AccessLayer.Go.Syntax

/-!
# References to packages

A selection from a name that no scope of the file declares is a reference to a package. Parameters
are declared after all types of their function have been read, a variable after its value, a type
before its definition, and what the file itself declares counts everywhere.

* `File.references`: the references of a file, as pairs of package name and selected name.
-/

namespace AccessLayer.Go

/-- The names that are declared where the walk is, and the selections found so far, the last one
first. -/
structure Walk where
  bound : List Bytes
  found : List (Bytes × Bytes)
deriving Inhabited

/-- Walking ranged a tree. -/
abbrev Walker := StateM Walk

/-- The walks ranged expressions and statements that call each other. -/
structure Walks where
  expr : Expr → Walker Unit
  stmt : Stmt → Walker Unit

namespace References

/-- Declares names; the blank name is never declared. -/
def declare (names : List Ident) : Walker Unit := modify fun w =>
  { w with bound := ((names.map fun i => i.name).filter fun n => n != Bytes.ofString "_") ++
    w.bound }

def inScope (p : Walker Unit) : Walker Unit := do
  let outer := (← get).bound
  p
  modify fun w => { w with bound := outer }

/-- Notes a selection from a name, unless the name is declared. -/
def note (base sel : Bytes) : Walker Unit := modify fun w =>
  if w.bound.contains base then w else { w with found := (base, sel) :: w.found }

def fieldTypes (w : Walks) (fs : FieldList) : Walker Unit := fs.fields.forM fun f => w.expr f.type

def fieldNames (fs : FieldList) : Walker Unit := fs.fields.forM fun f => declare f.names

/-- Walks ranged the types of parameters and results, then declares their names. -/
def signature (w : Walks) (sig : Signature) : Walker Unit := do
  if let some tps := sig.typeParams then
    fieldNames tps
    fieldTypes w tps
  fieldTypes w sig.params
  if let some rs := sig.results then fieldTypes w rs
  fieldNames sig.params
  if let some rs := sig.results then fieldNames rs

def expr (w : Walks) (x : Expr) : Walker Unit := do
  match x with
  | .ident _ | .literal _ => pure ()
  | .funcLit _ sig body => inScope do
    signature w sig
    body.stmts.forM w.stmt
  | .composite _ type _ elements _ =>
    type.forM w.expr
    elements.forM w.expr
  | .paren _ a | .star _ a | .unary _ _ a => w.expr a
  | .selector _ base sel =>
    match base with
    | .ident i => note i.name sel.name
    | _ => w.expr base
  | .index _ base _ is _ =>
    w.expr base
    is.forM w.expr
  | .slice _ base _ bounds _ =>
    w.expr base
    bounds.forM fun b => b.forM w.expr
  | .assertion _ base _ type _ =>
    w.expr base
    type.forM w.expr
  | .call _ fn _ args _ _ =>
    w.expr fn
    args.forM w.expr
  | .binary _ a _ _ b | .pair _ a _ b | .map _ a b =>
    w.expr a
    w.expr b
  | .variadic _ a => a.forM w.expr
  | .array _ n a =>
    n.forM w.expr
    w.expr a
  | .struct _ fs | .interface _ fs => fieldTypes w fs
  | .func _ sig => inScope (signature w sig)
  | .chan _ _ _ a => w.expr a

def declaredNames (xs : List Expr) : List Ident :=
  xs.filterMap fun
    | .ident i => some i
    | _ => none

def genDecl (w : Walks) (d : GenDecl) : Walker Unit :=
  d.specs.forM fun
    | .importSpec _ _ _ _ _ => pure ()
    | .value _ _ names type values _ => do
      values.forM w.expr
      type.forM w.expr
      declare names
    | .type _ _ name typeParams _ type _ => do
      declare [name]
      let outer := (← get).bound
      typeParams.forM fun tps => do
        fieldNames tps
        fieldTypes w tps
      w.expr type
      modify fun s => { s with bound := outer }

def stmt (w : Walks) (s : Stmt) : Walker Unit := do
  match s with
  | .decl d => genDecl w d
  | .empty _ _ | .branch _ _ _ => pure ()
  | .labeled _ _ _ inner => w.stmt inner
  | .expr x | .incDec _ x _ _ | .go _ x | .defer _ x => w.expr x
  | .send _ a _ b =>
    w.expr a
    w.expr b
  | .assign _ left _ sign right =>
    right.forM w.expr
    if sign == ":=" then declare (declaredNames left) else left.forM w.expr
  | .ret _ xs => xs.forM w.expr
  | .block b => inScope (b.stmts.forM w.stmt)
  | .cond _ init test body other => inScope do
    init.forM w.stmt
    w.expr test
    w.stmt (.block body)
    other.forM w.stmt
  | .caseClause _ values _ body =>
    values.forM fun xs => xs.forM w.expr
    inScope (body.forM w.stmt)
  | .switch _ init tag body => inScope do
    init.forM w.stmt
    tag.forM w.expr
    body.stmts.forM w.stmt
  | .typeSwitch _ init guard body => inScope do
    init.forM w.stmt
    w.stmt guard
    body.stmts.forM w.stmt
  | .commClause _ comm _ body => inScope do
    comm.forM w.stmt
    body.forM w.stmt
  | .select _ body => body.stmts.forM w.stmt
  | .loop _ init test post body => inScope do
    init.forM w.stmt
    test.forM w.expr
    post.forM w.stmt
    w.stmt (.block body)
  | .rangeLoop _ key value _ sign ranged body => inScope do
    w.expr ranged
    let left := key.toList ++ value.toList
    if sign == ":=" then declare (declaredNames left) else left.forM w.expr
    w.stmt (.block body)

/-- The walks tied together; what is nested deeper than the fuel is left out. -/
def walks : Nat → Walks
  | 0 => ⟨fun _ => pure (), fun _ => pure ()⟩
  | fuel + 1 =>
    let w := walks fuel
    ⟨expr w, stmt w⟩

def decl (w : Walks) : Decl → Walker Unit
  | .gen d => genDecl w d
  | .func d => inScope do
    d.receiver.forM (fieldTypes w)
    d.signature.typeParams.forM fun tps => do
      fieldNames tps
      fieldTypes w tps
    fieldTypes w d.signature.params
    d.signature.results.forM (fieldTypes w)
    d.receiver.forM fieldNames
    fieldNames d.signature.params
    d.signature.results.forM fieldNames
    d.body.forM fun b => b.stmts.forM w.stmt

/-- The names that a declaration at the top of a file adds to the file's scope. -/
def topNames : Decl → List Bytes
  | .func d => if d.receiver.isSome || d.name.name == "init" then [] else [d.name.name]
  | .gen d =>
    d.specs.flatMap fun
      | .importSpec _ _ _ _ _ => []
      | .type _ _ name _ _ _ _ => [name.name]
      | .value _ _ names _ _ _ => names.map (·.name)

end References

/-- The names that a file declares in its package, without blank ones, methods and initialisers. -/
def File.declared (f : File) : List Bytes := (f.decls.flatMap References.topNames).filter (· != "_")

def File.references (f : File) : List (Bytes × Bytes) :=
  let w := References.walks (2 * f.tokens + 8)
  let start : Walk := ⟨f.declared, []⟩
  (((f.decls.forM (References.decl w)).run start).2.found).reverse

end AccessLayer.Go
