import AccessLayer.Command.Run

/-!
# What a command reads

A command works on the part of the file system that it can reach: first the settings, then the
directories that the settings name and the module files above them.

* `Reach`: a file, or a directory down to some depth.
* `Command.settingsReach`: where the settings of a command line can be.
* `Command.projectReach`: what a command reads of a project.
-/

namespace AccessLayer

/-- A part of the file system: a file, or a directory down to some depth. -/
structure Reach where
  path : Bytes
  depth : Nat
deriving DecidableEq, Repr

namespace Command

open Layer

def settingsReach (cwd : Bytes) (g : Given) (env : List (Bytes × Bytes)) : List Reach :=
  let roots := [rootOf g, searchedDir env (rootOf g)].map (Path.resolve cwd)
  let named := g.text "config" []
  (roots.flatMap fun root => ⟨root, 0⟩ :: settingsNames.map fun name =>
    ⟨Path.join [root, name], 0⟩) ++
    if named.isEmpty then [] else [⟨Path.resolve cwd named, 0⟩]

def above (path : Bytes) : List Bytes :=
  (List.range ((Path.names path).length + 1)).map fun n =>
    Path.ofNames true ((Path.names path).take n)

def projectReach (p : Project) : List Reach :=
  let api := p.place p.settings.paths.api
  let types := p.place p.settings.typesPackage
  let modules := (Category.indexOrder.map p.categoryDir ++ [p.outputDir, api, types]).flatMap above
  p.watchDirs.map (⟨·, 1⟩) ++ [⟨p.outputDir, 2⟩, ⟨api, 1⟩] ++
    (p.templatesDir?.toList.map (⟨·, 1⟩)) ++
    (modules.eraseDups.map fun dir => ⟨Path.join [dir, moduleFile], 0⟩)

end Command

end AccessLayer
