import AccessLayer.Layer.Session

/-!
# Import paths

The import path of a directory is the path of its module followed by the way from the module's
directory. The module is named by the settings or by the nearest module file above the directory.

* `moduleDirective?`: the module that a module file names.
* `importPathIn`: the import path of a directory in a module.
* `findImportPath`: the import path of a directory, from the nearest module file.
-/

namespace AccessLayer.Layer

def moduleFile : Bytes := "go.mod"

def stripBytes (p : UInt8 → Bool) (s : Bytes) : Bytes :=
  ((s.dropWhile p).reverse.dropWhile p).reverse

def moduleOfLine? (line : Bytes) : Option Bytes :=
  (Bytes.dropFront? "module " (Bytes.trim line)).map fun rest =>
    stripBytes (· == Bytes.byte '"') (Bytes.trim rest)

/-- The module that a module file names: its first module line counts, and an empty name is none. -/
def moduleDirective? (text : Bytes) : Option Bytes :=
  match (Bytes.splitOn (Bytes.byte '\n') text).findSome? moduleOfLine? with
  | some name => if name.isEmpty then none else some name
  | none => none

def importPathIn (module moduleDir dir : Bytes) : Bytes :=
  let way := (Path.relative? moduleDir dir).getD dir
  if way == Path.here then module else module ++ "/" ++ way

/-- The nearest directory at or above `dir` that has a module file. -/
def moduleDir? (tree : Tree) (cwd : Place) (fuel : Nat) (dir : Bytes) : Option Bytes :=
  match fuel with
  | 0 => none
  | fuel + 1 =>
    if (tree.stat cwd (Path.join [dir, moduleFile])).toOption.isSome then some dir
    else if Path.dir dir == dir then none
    else moduleDir? tree cwd fuel (Path.dir dir)

def findImportPath (dir : Bytes) : Task Bytes := do
  let s ← get
  match moduleDir? s.tree s.cwd (dir.length + 1) dir with
  | none => throw (.module (.noFile dir))
  | some moduleDir =>
    let path := Path.join [moduleDir, moduleFile]
    match s.tree.readFile s.cwd path with
    | .error e => throw (.file (.readingModuleFile path) e)
    | .ok text =>
      match moduleDirective? text with
      | none => throw (.module (.noDirective path))
      | some module => return importPathIn module moduleDir dir

end AccessLayer.Layer
