import AccessLayer.Files.Fault
import AccessLayer.Files.Path

/-!
# File trees

The part of a file system that the program works on, as a value: places and what stands there. The
root is always a directory. Operations fail in the way a file system does, with the operation and
the path in the error.

* `Tree.get?`, `Tree.set`, `Tree.erase`: one place.
* `Tree.readFile`, `Tree.readDir`, `Tree.writeFile`, `Tree.makeDirs`, `Tree.plant`, `Tree.remove`:
  the operations on paths.
-/

namespace AccessLayer

/-- What stands at a place. -/
inductive Entry where
  | file (content : Bytes)
  | dir
deriving DecidableEq, Repr

namespace Entry

def isFile : Entry → Bool
  | file _ => true
  | dir => false

end Entry

/-- A place in a tree: the names on the way from the root. -/
abbrev Place := List Bytes

/-- A file tree. -/
structure Tree where
  entries : List (Place × Entry) := []
deriving DecidableEq, Repr, Inhabited

namespace Tree

/-! ## Places -/

/-- What stands at a place; the root is a directory. -/
def get? (t : Tree) (p : Place) : Option Entry :=
  if p.isEmpty then some .dir else t.entries.lookup p

def set (t : Tree) (p : Place) (e : Entry) : Tree :=
  if t.entries.any (·.1 == p) then
    ⟨t.entries.map fun x => if x.1 == p then (p, e) else x⟩
  else ⟨t.entries ++ [(p, e)]⟩

def erase (t : Tree) (p : Place) : Tree := ⟨t.entries.filter (·.1 != p)⟩

def eraseAll (t : Tree) (p : Place) : Tree := ⟨t.entries.filter fun x => !p.isPrefixOf x.1⟩

def childName? (parent p : Place) : Option Bytes :=
  if parent.isPrefixOf p then
    match p.drop parent.length with
    | [name] => some name
    | _ => none
  else none

/-- The names directly in a directory with their entries, in byte order. -/
def children (t : Tree) (p : Place) : List (Bytes × Entry) :=
  Bytes.sortBy Prod.fst (t.entries.filterMap fun x => (childName? p x.1).map fun name =>
    (name, x.2))

/-- Walks from a directory along names. Each step needs a directory; the parent of the root is the
root. -/
def walk (t : Tree) (at_ : Place) : List Bytes → Except FileFault Place
  | [] => .ok at_
  | name :: rest =>
    if name.isEmpty || name == Path.here then
      match t.get? at_ with
      | some .dir => walk t at_ rest
      | some (.file _) => .error .notDirectory
      | none => .error .notFound
    else if name.length > 255 then .error .nameTooLong
    else
      match t.get? at_ with
      | some .dir =>
        if name == Path.parent then walk t at_.dropLast rest else walk t (at_ ++ [name]) rest
      | some (.file _) => .error .notDirectory
      | none => .error .notFound

/-- The place of a path, which is taken from `cwd` unless it is absolute. Every name but the last
has to be a directory. -/
def locate (t : Tree) (cwd : Place) (path : Bytes) : Except FileFault Place :=
  if path.isEmpty then .error .notFound
  else if path.contains 0 then .error .invalid
  else
    t.walk (if Path.isAbs path then [] else cwd) (Bytes.splitOn Path.separator path)

/-! ## Operations on paths -/

def stat (t : Tree) (cwd : Place) (path : Bytes) : Except FileError Entry :=
  match t.locate cwd path with
  | .error f => .error ⟨"stat", path, f⟩
  | .ok p =>
    match t.get? p with
    | some e => .ok e
    | none => .error ⟨"stat", path, .notFound⟩

def readFile (t : Tree) (cwd : Place) (path : Bytes) : Except FileError Bytes :=
  match t.locate cwd path with
  | .error f => .error ⟨"open", path, f⟩
  | .ok p =>
    match t.get? p with
    | some (.file content) => .ok content
    | some .dir => .error ⟨"read", path, .isDirectory⟩
    | none => .error ⟨"open", path, .notFound⟩

/-- The names in a directory, in byte order. -/
def readDir (t : Tree) (cwd : Place) (path : Bytes) :
    Except FileError (List (Bytes × Entry)) :=
  match t.locate cwd path with
  | .error f => .error ⟨"open", path, f⟩
  | .ok p =>
    match t.get? p with
    | some .dir => .ok (t.children p)
    | some (.file _) => .error ⟨"open", path, .notDirectory⟩
    | none => .error ⟨"open", path, .notFound⟩

def writeFile (t : Tree) (cwd : Place) (path content : Bytes) : Except FileError Tree :=
  match t.locate cwd path with
  | .error f => .error ⟨"open", path, f⟩
  | .ok p =>
    match t.get? p, t.get? p.dropLast with
    | some .dir, _ => .error ⟨"open", path, .isDirectory⟩
    | some (.file _), _ => .ok (t.set p (.file content))
    | none, some .dir => .ok (t.set p (.file content))
    | none, some (.file _) => .error ⟨"open", path, .notDirectory⟩
    | none, none => .error ⟨"open", path, .notFound⟩

/-- Creates the directories on the way from an absolute place along names, up to the first that
cannot be created. -/
def makeDirsFrom (t : Tree) (at_ : Place) : List Bytes → Tree × Option FileError
  | [] => (t, none)
  | name :: rest =>
    let p := at_ ++ [name]
    let path := Path.ofNames true p
    if name.length > 255 then (t, some ⟨"mkdir", path, .nameTooLong⟩)
    else if name.contains 0 then (t, some ⟨"mkdir", path, .invalid⟩)
    else
      match t.get? p with
      | some .dir => makeDirsFrom t p rest
      | some (.file _) => (t, some ⟨"mkdir", path, .notDirectory⟩)
      | none => makeDirsFrom (t.set p .dir) p rest

/-- Creates a directory and all directories above it, given by an absolute path. -/
def makeDirs (t : Tree) (path : Bytes) : Except FileError Tree :=
  match makeDirsFrom t [] (Path.names path) with
  | (t, none) => .ok t
  | (_, some e) => .error e

/-- Creates or overwrites a file, given by an absolute path, and the directories above it. A path
that ends in a slash is a directory. -/
def plant (t : Tree) (path content : Bytes) : Except FileError Tree :=
  if path.getLast? == some Path.separator then t.makeDirs path
  else do
    let t ← t.makeDirs (Path.dir path)
    t.writeFile [] path content

def remove (t : Tree) (cwd : Place) (path : Bytes) : Except FileError Tree :=
  match t.locate cwd path with
  | .error f => .error ⟨"remove", path, f⟩
  | .ok p =>
    match t.get? p with
    | none => .error ⟨"remove", path, .notFound⟩
    | some (.file _) => .ok (t.erase p)
    | some .dir =>
      if (t.children p).isEmpty then .ok (t.erase p) else .error ⟨"remove", path, .notEmpty⟩

end Tree

end AccessLayer
