import AccessLayer.Text.Bytes

/-!
# Paths

A path is a text whose names are divided by slashes. Its clean form has no empty name, no name for
the directory itself, and names for the parent only at the start of a relative path. Two spellings
of one place have the same clean form.

* `Path.clean`: the clean form.
* `Path.join`, `Path.resolve`: a path below another one.
* `Path.base`, `Path.dir`, `Path.ext`: the parts of a path.
-/

namespace AccessLayer.Path

def separator : UInt8 := Bytes.byte '/'

def here : Bytes := "."

def parent : Bytes := ".."

def isAbs (p : Bytes) : Bool := p.head? == some separator

/-- Adds one name to the names of a clean path, last name first. -/
def addName (rooted : Bool) (names : List Bytes) (name : Bytes) : List Bytes :=
  if name.isEmpty || name == here then names
  else if name == parent then
    match names with
    | [] => if rooted then [] else [parent]
    | last :: rest => if last == parent then parent :: names else rest
  else name :: names

def names (p : Bytes) : List Bytes :=
  ((Bytes.splitOn separator p).foldl (addName (isAbs p)) []).reverse

def ofNames (rooted : Bool) (names : List Bytes) : Bytes :=
  if rooted then separator :: Bytes.join [separator] names
  else if names.isEmpty then here
  else Bytes.join [separator] names

/-- The clean form of a path. The empty path is the directory itself. -/
def clean (p : Bytes) : Bytes := ofNames (isAbs p) (names p)

/-- The clean path made of several parts; empty parts do not count. -/
def join (parts : List Bytes) : Bytes :=
  match parts.filter (!·.isEmpty) with
  | [] => []
  | ps => clean (Bytes.join [separator] ps)

/-- The place of a path that is taken relative to `root` unless it is absolute. -/
def resolve (root p : Bytes) : Bytes := if isAbs p then clean p else join [root, p]

def dropCommon : List Bytes → List Bytes → List Bytes × List Bytes
  | a :: as, b :: bs => if a == b then dropCommon as bs else (a :: as, b :: bs)
  | as, bs => (as, bs)

/-- The path that leads from `start` to `target`. There is none between an absolute and a relative
path, nor out of a directory above which nothing is known. -/
def relative? (start target : Bytes) : Option Bytes :=
  if isAbs start != isAbs target then none
  else
    let (up, down) := dropCommon (names start) (names target)
    if up.contains parent then none
    else some (ofNames false (up.map (fun _ => parent) ++ down))

def dropSlashes (p : Bytes) : Bytes := (p.reverse.dropWhile (· == separator)).reverse

def base (p : Bytes) : Bytes :=
  if p.isEmpty then here
  else
    match dropSlashes p with
    | [] => [separator]
    | q => (q.reverse.takeWhile (· != separator)).reverse

/-- The path of the directory that holds the last name, in clean form. -/
def dir (p : Bytes) : Bytes := clean (p.reverse.dropWhile (· != separator)).reverse

/-- The last name from its last point on, empty when it has none. -/
def ext (p : Bytes) : Bytes :=
  let last := p.reverse.takeWhile (· != separator)
  match last.dropWhile (· != Bytes.byte '.') with
  | [] => []
  | _ => Bytes.byte '.' :: (last.takeWhile (· != Bytes.byte '.')).reverse

end AccessLayer.Path
