import AccessLayer.Files.Edit
import AccessLayer.Layer.Pass

/-!
# Watching definitions

* `Watch.subscribe`: the directories that can be watched.
* `Watch.between`: what happened to the definitions between two states of the file tree.
* `Watch.handle`: what happens on a change.
-/

namespace AccessLayer.Watch

open Layer

/-- What happened to a watched file; several things may be reported at once. -/
inductive Change where
  | create
  | write
  | remove
  | rename
  | chmod
deriving DecidableEq, Repr

/-- Why a place cannot be watched; `none` if it can. -/
def fault? (tree : Tree) (cwd : Place) (dir : Bytes) : Option FileFault :=
  match tree.stat cwd (Path.clean dir) with
  | .ok _ => none
  | .error e => some e.fault

/-- The places among several that can be watched; the others are logged. -/
def subscribe (dirs : List Bytes) : Layer.Task (List Bytes) := do
  let s ← get
  for dir in dirs do
    match fault? s.tree s.cwd dir with
    | some f => Task.log ("Cannot watch " ++ dir ++ " folder: " ++ f.message)
    | none => pure ()
  return dirs.filter fun dir => (fault? s.tree s.cwd dir).isNone

def failureLine (message : Bytes) : Bytes := "Error while generating db folder: " ++ message

/-- Whether a change asks for a pass: something was written. -/
def asksForPass (changes : List Change) : Bool := changes.contains .write

def between (before after : Tree) (dirs : List Place) : List Change :=
  let within (x : Place × Entry) : Bool := x.2.isFile && dirs.contains x.1.dropLast
  (if (before.newEntries after).any within then [.write] else []) ++
    if (before.lostEntries after).any within then [.remove] else []

/-- Runs a pass if a change asks for it, and says whether it did. A pass gives the message of its
failure. -/
def handle (pass : Layer.Task (Option Bytes)) (changes : List Change) : Layer.Task Bool := do
  if asksForPass changes then
    match ← pass with
    | some message => Task.log (failureLine message)
    | none => pure ()
    return true
  else return false

end AccessLayer.Watch
