import AccessLayer.Files.Tree

/-!
# Edits of a file tree

* `Tree.edits`: the steps that make one tree of another.
-/

namespace AccessLayer

/-- A step that changes a file tree. -/
inductive Edit where
  | removeFile (place : Place)
  | removeDir (place : Place)
  | makeDir (place : Place)
  | writeFile (place : Place) (content : Bytes)
deriving DecidableEq, Repr

namespace Edit

def removing : Place × Entry → Edit
  | (p, .file _) => removeFile p
  | (p, .dir) => removeDir p

def making : Place × Entry → Edit
  | (p, .file content) => writeFile p content
  | (p, .dir) => makeDir p

end Edit

namespace Tree

/-- The entries of a tree that another one does not have, those that hold others first. -/
def newEntries (old new : Tree) : List (Place × Entry) :=
  (new.entries.filter fun (p, e) => old.get? p != some e).mergeSort fun a b =>
    a.1.length ≤ b.1.length

/-- The entries of a tree whose places are free in another one, those that hold others last. -/
def lostEntries (old new : Tree) : List (Place × Entry) :=
  (old.entries.filter fun (p, _) => (new.get? p).isNone).mergeSort fun a b =>
    b.1.length ≤ a.1.length

def edits (old new : Tree) : List Edit :=
  (lostEntries old new).map Edit.removing ++ (newEntries old new).map Edit.making

end Tree

end AccessLayer
