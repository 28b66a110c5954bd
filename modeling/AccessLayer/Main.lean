import AccessLayer.Command.Reach

/-!
# The program

The program reads the part of the file system that a command can reach, runs the command on it,
writes the changes back and prints what the command had to say. With `--watch` it then looks for
changes of the definitions twice a second.
-/

namespace AccessLayer.Program

open Layer

/-! ## File system -/

def pathText (path : Bytes) : String := (String.fromUTF8? (ByteArray.mk path.toArray)).getD ""

def placeText (p : Place) : String := pathText (Path.ofNames true p)

/-- Reads a file, or a directory down to some depth, into a tree. -/
def load (tree : Tree) (place : Place) (depth : Nat) : IO Tree := do
  let real ← try pure (some (← IO.FS.realPath (placeText place))) catch _ => pure none
  match real with
  | none => return tree
  | some path =>
    if ← path.isDir then
      let tree := tree.set place .dir
      match depth with
      | 0 => return tree
      | depth + 1 =>
        let entries ← path.readDir
        entries.foldlM (fun tree e => load tree (place ++ [Bytes.ofString e.fileName]) depth) tree
    else
      let content ← IO.FS.readBinFile (placeText place)
      return tree.set place (.file content.data.toList)

/-- Reads a part of the file system and the directories above it. -/
def loadReach (tree : Tree) (r : Reach) : IO Tree := do
  let tree ← (Command.above (Path.dir r.path)).foldlM
    (fun tree dir => load tree (Path.names dir) 0) tree
  load tree (Path.names r.path) r.depth

def store : Edit → IO Unit
  | .removeFile p => IO.FS.removeFile (placeText p)
  | .removeDir p => IO.FS.removeDir (placeText p)
  | .makeDir p => IO.FS.createDirAll (placeText p)
  | .writeFile p content => IO.FS.writeBinFile (placeText p) (ByteArray.mk content.toArray)

/-! ## Output -/

def put (stream : IO.FS.Stream) (text : Bytes) : IO Unit := do
  stream.write (ByteArray.mk text.toArray)
  stream.flush

def tell (s : Session) : IO Unit := do
  put (← IO.getStdout) (s.printed.flatMap (·.2))
  put (← IO.getStderr) (s.log.flatMap (· ++ [Bytes.byte '\n']))

/-! ## Running -/

def lookUp (names : List Bytes) : IO (List (Bytes × Bytes)) :=
  names.filterMapM fun name => do
    return (← IO.getEnv (pathText name)).map fun value => (name, Bytes.ofString value)

/-- The variables of the environment that settings are read from, and those that the root names. -/
def environment (root : Bytes) : IO (List (Bytes × Bytes)) := do
  let home ← lookUp [homeName]
  lookUp (Layers.variableNames ++ homeName :: Path.named (atHome home root))

/-- The project that a command line names, as far as its settings can be read. -/
def projectOf? (g : Command.Given) (env : List (Bytes × Bytes)) (s : Session) : Option Project :=
  ((Command.openProject g env (g.isOn "verbose")).runIn s).1.toOption

def treeFor (cwd : Place) (g : Command.Given) (env : List (Bytes × Bytes)) : IO Tree := do
  let tree ← (Command.settingsReach (Path.ofNames true cwd) g env).foldlM loadReach {}
  match projectOf? g env { tree, cwd } with
  | none => return tree
  | some p => (Command.projectReach p).foldlM loadReach tree

/-- Looks for changes of the definitions again and again, and runs a pass after each. -/
partial def watch (cwd : Place) (g : Command.Given) (env : List (Bytes × Bytes)) (p : Project)
    (before : Tree) : IO Unit := do
  IO.sleep 500
  let tree ← treeFor cwd g env
  let changes := Watch.between before tree (p.watchDirs.map Path.names)
  let (_, s) := (Watch.handle (Command.passOrMessage p) changes).runIn { tree, cwd }
  (tree.edits s.tree).forM store
  tell s
  watch cwd g env p s.tree

def run (args : List Bytes) : IO UInt32 := do
  let cwd := Path.names (Bytes.ofString (← IO.currentDir).toString)
  let plan := Command.plan args
  let root := match plan with
    | .ok (.run _ g) => Command.rootOf g
    | _ => []
  let env ← environment root
  let tree ← match plan with
    | .ok (.run _ g) => treeFor cwd g env
    | _ => pure {}
  let (ending, s) := Command.run args env { tree, cwd }
  (tree.edits s.tree).forM store
  tell s
  put (← IO.getStderr) ending.errorText
  match plan, ending with
  | .ok (.run .generateDb g), .done =>
    if g.isOn "watch" then
      if let some p := projectOf? g env s then watch cwd g env p s.tree
  | _, _ => pure ()
  return if ending.isSuccess then 0 else 1

end AccessLayer.Program

def main (args : List String) : IO UInt32 :=
  AccessLayer.Program.run (args.map AccessLayer.Bytes.ofString)
