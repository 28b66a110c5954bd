import AccessLayer.Command.Tree
import AccessLayer.Command.Watch
import AccessLayer.Layer.Endpoint
import AccessLayer.Layer.SettingsFile

/-!
# Running commands

* `Command.run`: runs a command line in a session.
-/

namespace AccessLayer.Command

open Layer

/-- How a command line ended. -/
inductive Ending where
  | done
  | help (command : Command)
  | misused (fault : UsageFault)
  | failed (failure : Failure)
deriving DecidableEq, Repr

def Ending.isSuccess : Ending → Bool
  | .done | .help _ => true
  | .misused _ | .failed _ => false

def Ending.errorText : Ending → Bytes
  | .done | .help _ => []
  | .misused fault =>
    "Error: " ++ fault.message ++ "\n" ++
      match fault with
      | .unknownCommand _ command _ => "Run '" ++ command ++ " --help' for usage.\n"
      | _ => []
  | .failed failure => "Error: " ++ failure.message ++ "\n"

def versionText : Bytes := "dev"

def rootOf (g : Given) : Bytes := g.text "root" "."

def openProject (g : Given) (env : List (Bytes × Bytes)) (verbose : Bool) : Layer.Task Project := do
  let settings ← loadSettings (rootOf g) (g.text "config" []) env
  let s ← get
  match Project.ofSettings (Path.resolve (Path.ofNames true s.cwd) (rootOf g)) settings
      verbose with
  | .ok p => return p
  | .error f => throw f

def pass (p : Project) : Layer.Task Unit := do
  Layer.generate p
  if (← get).report.indexWritten then Task.print .outcome "db folder generated...\n"

/-- A pass that gives the message of its failure. A parameter without a name ends the program. -/
def passOrMessage (p : Project) : Layer.Task (Option Bytes) :=
  tryCatch (do pass p; return none) fun f =>
    if f == .unnamedParameter then throw f else return some f.message

/-- Generates the layer, and prepares to watch the definitions if asked to. -/
def runDb (g : Given) (env : List (Bytes × Bytes)) : Layer.Task Unit := do
  let p ← openProject g env (g.isOn "verbose")
  if g.isOn "watch" then
    let _ ← Watch.handle (passOrMessage p) [.write]
    for dir in ← Watch.subscribe p.watchDirs do
      Task.print .outcome ("Watching " ++ p.relative dir ++ " folder...\n")
  else pass p

def runEndpoint (g : Given) (env : List (Bytes × Bytes)) : Layer.Task Unit := do
  let p ← openProject g env false
  let name := g.args.headD []
  let _ ← makeEndpoint p
    { name, fromQuery := g.text "from-query" [], fromMutation := g.text "from-mutation" []
      fromEvent := g.text "from-event" [], fromSchema := g.text "from-schema" []
      method := g.text "method" [] }
  Task.print .outcome ("Endpoint " ++ name ++ " successfully created\n")

def runInit (g : Given) : Layer.Task Unit := do
  let path ← writeSettings (rootOf g) {} (g.isOn "force")
  Task.print .outcome ("Wrote " ++ path ++ "\n")

def perform (c : Command) (g : Given) (env : List (Bytes × Bytes)) : Layer.Task Unit :=
  match c with
  | generateDb => runDb g env
  | generateEndpoint => runEndpoint g env
  | configInit => runInit g
  | version => Task.print .outcome ("surqlgen " ++ versionText ++ "\n")
  | _ => return

/-- The command of a command line with its flags and arguments. -/
inductive Plan where
  | help (command : Command)
  | run (command : Command) (given : Given)
deriving DecidableEq, Repr

def plan (args : List Bytes) : Except UsageFault Plan := do
  let (c, rest) ← find args
  if c == help || c == completion then return .help c
  else
    let g ← Given.parse (helpFlag :: c.flags) rest
    if g.isOn helpFlag.name || !c.isRunnable then return .help c
    else
      c.check g
      return .run c g

def run (args : List Bytes) (env : List (Bytes × Bytes)) (s : Session) : Ending × Session :=
  match plan args with
  | .error fault => (.misused fault, s)
  | .ok (.help c) => (.help c, s)
  | .ok (.run c g) =>
    match (perform c g env).runIn s with
    | (.ok (), s) => (.done, s)
    | (.error f, s) => (.failed f, s)

end AccessLayer.Command
