import AccessLayer.Config.Glob
import AccessLayer.Config.Settings
import AccessLayer.Files.Path

/-!
# Checking settings

All faults of a project's settings are reported together, in a fixed order.

* `Settings.faults`: the faults of settings.
-/

namespace AccessLayer

/-- What is wrong with settings. -/
inductive SettingsFault where
  | emptyPath (key : Bytes)
  | outputOverlap (dir : Bytes)
  | badExtension (extension : Bytes)
  | badPattern (pattern : Bytes) (fault : Glob.Fault)
deriving DecidableEq, Repr

def SettingsFault.message : SettingsFault → Bytes
  | emptyPath key => "empty path: paths." ++ key ++ " must be set"
  | outputOverlap dir => "output directory overlaps an input directory: " ++ dir
  | badExtension extension =>
    "invalid extension: must start with '.', got '" ++ extension ++ "'"
  | badPattern pattern fault => "invalid exclude pattern: " ++ pattern ++ ": " ++ fault.message

namespace Settings

def emptyPaths (s : Settings) : List SettingsFault :=
  s.paths.keyed.filterMap fun p =>
    if (Bytes.trim p.2).isEmpty then some (.emptyPath p.1) else none

/-- The input directories that are also the output directory. -/
def overlaps (s : Settings) : List SettingsFault :=
  if s.paths.output.isEmpty then []
  else s.watchDirs.filterMap fun d =>
    if !d.isEmpty && Path.clean d == Path.clean s.paths.output then some (.outputOverlap d)
    else none

def isExtension (e : Bytes) : Bool := e.head? == some (Bytes.byte '.') && 2 ≤ e.length

def badPatterns (s : Settings) : List SettingsFault :=
  s.exclude.filterMap fun p =>
    match Glob.parse p with
    | .ok _ => none
    | .error f => some (.badPattern p f)

def faults (s : Settings) : List SettingsFault :=
  s.emptyPaths ++ s.overlaps ++
    (if isExtension s.extension then [] else [.badExtension s.extension]) ++ s.badPatterns

def faultText (fs : List SettingsFault) : Bytes := Bytes.join "\n" (fs.map (·.message))

end Settings

end AccessLayer
