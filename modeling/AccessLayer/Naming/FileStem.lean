import AccessLayer.Text.Rune

/-!
# File stems of generated modules

A generated module is stored under a file stem made from the name of its definition. The Go tool
gives a meaning to some stems: it skips those that start with an underscore or a point, compiles
those that end in `_test` for tests only, and those that end in the name of a platform for that
platform only. Such stems, and the one of the package index, are changed.

* `fileStem`: the stem of a name.
-/

namespace AccessLayer.Naming

/-- The name with an underscore for each path separator; broken bytes become replacement
characters. -/
def flatName (name : Bytes) : Bytes :=
  Bytes.ofChars ((Bytes.chars name).map fun c => if c == '/' || c == '\\' then '_' else c)

def knownSystems : List String :=
  ["aix", "android", "darwin", "dragonfly", "freebsd", "hurd", "illumos", "ios", "js", "linux",
    "nacl", "netbsd", "openbsd", "plan9", "solaris", "wasip1", "windows", "zos"]

def knownProcessors : List String :=
  ["386", "amd64", "arm", "arm64", "loong64", "mips", "mipsle", "mips64", "mips64le", "ppc64",
    "ppc64le", "riscv64", "s390x", "wasm"]

/-- The part of a stem after its last underscore, if there is an underscore after its start. -/
def lastPart? (stem : Bytes) : Option Bytes :=
  match (stem.reverse.dropWhile (· != Bytes.byte '_')) with
  | [] | [_] => none
  | _ => some (stem.reverse.takeWhile (· != Bytes.byte '_')).reverse

def endsInPlatform (stem : Bytes) : Bool :=
  match lastPart? stem with
  | none => false
  | some part => (knownSystems ++ knownProcessors).any fun p => part == Bytes.ofString p

def indexStem : Bytes := "doc"

def fileStem (name : Bytes) : Bytes :=
  let stem := flatName name
  if stem == indexStem || (Bytes.ofString "_test").isSuffixOf stem || endsInPlatform stem then
    stem ++ "_gen"
  else if (Bytes.ofString "_").isPrefixOf stem || (Bytes.ofString ".").isPrefixOf stem then
    "gen" ++ stem
  else stem

end AccessLayer.Naming
