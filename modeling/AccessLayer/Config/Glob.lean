import AccessLayer.Config.Glob.Compile

/-!
# Globs

A glob is matched against a whole path.

* `Glob.parse`: the glob of a text.
* `Glob.admits`: whether a path fits.
-/

namespace AccessLayer

/-- A pattern of paths. -/
structure Glob where
  matcher : Glob.Matcher

namespace Glob

def parse (s : Bytes) : Except Fault Glob :=
  match pieces [] [] (Bytes.chars s) with
  | .ok ps => .ok ⟨compile ps⟩
  | .error f => .error f

def admits (g : Glob) (path : Bytes) : Bool := g.matcher.behaviour.admits path

end Glob

end AccessLayer
