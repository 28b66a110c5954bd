import AccessLayer.Go.Imports
import AccessLayer.Go.Print.File
import AccessLayer.Go.Tidy

/-!
# Formatting Go sources

A rendered source gets its imports in order, the standard layout, and then the tidy one.

* `Go.format`: the formatted source; `none` when the text is no valid Go.
-/

namespace AccessLayer.Go

/-- A file in the tidy layout; `none` when the text is no valid Go. -/
def tidy (text : Bytes) : Option Bytes := do
  let f ← File.parse text
  let (f, lines) := Tidy.file f (LineTable.ofBytes text)
  return f.print lines true

def format (text : Bytes) : Option Bytes := do
  let text ← Imports.arrange text
  let text ← File.reprint text
  let text ← File.reprint text
  tidy text

end AccessLayer.Go
