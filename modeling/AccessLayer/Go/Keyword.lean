import AccessLayer.Text.Bytes

/-!
# Reserved words of Go

* `Go.isKeyword`: whether a word cannot be an identifier.
-/

namespace AccessLayer.Go

def keywords : List String :=
  ["break", "case", "chan", "const", "continue", "default", "defer", "else", "fallthrough", "for",
    "func", "go", "goto", "if", "import", "interface", "map", "package", "range", "return",
    "select", "struct", "switch", "type", "var"]

def isKeyword (word : Bytes) : Bool := keywords.any fun k => word == Bytes.ofString k

end AccessLayer.Go
