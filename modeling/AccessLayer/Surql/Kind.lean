import AccessLayer.Text.Rune

/-!
# Field types

A type expression of a field, such as `string`, `option<int>` or `record<user | post>`.

* `Kind`: a name with arguments; alternations and literal types have reserved names.
* `Kind.render`: the type expression as text.
-/

namespace AccessLayer.Surql

/-- A type expression. The name `either` marks an alternation of the arguments and the name
`literal` a literal type, whose text is in `literal`. -/
inductive Kind where
  | mk (name : Bytes) (args : List Kind) (literal : Bytes)
deriving Repr, Inhabited

namespace Kind

def eitherName : Bytes := "either"

def literalName : Bytes := "literal"

def recordName : Bytes := "record"

def name : Kind → Bytes
  | mk n _ _ => n

def args : Kind → List Kind
  | mk _ as _ => as

def literal : Kind → Bytes
  | mk _ _ l => l

def ofLiteral (text : Bytes) : Kind := mk literalName [] text

mutual

/-- The type expression as text. Record arguments are alternatives and are divided by bars; other
arguments by commas. -/
def render : Kind → Bytes
  | mk n as l =>
    if n == literalName then l
    else if n == eitherName then Bytes.join " | " (renderAll as)
    else if as.isEmpty then n
    else
      n ++ "<" ++ Bytes.join (if n == recordName then " | " else ", ") (renderAll as) ++ ">"

def renderAll : List Kind → List Bytes
  | [] => []
  | k :: ks => render k :: renderAll ks

end

end Kind

end AccessLayer.Surql
