import AccessLayer.Surql.Tokenize

/-!
# Statement spans

A token stream is cut at the semicolons outside of brackets. Brackets are checked on the way: the
stream has to be well nested as a whole before any statement is looked at.

* `Span`: the tokens of one statement and the end-of-input token that closes them.
* `splitSpans`: the spans of a stream.
-/

namespace AccessLayer.Surql

/-- The tokens of one statement; `stop` is the end-of-input token that follows them. -/
structure Span where
  tokens : List Token
  stop : Token
deriving DecidableEq, Repr

namespace Span

/-- The span of the tokens read so far, last token first, cut before the token `at`. No tokens make
no span. -/
def close (current : List Token) (at_ : Token) : List Span :=
  if current.isEmpty then [] else [⟨current.reverse, Token.endAt at_.start⟩]

/-- Cuts the rest of a stream. `opened` holds the brackets still open, innermost first, and
`current` the tokens of the statement being read, last first. -/
def cut (opened current : List Token) : List Token → Except ParseError (List Span)
  | [] => .ok []
  | t :: ts =>
    if t.kind == .endOfInput then
      match opened with
      | o :: _ => .error ⟨.unclosed o.kind, o.start⟩
      | [] => .ok (close current t)
    else if t.kind.isOpener then cut (t :: opened) (t :: current) ts
    else if t.kind.isCloser then
      match opened with
      | [] => .error ⟨.unexpectedCloser t.kind, t.start⟩
      | o :: outer =>
        if o.kind.closer? == some t.kind then cut outer (t :: current) ts
        else .error ⟨.unexpectedCloser t.kind, t.start⟩
    else if t.kind == .semicolon && opened.isEmpty then
      match cut [] [] ts with
      | .ok spans => .ok (close current t ++ spans)
      | .error e => .error e
    else cut opened (t :: current) ts

end Span

/-- The spans of a token stream that ends in an end-of-input token. -/
def splitSpans (tokens : List Token) : Except ParseError (List Span) := Span.cut [] [] tokens

end AccessLayer.Surql
