import AccessLayer.Surql.LexemeSplit
import AccessLayer.Surql.ParseError

/-!
# Token streams

A text is read as a sequence of tokens with gaps of white space and comments between them. Places
are computed from what was read, so that they are exact whatever bytes the text holds.

* `tokenize`: the tokens of a text, ended by one end-of-input token.
-/

namespace AccessLayer.Surql

/-- The tokens of the code points that stand at a place. -/
def tokensFrom (p : Position) (rs : List Rune) : Except ParseError (List Token) :=
  match rs with
  | [] => .ok [Token.endAt p]
  | r :: tail =>
    match hg : Lexeme.gap (r :: tail) with
    | .error fault => .error ⟨.lex fault, p⟩
    | .ok (some (taken, rest)) =>
      have : rest.length < (r :: tail).length := gap_length_lt hg
      tokensFrom (p.after taken) rest
    | .ok none =>
      match hl : lexeme (r :: tail) with
      | .error fault => .error ⟨.lex fault, p⟩
      | .ok l =>
        have : l.rest.length < (r :: tail).length := lexeme_length_lt hl
        let stop := p.after l.taken
        match tokensFrom stop l.rest with
        | .error e => .error e
        | .ok tokens => .ok (⟨l.kind, l.literal, p, stop.offset⟩ :: tokens)
termination_by rs.length
decreasing_by all_goals exact this

def tokenize (src : Bytes) : Except ParseError (List Token) :=
  tokensFrom .start (Bytes.runes src)

end AccessLayer.Surql
