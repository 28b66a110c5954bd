import AccessLayer.Yaml.ScalarText

/-!
# From text to YAML tokens

* `tokenize?`: the tokens of the first document of a text.
-/

namespace AccessLayer.Yaml

namespace Scanner

/-! ## Keys -/

/-- Forgets the place where a key may have begun. It fails if a key has to be there. -/
def dropKey : Scanner Unit := do
  let s ← get
  match s.keys with
  | some k :: rest => if k.required then fail else set { s with keys := none :: rest }
  | _ => return

def saveKey : Scanner Unit := do
  let s ← get
  if s.keyAllowed then
    dropKey
    let place : KeyPlace :=
      { tokens := s.tokens.size, index := s.index, line := s.line, col := s.col
        required := !s.inFlow && s.indents.head? == some s.col }
    modify fun s => { s with keys := some place :: s.keys.tail }

/-- The place where the key before this position began. It has to be on the same line. -/
def keyPlace? : Scanner (Option KeyPlace) := do
  let s ← get
  match s.keys with
  | some k :: _ =>
    if k.line < s.line || k.index + 1024 < s.index then
      if k.required then fail else return none
    else return some k
  | _ => return none

/-! ## Indentation -/

/-- Opens a block collection at a column unless one is open there. Its token comes at position
`at_`. -/
def openBlock (col at_ : Nat) (t : Token) : Scanner Unit := modify fun s =>
  if s.inFlow || s.indents.head?.any (col ≤ ·) then s
  else { s with indents := col :: s.indents, tokens := s.tokens.insertIdxIfInBounds at_ t }

/-- Closes the block collections that begin after a column; all of them without a column. -/
def closeBlocks (col : Option Nat) : Scanner Unit := modify fun s =>
  if s.inFlow then s
  else
    let isOpen (i : Nat) : Bool := match col with
      | some c => i ≤ c
      | none => false
    let closed := s.indents.takeWhile fun i => !isOpen i
    { s with indents := s.indents.drop closed.length
             tokens := s.tokens ++ (closed.map fun _ => Token.blockEnd).toArray }

/-! ## Tokens -/

/-- Passes white space, comments and line breaks. -/
def toToken (fuel : Nat) : Scanner Unit :=
  match fuel with
  | 0 => return
  | fuel + 1 => do
    let s ← get
    match s.rest with
    | [] => return
    | c :: rest =>
      if c == ' ' || (c == '\t' && (s.inFlow || !s.keyAllowed)) then
        skip
        toToken fuel
      else if c == '#' then
        skipMany ((c :: rest).takeWhile fun d => !isBreak d).length
        toToken fuel
      else if isBreak c then
        let _ ← lineBreak
        if !s.inFlow then allowKey true
        toToken fuel
      else return

def sign (t : Token) : Scanner Unit := do
  skip
  emit t

def flowStart (t : Token) : Scanner Unit := do
  saveKey
  modify fun s => { s with keys := none :: s.keys }
  allowKey true
  sign t

def flowEnd (t : Token) : Scanner Unit := do
  dropKey
  modify fun s => { s with keys := if s.inFlow then s.keys.tail else s.keys }
  allowKey false
  sign t

def flowEntry : Scanner Unit := do
  dropKey
  allowKey true
  sign .flowEntry

def blockEntry : Scanner Unit := do
  let s ← get
  if !s.inFlow then
    if !s.keyAllowed then fail else openBlock s.col s.tokens.size .blockSequenceStart
  dropKey
  allowKey true
  sign .blockEntry

def keySign : Scanner Unit := do
  let s ← get
  if !s.inFlow then
    if !s.keyAllowed then fail else openBlock s.col s.tokens.size .blockMappingStart
  dropKey
  allowKey (!s.inFlow)
  sign .key

/-- The sign before a value. What stands before it on the line is its key. -/
def valueSign : Scanner Unit := do
  match ← keyPlace? with
  | some k =>
    modify fun s => { s with tokens := s.tokens.insertIdxIfInBounds k.tokens .key }
    openBlock k.col k.tokens .blockMappingStart
    modify fun s => { s with keys := none :: s.keys.tail }
    allowKey false
  | none =>
    let s ← get
    if !s.inFlow then
      if !s.keyAllowed then fail else openBlock s.col s.tokens.size .blockMappingStart
    allowKey (!s.inFlow)
  sign .value

def isNameChar (c : Char) : Bool := c.isAlphanum || c == '_' || c == '-'

def endsName (cs : List Char) : Bool :=
  spaceNext cs || cs.head?.any fun c => ['?', ':', ',', ']', '\x7d', '%', '@', '`'].contains c

def named (t : List Char → Token) : Scanner Unit := do
  saveKey
  allowKey false
  skip
  let s ← get
  let name := s.rest.takeWhile isNameChar
  skipMany name.length
  if name.isEmpty || !endsName (s.rest.drop name.length) then fail else emit (t name)

def tagged : Scanner Unit := do
  saveKey
  allowKey false
  let s ← get
  let name := s.rest.takeWhile fun c => !isBlank c && !isBreak c && !(s.inFlow && c == ',')
  skipMany name.length
  emit (.tag name)

def quotedToken (mark : Char) : Scanner Unit := do
  saveKey
  allowKey false
  emit (← quoted mark)

def plainToken : Scanner Unit := do
  saveKey
  allowKey false
  emit (← plain)

def blockToken (literal : Bool) : Scanner Unit := do
  dropKey
  allowKey true
  emit (← blockScalar literal)

def isIndicator (c : Char) : Bool :=
  ['-', '?', ':', ',', '[', ']', '\x7b', '\x7d', '#', '&', '*', '!', '|', '>', '\'', '"', '%', '@',
    '`'].contains c

def startsPlain (inFlow : Bool) (c : Char) (rest : List Char) : Bool :=
  !(isIndicator c || isBlank c || isBreak c) || (c == '-' && !rest.head?.any isBlank) ||
    (!inFlow && (c == '?' || c == ':') && !spaceNext rest)

def token (c : Char) (rest : List Char) : Scanner Unit := do
  let s ← get
  if c == '[' then flowStart .flowSequenceStart
  else if c == '\x7b' then flowStart .flowMappingStart
  else if c == ']' then flowEnd .flowSequenceEnd
  else if c == '\x7d' then flowEnd .flowMappingEnd
  else if c == ',' then flowEntry
  else if c == '-' && spaceNext rest then blockEntry
  else if c == '?' && (s.inFlow || spaceNext rest) then keySign
  else if c == ':' && (s.inFlow || spaceNext rest) then valueSign
  else if c == '*' then named .alias
  else if c == '&' then named .anchor
  else if c == '!' then tagged
  else if c == '|' && !s.inFlow then blockToken true
  else if c == '>' && !s.inFlow then blockToken false
  else if c == '\'' || c == '"' then quotedToken c
  else if startsPlain s.inFlow c rest then plainToken
  else fail

def finish : Scanner Unit := do
  closeBlocks none
  dropKey
  allowKey false

def directive : Scanner Unit := do
  closeBlocks none
  dropKey
  allowKey false
  let s ← get
  skipMany (s.rest.takeWhile fun c => !isBreak c).length

def tokens (fuel : Nat) (directives : Bool) : Scanner Unit :=
  match fuel with
  | 0 => fail
  | fuel + 1 => do
    let s ← get
    toToken (s.rest.length + 1)
    let s ← get
    closeBlocks (some s.col)
    match s.rest with
    | [] => if directives then fail else finish
    | c :: rest =>
      if s.col == 0 && c == '%' then
        if s.tokens.isEmpty then
          directive
          tokens fuel true
        else fail
      else if s.col == 0 && documentMark '-' s.rest then
        if s.tokens.isEmpty then
          finish
          skipMany 3
          emit .documentStart
          tokens fuel false
        else finish
      else if s.col == 0 && documentMark '.' s.rest then finish
      else if directives then fail
      else
        token c rest
        tokens fuel false

end Scanner

/-- The tokens of the first document of a text; `none` when it cannot be read. -/
def tokenize? (text : Bytes) : Option (List Token) :=
  let cs := match Bytes.chars text with
    | '\ufeff' :: rest => rest
    | cs => cs
  if Bytes.isValid text && cs.all isAllowed then
    ((Scanner.tokens (cs.length + 2) false).run { rest := cs }).map fun r => r.2.tokens.toList
  else none

end AccessLayer.Yaml
