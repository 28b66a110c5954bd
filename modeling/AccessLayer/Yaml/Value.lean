import AccessLayer.Yaml.Scalar
import AccessLayer.Yaml.Tokenize

/-!
# YAML values

* `Value`: what a document stands for.
* `Value.parse?`: the value of the first document of a text.
-/

namespace AccessLayer.Yaml

/-- What a document stands for. -/
inductive Value where
  | scalar (s : Scalar)
  | list (items : List Value)
  /-- A mapping; each key stands once. -/
  | map (entries : List (Bytes × Value))
deriving Inhabited

namespace Value

def null : Value := .scalar .null

def text (s : Bytes) : Value := .scalar (.text s)

end Value

/-! ## Nodes -/

/-- A node of a document before its references are resolved. -/
inductive Node where
  | scalar (text : List Char) (plain : Bool) (tag : List Char)
  | alias (name : List Char)
  | list (items : List Node)
  | map (entries : List (Node × Node))
  /-- A node that is referred to elsewhere. -/
  | named (anchor : List Char) (node : Node)
deriving Inhabited

namespace Node

def empty : Node := .scalar [] true []

/-- A reader of nodes. -/
abbrev Reader := StateT (List Token) Option

def peek : Reader (Option Token) := do return (← get).head?

def pass : Reader Unit := modify List.tail

def fail {α : Type} : Reader α := fun _ => none

def accept (t : Token) : Reader Bool := do
  if (← peek) == some t then
    pass
    return true
  else return false

/-- The anchor and the tag before a node, in any order. -/
def properties (fuel : Nat) (anchor tag : Option (List Char)) :
    Reader (Option (List Char) × Option (List Char)) :=
  match fuel with
  | 0 => return (anchor, tag)
  | fuel + 1 => do
    match ← peek with
    | some (.anchor a) =>
      if anchor.isSome then return (anchor, tag)
      else
        pass
        properties fuel (some a) tag
    | some (.tag t) =>
      if tag.isSome then return (anchor, tag)
      else
        pass
        properties fuel anchor (some t)
    | _ => return (anchor, tag)

def withAnchor (anchor : Option (List Char)) (n : Node) : Node :=
  match anchor with
  | some a => .named a n
  | none => n

/-- A node without content, which needs an anchor or a tag. -/
def bare (anchor tag : Option (List Char)) : Reader Node :=
  if anchor.isSome || tag.isSome then return .scalar [] true (tag.getD []) else fail

mutual

/-- A node. In a block it may be a block collection; `indentless` allows a sequence whose entries
stand at the column of the keys around it. -/
def node (fuel : Nat) (block indentless : Bool) : Reader Node :=
  match fuel with
  | 0 => fail
  | fuel + 1 => do
    match ← peek with
    | some (.alias name) =>
      pass
      return .alias name
    | _ =>
      let (anchor, tag) ← properties 2 none none
      let content ← match ← peek with
        | some (.scalar text plain) => do
          pass
          pure (Node.scalar text plain (tag.getD []))
        | some .blockEntry =>
          if indentless then do pure (.list (← indentlessItems fuel))
          else bare anchor tag
        | some .flowSequenceStart => do
          pass
          pure (.list (← flowItems fuel true))
        | some .flowMappingStart => do
          pass
          pure (.map (← flowEntries fuel true))
        | some .blockSequenceStart =>
          if block then do
            pass
            pure (.list (← blockItems fuel))
          else bare anchor tag
        | some .blockMappingStart =>
          if block then do
            pass
            pure (.map (← blockEntries fuel))
          else bare anchor tag
        | _ => bare anchor tag
      return withAnchor anchor content

def blockItems (fuel : Nat) : Reader (List Node) :=
  match fuel with
  | 0 => fail
  | fuel + 1 => do
    if ← accept .blockEntry then
      let item ← match ← peek with
        | some .blockEntry | some .blockEnd => pure empty
        | _ => node fuel true false
      return item :: (← blockItems fuel)
    else if ← accept .blockEnd then return []
    else fail

/-- The entries of a sequence at the column of the keys around it. -/
def indentlessItems (fuel : Nat) : Reader (List Node) :=
  match fuel with
  | 0 => fail
  | fuel + 1 => do
    if ← accept .blockEntry then
      let item ← match ← peek with
        | some .blockEntry | some .key | some .value | some .blockEnd => pure empty
        | _ => node fuel true false
      return item :: (← indentlessItems fuel)
    else return []

def blockEntries (fuel : Nat) : Reader (List (Node × Node)) :=
  match fuel with
  | 0 => fail
  | fuel + 1 => do
    if ← accept .key then
      let key ← blockPart fuel
      let value ← if ← accept .value then blockPart fuel else pure empty
      return (key, value) :: (← blockEntries fuel)
    else if ← accept .blockEnd then return []
    else fail

def blockPart (fuel : Nat) : Reader Node :=
  match fuel with
  | 0 => fail
  | fuel + 1 => do
    match ← peek with
    | some .key | some .value | some .blockEnd => return empty
    | _ => node fuel true true

def flowItems (fuel : Nat) (first : Bool) : Reader (List Node) :=
  match fuel with
  | 0 => fail
  | fuel + 1 => do
    if ← accept .flowSequenceEnd then return []
    else
      let divided ← if first then pure true else accept .flowEntry
      if !divided then fail
      else if ← accept .key then
        let key ← flowPart fuel
        let value ← if ← accept .value then flowPart fuel else pure empty
        return .map [(key, value)] :: (← flowItems fuel false)
      else if ← accept .flowSequenceEnd then return []
      else
        let item ← node fuel false false
        return item :: (← flowItems fuel false)

def flowEntries (fuel : Nat) (first : Bool) : Reader (List (Node × Node)) :=
  match fuel with
  | 0 => fail
  | fuel + 1 => do
    if ← accept .flowMappingEnd then return []
    else
      let divided ← if first then pure true else accept .flowEntry
      if !divided then fail
      else if ← accept .key then
        let key ← flowPart fuel
        let value ← if ← accept .value then flowPart fuel else pure empty
        return (key, value) :: (← flowEntries fuel false)
      else if ← accept .flowMappingEnd then return []
      else
        let key ← node fuel false false
        return (key, empty) :: (← flowEntries fuel false)

def flowPart (fuel : Nat) : Reader Node :=
  match fuel with
  | 0 => fail
  | fuel + 1 => do
    match ← peek with
    | some .value | some .flowEntry | some .flowSequenceEnd | some .flowMappingEnd => return empty
    | _ => node fuel false false

end

/-- The node of a document; a document without content is empty. -/
def ofTokens? (tokens : List Token) : Option Node :=
  let body := if tokens.head? == some .documentStart then tokens.tail else tokens
  if body.isEmpty then some empty
  else
    match (node (2 * body.length + 2) true true).run body with
    | some (n, []) => some n
    | _ => none

/-! ## Values -/

/-- The nodes that references stand for, by their names. -/
abbrev Anchors := List (List Char × Value)

/-- The tags that are known, by their usual spelling. -/
def isTag (tag : List Char) (name : String) : Bool :=
  tag == ("!!" ++ name).toList || tag == ("!<tag:yaml.org,2002:" ++ name ++ ">").toList

/-- The value of a scalar; a tag has to fit what it says. -/
def scalarValue? (text : List Char) (plain : Bool) (tag : List Char) : Option Scalar :=
  let s := Bytes.ofChars text
  if tag.isEmpty then some (if plain then .ofPlain s else .text s)
  else if isTag tag "str" || (tag == ['!'] && !plain) then some (.text s)
  else
    match Scalar.ofPlain s with
    | .null => if isTag tag "null" then some .null else none
    | .flag b => if isTag tag "bool" then some (.flag b) else none
    | .number t => if isTag tag "int" || isTag tag "float" then some (.number t) else none
    | .timestamp => if isTag tag "timestamp" then some .timestamp else none
    | .text t => if tag == ['!'] then some (.text t) else none

def keyText? : Node → Option (List Char)
  | .scalar text _ _ => some text
  | .named _ n => keyText? n
  | _ => none

/-- Whether a key asks to take in the entries of another mapping. -/
def isMerge : Node → Bool
  | .scalar text _ tag => text == ['<', '<'] && (tag.isEmpty || tag == ['!'])
  | _ => false

def mergedEntries? : Value → Option (List (Bytes × Value))
  | .map entries => some entries
  | .list items => (items.mapM fun v => match v with
      | Value.map entries => some entries
      | _ => none).map List.flatten
  | _ => none

def addEntries (entries more : List (Bytes × Value)) : List (Bytes × Value) :=
  more.foldl (fun es e => if es.any (·.1 == e.1) then es else es ++ [e]) entries

def hasRepeated : List (List Char) → Bool
  | [] => false
  | k :: ks => ks.contains k || hasRepeated ks

mutual

/-- The value of a node and the references that are known after it. -/
def value? (fuel : Nat) (anchors : Anchors) (n : Node) : Option (Value × Anchors) :=
  match fuel with
  | 0 => none
  | fuel + 1 =>
    match n with
    | .scalar text plain tag => (scalarValue? text plain tag).map fun s => (.scalar s, anchors)
    | .alias name => (anchors.lookup name).map fun v => (v, anchors)
    | .named name inner => do
      let (v, anchors) ← value? fuel anchors inner
      return (v, (name, v) :: anchors)
    | .list items => do
      let (vs, anchors) ← values? fuel anchors items
      return (.list vs, anchors)
    | .map entries => do
      let keys ← entries.mapM fun e => keyText? e.1
      if hasRepeated keys then none
      else
        let (own, merged, anchors) ← entries? fuel anchors entries
        return (.map (addEntries own merged), anchors)

def values? (fuel : Nat) (anchors : Anchors) (ns : List Node) : Option (List Value × Anchors) :=
  match fuel with
  | 0 => none
  | fuel + 1 =>
    match ns with
    | [] => some ([], anchors)
    | n :: rest => do
      let (v, anchors) ← value? fuel anchors n
      let (vs, anchors) ← values? fuel anchors rest
      return (v :: vs, anchors)

/-- The entries of a mapping, and those that are taken in from others. -/
def entries? (fuel : Nat) (anchors : Anchors) (es : List (Node × Node)) :
    Option (List (Bytes × Value) × List (Bytes × Value) × Anchors) :=
  match fuel with
  | 0 => none
  | fuel + 1 =>
    match es with
    | [] => some ([], [], anchors)
    | (k, n) :: rest => do
      let key ← keyText? k
      let (_, anchors) ← value? fuel anchors k
      let (v, anchors) ← value? fuel anchors n
      let (own, merged, anchors) ← entries? fuel anchors rest
      if isMerge k then return (own, (← mergedEntries? v) ++ merged, anchors)
      else return ((Bytes.ofChars key, v) :: own, merged, anchors)

end

end Node

/-- The value of the first document of a text; `none` when it cannot be read. -/
def Value.parse? (text : Bytes) : Option Value := do
  let tokens ← tokenize? text
  let n ← Node.ofTokens? tokens
  let (v, _) ← Node.value? (2 * tokens.length + 4) [] n
  return v

end AccessLayer.Yaml
