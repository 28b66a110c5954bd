import AccessLayer.Template.Syntax

/-!
# Reading templates

* `Template.parse?`: the parts of a template; `none` when it is malformed.
-/

namespace AccessLayer.Template

def ownFunctions : List String :=
  ["pascal", "camel", "snake", "plural", "goString", "quote", "join", "flatten",
    "joinParamsSignature"]

def commonFunctions : List String :=
  ["and", "or", "not", "len", "eq", "ne", "lt", "le", "gt", "ge", "index", "slice", "print",
    "printf", "println", "html", "js", "urlquery", "call"]

def isFunction (name : Bytes) : Bool :=
  (ownFunctions ++ commonFunctions).any fun f => name == Bytes.ofString f

/-- The words that start or end parts of a template, and so name no function. -/
def isReserved (name : Bytes) : Bool :=
  ["if", "else", "end", "range", "with", "define", "block", "template", "break", "continue",
    "nil"].any fun w => name == Bytes.ofString w

/-! ## Pipelines -/

def skipSpace : List Word → List Word
  | .space :: ws => skipSpace ws
  | ws => ws

/-- The fields that follow a value without white space, and the rest. -/
def fieldChain : List Word → List Bytes × List Word
  | .field f :: ws =>
    let (fs, rest) := fieldChain ws
    (f :: fs, rest)
  | ws => ([], ws)

def startsOperand : Word → Bool
  | .ident _ | .field _ | .dot | .variable_ _ | .text _ | .number _ => true
  | .sign s => s == "("
  | .space => false

/-- Whether a command may receive the value of the one before it. -/
def isExecutable (c : Command) : Bool :=
  match c with
  | .path none [] :: _ | .text _ :: _ | .number _ :: _ | .flag _ :: _ => false
  | _ => true

mutual

def operand? (fuel : Nat) (ws : List Word) : Option (Operand × List Word) :=
  match fuel with
  | 0 => none
  | fuel + 1 =>
    match ws with
    | .dot :: rest =>
      match rest with
      | .field _ :: _ => none
      | _ => some (.path none [], rest)
    | .field f :: rest =>
      let (fs, rest) := fieldChain rest
      some (.path none (f :: fs), rest)
    | .variable_ v :: rest =>
      let (fs, rest) := fieldChain rest
      some (.path (some v) fs, rest)
    | .text t :: rest =>
      match rest with
      | .field _ :: _ => none
      | _ => some (.text t, rest)
    | .number n :: rest =>
      match rest with
      | .field _ :: _ => none
      | _ => some (.number n, rest)
    | .ident name :: rest =>
      if name == "true" || name == "false" then some (.flag (name == "true"), rest)
      else if isFunction name then some (.call name, rest)
      else none
    | .sign s :: rest =>
      if s != "(" then none
      else
        match pipeline? fuel rest true with
        | none => none
        | some (p, rest) =>
          let (fs, rest) := fieldChain rest
          some (.group p fs, rest)
    | _ => none

/-- The values of a command, up to a bar, a closing parenthesis or the end. -/
def command? (fuel : Nat) (ws : List Word) : Option (Command × List Word) :=
  match fuel with
  | 0 => none
  | fuel + 1 =>
    match skipSpace ws with
    | [] => some ([], [])
    | w :: rest =>
      if startsOperand w then
        match operand? fuel (w :: rest) with
        | none => none
        | some (x, after) =>
          match after with
          | .space :: _ | [] | .sign "|" :: _ | .sign ")" :: _ =>
            (command? fuel after).map fun (xs, rest) => (x :: xs, rest)
          | _ => none
      else if w = .sign "|" || w = .sign ")" then some ([], w :: rest)
      else none

/-- A pipeline, up to the end or, inside of parentheses, up to the closing one, which is taken. -/
def pipeline? (fuel : Nat) (ws : List Word) (inParens : Bool) :
    Option (Pipeline × List Word) :=
  match fuel with
  | 0 => none
  | fuel + 1 =>
    match command? fuel ws with
    | none | some ([], _) => none
    | some (c, rest) =>
      match rest with
      | .sign "|" :: rest =>
        match pipeline? fuel rest inParens with
        | some (next :: more, rest) =>
          if isExecutable next then some (c :: next :: more, rest) else none
        | _ => none
      | .sign ")" :: rest => if inParens then some ([c], rest) else none
      | [] => if inParens then none else some ([c], [])
      | _ => none

end

def wholePipeline? (ws : List Word) : Option Pipeline :=
  match pipeline? (4 * ws.length + 4) ws false with
  | some (p, []) => some p
  | _ => none

def assignment? (ws : List Word) : Option (Option Bytes × Pipeline) :=
  match skipSpace ws with
  | .variable_ v :: rest =>
    match skipSpace rest with
    | .sign ":=" :: value | .sign "=" :: value => (wholePipeline? value).map fun p => (some v, p)
    | _ => (wholePipeline? ws).map fun p => (none, p)
  | _ => (wholePipeline? ws).map fun p => (none, p)

/-- The head of a loop: the variables for the position and the element, and what it goes through. -/
def loopHead? (ws : List Word) : Option (Option Bytes × Option Bytes × Pipeline) :=
  match skipSpace ws with
  | .variable_ v :: rest =>
    match skipSpace rest with
    | .sign ":=" :: value => (wholePipeline? value).map fun p => (none, some v, p)
    | .sign "," :: second =>
      match skipSpace second with
      | .variable_ w :: after =>
        match skipSpace after with
        | .sign ":=" :: value => (wholePipeline? value).map fun p => (some v, some w, p)
        | _ => none
      | _ => none
    | _ => (wholePipeline? ws).map fun p => (none, none, p)
  | _ => (wholePipeline? ws).map fun p => (none, none, p)

/-! ## Parts -/

/-- What ended a list of parts: the end of the template, an end mark, or an `else` with what
follows it. -/
inductive Ending where
  | template
  | end_
  | else_ (words : List Word)

/-- The words of an action without white space at their ends. -/
def trimWords (ws : List Word) : List Word :=
  (skipSpace (skipSpace ws).reverse).reverse

mutual

/-- The parts up to an end mark, an `else` or the end of the template. -/
def nodes? (fuel : Nat) (ps : List Piece) : Option (List Node × Ending × List Piece) :=
  match fuel with
  | 0 => none
  | fuel + 1 =>
    match ps with
    | [] => some ([], .template, [])
    | .text t :: rest =>
      (nodes? fuel rest).map fun (ns, e, rest) => (if t.isEmpty then ns else .text t :: ns, e, rest)
    | .action ws :: rest =>
      let ws := trimWords ws
      match ws with
      | .ident k :: args =>
        if k == "end" then (if args.isEmpty then some ([], .end_, rest) else none)
        else if k == "else" then some ([], .else_ (skipSpace args), rest)
        else if k == "if" || k == "with" || k == "range" then
          match branch? fuel k args rest with
          | none => none
          | some (n, rest) => (nodes? fuel rest).map fun (ns, e, rest) => (n :: ns, e, rest)
        else if isReserved k then none
        else output? fuel ws rest
      | [] => none
      | _ => output? fuel ws rest

/-- The part that prints the value of an action, and the parts after it. -/
def output? (fuel : Nat) (ws : List Word) (rest : List Piece) :
    Option (List Node × Ending × List Piece) :=
  match fuel with
  | 0 => none
  | fuel + 1 =>
    match assignment? ws with
    | none => none
    | some (v, p) =>
      let n : Node := match v with
        | some name => .assign name p
        | none => .output p
      (nodes? fuel rest).map fun (ns, e, rest) => (n :: ns, e, rest)

def branch? (fuel : Nat) (k : Bytes) (args : List Word) (rest : List Piece) :
    Option (Node × List Piece) :=
  match fuel with
  | 0 => none
  | fuel + 1 =>
    match nodes? fuel rest with
    | none => none
    | some (body, ending, rest) =>
      let tail : Option (List Node × List Piece) := match ending with
        | .template => none
        | .end_ => some ([], rest)
        | .else_ [] =>
          match nodes? fuel rest with
          | some (other, .end_, rest) => some (other, rest)
          | _ => none
        | .else_ (.ident k' :: args') =>
          if (k' == "if" || k' == "with") && k == k' then
            (branch? fuel k' args' rest).map fun (n, rest) => ([n], rest)
          else none
        | .else_ _ => none
      match tail with
      | none => none
      | some (other, rest) =>
        if k == "range" then
          (loopHead? args).map fun (i, e, p) => (.loop i e p body other, rest)
        else
          (wholePipeline? args).map fun p =>
            (if k == "if" then .cond p body other else .with_ p body other, rest)

end

def parse? (s : Bytes) : Option (List Node) := do
  let ps ← pieces? s
  match nodes? (4 * ps.length + 4) ps with
  | some (ns, .template, _) => return ns
  | _ => none

end AccessLayer.Template
