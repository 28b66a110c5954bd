import AccessLayer.Naming.Plural
import AccessLayer.Query.Params
import AccessLayer.Template.Datum
import AccessLayer.Template.Parse
import AccessLayer.Text.Quoted

/-!
# Filling templates

A template is filled with a value. Filling fails on a field that is not there, on an argument of the
wrong kind and on a call with the wrong number of arguments.

* `Template.call?`: the functions of templates.
* `Template.fill?`: the text of a filled template.
-/

namespace AccessLayer.Template

/-! ## Functions -/

def asText? : Datum → Option Bytes
  | .text s => some s
  | _ => none

def onText (f : Bytes → Option Bytes) : List Datum → Option Datum
  | [.text s] => (f s).map .text
  | _ => none

def asParams? : Datum → Option (List Query.Param)
  | .records .parameter items =>
    items.mapM fun fields => do
      let d : Datum := .record .parameter fields
      let name ← (d.field? "Name").bind asText?
      let type ← (d.field? "Type").bind asText?
      return ⟨name, type, []⟩
  | _ => none

def equal? : Datum → Datum → Option Bool
  | .text a, .text b => some (a == b)
  | .flag a, .flag b => some (a == b)
  | .number a, .number b => some (a == b)
  | _, _ => none

/-- The result of a function; `none` when its arguments do not fit. -/
def call? (name : Bytes) (args : List Datum) : Option Datum :=
  if name == "pascal" then onText (fun s => some (Naming.pascal s)) args
  else if name == "camel" then onText Naming.camel? args
  else if name == "snake" then onText (fun s => some (Naming.snake s)) args
  else if name == "plural" then onText (fun s => some (plural s)) args
  else if name == "goString" then onText (fun s => some (Bytes.goString s)) args
  else if name == "quote" then onText (fun s => some (Bytes.quote s)) args
  else if name == "join" then
    match args with
    | [.texts ss, .text sep] => some (.text (Bytes.join sep ss))
    | _ => none
  else if name == "flatten" then some (.texts (Query.Item.flattenAll (args.map (·.toItem))))
  else if name == "joinParamsSignature" then
    match args with
    | [d] => (asParams? d).map fun ps => .text (Query.paramList ps)
    | _ => none
  else if name == "not" then
    match args with
    | [d] => some (.flag (!d.isTrue))
    | _ => none
  else if name == "len" then
    match args with
    | [d] => d.length?.map fun n => .number n
    | _ => none
  else if name == "eq" then
    match args with
    | d :: e :: es => do
      let bs ← (e :: es).mapM (equal? d)
      return .flag (bs.any id)
    | _ => none
  else if name == "ne" then
    match args with
    | [d, e] => (equal? d e).map fun b => .flag (!b)
    | _ => none
  else if name == "and" then
    (args.find? fun d => !d.isTrue).or args.getLast?
  else if name == "or" then (args.find? Datum.isTrue).or args.getLast?
  else if name == "print" then
    some (.text (args.flatMap Datum.display))
  else none

/-! ## Values -/

def follow? : Datum → List Bytes → Option Datum
  | d, [] => some d
  | d, f :: fs => (d.field? f).bind fun e => follow? e fs

/-- The values that a template sees: the one it is filled with, the current one and the variables,
the last one set first. -/
structure Scope where
  root : Datum
  dot : Datum
  bindings : List (Bytes × Datum)

/-- The value of a variable; the one without a name is what the template is filled with. -/
def Scope.lookup? (s : Scope) (name : Bytes) : Option Datum :=
  if name.isEmpty then some s.root else s.bindings.lookup name

mutual

def operandValue? (fuel : Nat) (s : Scope) (x : Operand) : Option Datum :=
  match fuel with
  | 0 => none
  | fuel + 1 =>
    match x with
    | .path none fs => follow? s.dot fs
    | .path (some v) fs => (s.lookup? v).bind fun d => follow? d fs
    | .text t => some (.text t)
    | .number n => some (.number n)
    | .flag b => some (.flag b)
    | .call name => call? name []
    | .group p fs => (pipelineValue? fuel s p none).bind fun d => follow? d fs

def operandValues? (fuel : Nat) (s : Scope) (xs : List Operand) : Option (List Datum) :=
  match fuel with
  | 0 => none
  | fuel + 1 =>
    match xs with
    | [] => some []
    | x :: rest => do
      let d ← operandValue? fuel s x
      let ds ← operandValues? fuel s rest
      return d :: ds

def commandValue? (fuel : Nat) (s : Scope) (c : Command) (last : Option Datum) : Option Datum :=
  match fuel with
  | 0 => none
  | fuel + 1 =>
    match c with
    | .call name :: args => do
      let ds ← operandValues? fuel s args
      call? name (ds ++ last.toList)
    | [x] => if last.isSome then none else operandValue? fuel s x
    | _ => none

def pipelineValue? (fuel : Nat) (s : Scope) (p : Pipeline) (last : Option Datum) : Option Datum :=
  match fuel with
  | 0 => none
  | fuel + 1 =>
    match p with
    | [] => last
    | c :: rest => do
      let d ← commandValue? fuel s c last
      pipelineValue? fuel s rest (some d)

end

/-! ## Parts -/

mutual

/-- The text of parts, one after the other; a variable that is set holds for the parts after it. -/
def fillNodes? (fuel : Nat) (s : Scope) (ns : List Node) : Option Bytes :=
  match fuel with
  | 0 => none
  | fuel + 1 =>
    match ns with
    | [] => some []
    | .text t :: rest => (fillNodes? fuel s rest).map (t ++ ·)
    | .output p :: rest => do
      let d ← pipelineValue? fuel s p none
      return d.display ++ (← fillNodes? fuel s rest)
    | .assign v p :: rest => do
      let d ← pipelineValue? fuel s p none
      fillNodes? fuel { s with bindings := (v, d) :: s.bindings } rest
    | .cond p body other :: rest => do
      let d ← pipelineValue? fuel s p none
      let text ← fillNodes? fuel s (if d.isTrue then body else other)
      return text ++ (← fillNodes? fuel s rest)
    | .with_ p body other :: rest => do
      let d ← pipelineValue? fuel s p none
      let text ← if d.isTrue then fillNodes? fuel { s with dot := d } body
        else fillNodes? fuel s other
      return text ++ (← fillNodes? fuel s rest)
    | .loop i e p body other :: rest => do
      let d ← pipelineValue? fuel s p none
      let elements ← d.elements?
      let text ← if elements.isEmpty then fillNodes? fuel s other
        else fillLoop? fuel s i e body 0 elements
      return text ++ (← fillNodes? fuel s rest)

def fillLoop? (fuel : Nat) (s : Scope) (index element : Option Bytes) (body : List Node)
    (position : Nat) (elements : List Datum) : Option Bytes :=
  match fuel with
  | 0 => none
  | fuel + 1 =>
    match elements with
    | [] => some []
    | d :: ds => do
      let bindings := (element.map fun v => (v, d)).toList ++
        (index.map fun v => (v, Datum.number position)).toList ++ s.bindings
      let text ← fillNodes? fuel { s with dot := d, bindings } body
      return text ++ (← fillLoop? fuel s index element body (position + 1) ds)

end

def weight : Datum → Nat
  | .record _ fields => fields.foldl (fun n f => n + (f.2.length?.getD 0)) 0
  | _ => 0

/-- The text of a template filled with a value. The length of the template and of the lists bounds
the steps. -/
def fill? (template : List Node) (size : Nat) (d : Datum) : Option Bytes :=
  fillNodes? (8 * size + weight d + 64) ⟨d, d, []⟩ template

end AccessLayer.Template
