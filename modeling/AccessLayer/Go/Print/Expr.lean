import AccessLayer.Go.Print.Sheet

/-!
# Printing expressions and types

Lists keep the line breaks of the source, and the values of key-value pairs on neighbouring lines
are aligned as long as the keys are of similar length. Blanks around binary operators show their
precedence. The printers are open: what they need of each other is a record that `Print.layout`
closes.

* `Print.exprList`: expression lists.
* `Print.expr1`: expressions.
* `Print.parameters`, `Print.fieldList`: fields between brackets.
-/

namespace AccessLayer.Go

open Bytes

/-- The printers that call each other. -/
structure Layout where
  expr1 : Expr → Nat → Nat → Printer Unit
  stmt : Stmt → Bool → Printer Unit
  block : Block → Bool → Printer Unit

namespace Layout

def expr0 (l : Layout) (x : Expr) (depth : Nat) : Printer Unit := l.expr1 x 0 depth

def expr (l : Layout) (x : Expr) : Printer Unit := l.expr1 x 0 1

/-- How long an item is on a sheet of its own; `none` when it is longer than `most` or takes
several lines. -/
def size? (p : Printer Unit) (most : Nat) : Printer (Option Nat) := do
  let s ← get
  let alone := (p.run (Sheet.blank s.lines s.isTidy [])).2
  return alone.size?.filter (· ≤ most)

/-- How long an expression is; `none` when it is longer than `most` or takes several lines. -/
def exprSize? (l : Layout) (x : Expr) (most : Nat) : Printer (Option Nat) := size? (l.expr x) most

/-- How long a statement is; `none` when it is longer than `most` or takes several lines. -/
def stmtSize? (l : Layout) (s : Stmt) (most : Nat) : Printer (Option Nat) :=
  size? (l.stmt s false) most

/-- What an expression looks like on a sheet of its own. -/
def exprPieces (l : Layout) (x : Expr) : Printer (List Piece) := do
  let s ← get
  return ((l.expr x).run (Sheet.blank s.lines s.isTidy [])).2.pieces

end Layout

namespace Print

open Printer

/-! ## Lists -/

/-- How a list is set: whether its lines are indented, and whether a comma ends the last line. -/
structure ListStyle where
  indented : Bool
  commaTerm : Bool

/-- Sizes above this are compared by their ratio. -/
def smallSize : Nat := 40

/-- Whether a key of the given size stays aligned with the keys before it: both the last and this
one are small, or it is within a factor of five halves of the geometric mean of all of them. -/
def staysAligned (sizes : List Nat) (prevSize size : Nat) : Bool :=
  if sizes.isEmpty || (prevSize ≤ smallSize && size ≤ smallSize) then true
  else
    let n := sizes.length
    let product := sizes.foldl (· * ·) 1
    !(Nat.pow 5 n * Nat.pow size n ≤ Nat.pow 2 n * product ||
      Nat.pow 5 n * product ≤ Nat.pow 2 n * Nat.pow size n)

/-- What is carried from one element of a list to the next. -/
structure ListState where
  /-- The held-back indentation, until the first line break. -/
  before : Gap
  /-- The index of the last element that started a line. -/
  prevBreak : Option Nat
  prevLine : Nat
  /-- The size of the last element, zero when it is unknown. -/
  size : Nat
  sizes : List Nat

def listElement (l : Layout) (depth : Nat) (count : Nat) (measured : Bool) (st : ListState)
    (i : Nat) (x : Expr) : Printer ListState := do
  let line ← lineOf x.start
  let whole ← if measured then l.exprSize? x 1000000 else pure none
  let size ← match whole with
    | none => pure 0
    | some n =>
      match x with
      | .pair _ key _ _ => pure ((← l.exprSize? key 1000000).getD 0)
      | _ => pure n
  let useFormfeed := !(0 < st.size && 0 < size && staysAligned st.sizes st.size size)
  let needsBreak := 0 < st.prevLine && st.prevLine < line
  let mut st' := st
  if 0 < i then
    if !needsBreak then setPos x.start
    sign ","
    let mut needsBlank := true
    if needsBreak then
      let several := match st.prevBreak with
        | none => 0 < i
        | some b => b + 1 < i
      let n ← linebreak line 0 st.before (useFormfeed || several)
      if 0 < n then
        st' := { st' with before := .ignore, prevBreak := some i }
        needsBlank := false
      if 1 < n then st' := { st' with sizes := [] }
    if needsBlank then gap .blank
  match x with
  | .pair _ key colon value =>
    if 1 < count && 0 < size && needsBreak then
      l.expr key
      setPos colon
      sign ":"
      gap .cell
      l.expr value
    else l.expr0 x depth
  | _ => l.expr0 x depth
  return { st' with
    prevLine := line
    size
    sizes := if 0 < size then size :: st'.sizes else st'.sizes }

def listElements (l : Layout) (depth count : Nat) (measured : Bool) :
    ListState → Nat → List Expr → Printer ListState
  | st, _, [] => return st
  | st, i, x :: xs => do
    let st ← listElement l depth count measured st i x
    listElements l depth count measured st (i + 1) xs

def oneLineList (l : Layout) (depth : Nat) : List Expr → Printer Unit
  | [] => pure ()
  | x :: xs => do
    l.expr0 x depth
    xs.forM fun y => do
      setPos y.start
      sign ","
      gap .blank
      l.expr0 y depth

/-- Prints a list between two places of the source, if they are known. -/
def exprList (l : Layout) (prev : Option Nat) (xs : List Expr) (depth : Nat) (style : ListStyle)
    (next : Option Nat) : Printer Unit := do
  match xs, xs.getLast? with
  | first :: _, some final =>
    let s ← get
    let line := s.line first.start
    let prevLine := (prev.map s.line).getD 0
    if prev.isSome && prevLine == line && line == s.line final.stop then
      oneLineList l depth xs
    else
      let before : Gap := if style.indented then .indent else .ignore
      let broke ← if prev.isSome && prevLine < line then linebreak line 0 before true else pure 0
      let st : ListState :=
        ⟨if 0 < broke then .ignore else before, if 0 < broke then some 0 else none, prevLine, 0, []⟩
      let st ← listElements l depth xs.length (prev.isSome && next.isSome) st 0 xs
      let outdent := st.before == .ignore && style.indented
      let s ← get
      if style.commaTerm && (next.any fun n => s.pos.line < s.line n) then
        sign ","
        if outdent then gap .unindent
        gap .formfeed
      else if outdent then gap .unindent
  | _, _ => pure ()

def identList (l : Layout) (names : List Ident) (indented : Bool) : Printer Unit :=
  exprList l none (names.map .ident) 1 ⟨indented, false⟩ none

/-! ## Fields -/

/-- Where a list of parameters stands. -/
inductive ParamPlace where
  | function
  | functionType
  | typeName
deriving DecidableEq

/-- Whether an expression is a type written out, which no name is. -/
def isPlainType : Expr → Bool
  | .array _ _ _ | .struct _ _ | .func _ _ | .interface _ _ | .map _ _ _ | .chan _ _ _ _ => true
  | _ => false

/-- Whether a name before the type would read as one expression with it. -/
def combinesWithName : Expr → Bool
  | .star _ _ => true
  | .binary _ x _ _ _ => combinesWithName x
  | .paren _ x => !(isPlainType x)
  | _ => false

/-- Prints one parameter, given the line on which the one before ended and the indentation that is
still held back. -/
def parameter (l : Layout) (prevLine : Nat) (before : Gap) (i : Nat) (f : Field) :
    Printer Gap := do
  let line ← lineOf f.range.start
  let needsBreak := prevLine < line
  if 0 < i then
    if !needsBreak then setPos f.range.start
    sign ","
  let broke ← if needsBreak then linebreak line 0 before true else pure 0
  let before := if 0 < broke then .ignore else before
  if broke == 0 && 0 < i then gap .blank
  if !f.names.isEmpty then
    identList l f.names (before == .indent)
    gap .blank
  l.expr f.type.unparen
  return before

/-- Prints parameters one after the other; the line on which the last one ended and the indentation
that is still held back. -/
def parameterRun (l : Layout) : Nat → Gap → Nat → List Field → Printer (Nat × Gap)
  | prevLine, before, _, [] => return (prevLine, before)
  | prevLine, before, i, f :: fs => do
    let before ← parameter l prevLine before i f
    parameterRun l (← lineOf f.range.stop) before (i + 1) fs

/-- Merges neighbouring fields that have names, stand on one line and look the same. -/
def mergeFields (s : Sheet) : List (Field × List Piece) → List (Field × List Piece)
  | [] => []
  | (f, look) :: rest =>
    match mergeFields s rest with
    | (g, look') :: rest' =>
      if !f.names.isEmpty && !g.names.isEmpty && s.line f.range.start == s.line g.range.start &&
          look == look' then
        (.mk f.doc (f.names ++ g.names) f.type f.tag f.commented, look) :: rest'
      else (f, look) :: (g, look') :: rest'
    | [] => [(f, look)]

/-- The fields of a parameter list, merged on a tidy sheet. -/
def tidyFields (l : Layout) (fields : FieldList) : Printer FieldList := do
  let s ← get
  if !s.isTidy then return fields
  let looks ← fields.fields.mapM fun f => return (f, ← l.exprPieces f.type)
  return .mk fields.opening ((mergeFields s looks).map (·.1)) fields.closing

def parameters (l : Layout) (fields : FieldList) (place : ParamPlace) : Printer Unit := do
  let fields ← if place = .typeName then pure fields else tidyFields l fields
  let (opening, closing) := if place = .function then ("(", ")") else ("[", "]")
  setPos fields.opening
  sign opening
  if !fields.fields.isEmpty then
    let (prevLine, before) ←
      parameterRun l (← lineOf fields.opening) .indent 0 fields.fields
    let closingLine ← lineOf fields.closing
    let combined := match fields.fields with
      | [f] => fields.count == 1 && combinesWithName f.type.unparen
      | _ => false
    if prevLine < closingLine then
      sign ","
      let _ ← linebreak closingLine 0 .ignore true
    else if place = .typeName && combined then sign ","
    if before == .ignore then gap .unindent
  setPos fields.closing
  sign closing

def signature (l : Layout) (sig : Signature) : Printer Unit := do
  if let some tps := sig.typeParams then parameters l tps .functionType
  parameters l sig.params .function
  match sig.results with
  | none => pure ()
  | some rs =>
    match rs.fields with
    | [] => pure ()
    | [f] =>
      gap .blank
      if f.names.isEmpty then l.expr f.type.unparen else parameters l rs .function
    | _ =>
      gap .blank
      parameters l rs .function

def oneLineField : Nat := 30

def isShortField (l : Layout) (fs : List Field) : Printer Bool := do
  match fs with
  | [f] =>
    if f.tag.isSome || f.commented then return false
    let names := if f.names.isEmpty then 0 else 1
    match ← l.exprSize? f.type oneLineField with
    | some n => return names + n ≤ oneLineField
    | none => return false
  | _ => return false

/-- Prints a method, or an embedded type. -/
def method (l : Layout) (f : Field) : Printer Unit := do
  match f.names, f.type with
  | name :: _, .func _ sig =>
    l.expr (.ident name)
    signature l sig
  | _, t => l.expr t

def shortField (l : Layout) (fields : FieldList) (isStruct : Bool) (f : Field) : Printer Unit := do
  setPos fields.opening
  sign "\x7b"
  gap .blank
  if isStruct then
    (f.names.zip (false :: f.names.map fun _ => true)).forM fun (name, notFirst) => do
      if notFirst then
        sign ","
        gap .blank
      l.expr (.ident name)
    if !f.names.isEmpty then gap .blank
    l.expr f.type
  else method l f
  gap .blank
  setPos fields.closing
  sign "\x7d"

/-- Prints a field of a struct with its tag; `sep` divides the columns. -/
def structField (l : Layout) (sep : Gap) (f : Field) : Printer Unit := do
  let named := !f.names.isEmpty
  if named then
    identList l f.names false
    gap sep
    l.expr f.type
  else l.expr f.type
  if let some tag := f.tag then
    if named && sep == .cell then gap sep
    gap sep
    l.expr (.literal tag)
  if f.commented then
    let extra := if f.tag.isSome then 0 else if named then 1 else 2
    (List.replicate extra sep).forM gap

def fieldLines (item : Field → Printer Unit) : Option Nat → List Field → Printer Unit
  | _, [] => pure ()
  | prev, f :: fs => do
    if let some line := prev then
      let newSection := 0 < (← linesFrom line)
      let _ ← linebreak (← lineOf f.range.start) 1 .ignore newSection
    let line ← marking (item f)
    fieldLines item (some line) fs

def fieldList (l : Layout) (fields : FieldList) (isStruct : Bool) : Printer Unit := do
  let s ← get
  let hasComments := s.commentBefore (s.place fields.closing)
  let oneLine := s.line fields.opening == s.line fields.closing
  let short ← if !hasComments && oneLine then isShortField l fields.fields else pure false
  if !hasComments && oneLine && fields.fields.isEmpty then
    setPos fields.opening
    sign "\x7b"
    setPos fields.closing
    sign "\x7d"
  else if short then
    fields.fields.forM (shortField l fields isStruct)
  else
    gap .blank
    setPos fields.opening
    sign "\x7b"
    gap .indent
    if hasComments || !fields.fields.isEmpty then gap .formfeed
    let sep : Gap := if fields.fields.length == 1 then .blank else .cell
    fieldLines (if isStruct then structField l sep else method l) none fields.fields
    gap .unindent
    gap .formfeed
    setPos fields.closing
    sign "\x7d"

/-! ## Operators -/

/-- The precedence of the operator of a binary expression, if it is one. -/
def precedenceOf : Expr → Option Nat
  | .binary _ _ _ s _ => some (precedence s)
  | _ => none

/-- How tightly an operator must be set so that it does not run together with the operand on its
right, zero when it cannot. -/
def clash (sign : String) : Expr → Nat
  | .star _ _ => if sign == "/" then 5 else 0
  | .unary _ s _ =>
    let both := sign ++ s
    if both == "/*" || both == "&&" || both == "&^" then 5
    else if both == "++" || both == "--" then 4
    else 0
  | _ => 0

/-- Whether operators of precedence four and five occur in a chain of binary operators, and how
tightly the operators must be set so that no two signs run together. -/
def walkBinary : Expr → Bool × Bool × Nat
  | .binary _ x _ sign y =>
    let p := precedence sign
    let (l4, l5, lp) :=
      if (precedenceOf x).all (p ≤ ·) then walkBinary x else (false, false, 0)
    let (r4, r5, rp) :=
      if (precedenceOf y).all (p < ·) then walkBinary y else (false, false, 0)
    (p == 4 || l4 || r4, p == 5 || l5 || r5, max (clash sign y) (max lp rp))
  | _ => (false, false, 0)

/-- Operators below this precedence have blanks around them. -/
def cutoff (x : Expr) (depth : Nat) : Nat :=
  let (has4, has5, problem) := walkBinary x
  if 0 < problem then problem + 1
  else if has4 && has5 then (if depth == 1 then 5 else 4)
  else if depth == 1 then 6
  else 4

/-- One if the expression is no binary expression of the given precedence. -/
def diffPrecedence (p : Nat) : Expr → Nat
  | .binary _ _ _ s _ => if precedence s == p then 0 else 1
  | _ => 1

def binary (l : Layout) (x : Expr) (signAt : Nat) (s : String) (y : Expr) (cutoff depth : Nat) :
    Printer Unit := do
  let p := precedence s
  let blanks := p < cutoff
  l.expr1 x p (depth + diffPrecedence p x)
  if blanks then gap .blank
  let xline := (← get).pos.line
  let yline ← lineOf y.start
  setPos signAt
  sign s
  let broke ← if xline != yline then linebreak yline 1 .indent true else pure 0
  if blanks && broke == 0 then gap .blank
  l.expr1 y (p + 1) (depth + 1)
  if 0 < broke then gap .unindent

/-! ## Literals -/

/-- The last occurrence of one byte replaced by another. -/
def replaceLast (old new : UInt8) (text : Bytes) : Option Bytes :=
  if text.contains old then
    let after := (text.reverse.takeWhile (· != old)).reverse
    some (text.take (text.length - after.length - 1) ++ new :: after)
  else none

/-- A decimal number with a lower-case mark for its exponent; an imaginary one has no zeros in
front. -/
def normalDecimal (text : Bytes) : Bytes :=
  match replaceLast (byte 'E') (byte 'e') text with
  | some t => t
  | none =>
    if text.getLast? == some (byte 'i') && !text.contains (byte '.') &&
        !text.contains (byte 'e') then
      let stripped := text.dropWhile fun b => b == byte '0' || b == byte '_'
      if stripped == "i" then "0i" else stripped
    else text

/-- A number with lower-case marks for base and exponent. -/
def normalNumber (text : Bytes) : Bytes :=
  match text with
  | z :: mark :: rest =>
    let hex (digits : Bytes) : Bytes :=
      (replaceLast (byte 'P') (byte 'p') digits).getD digits
    if z != byte '0' then normalDecimal text
    else if mark == byte 'X' || mark == byte 'x' then "0x" ++ hex rest
    else if mark == byte 'O' then "0o" ++ rest
    else if mark == byte 'B' then "0b" ++ rest
    else if mark == byte 'o' || mark == byte 'b' then text
    else normalDecimal text
  | _ => text

def literalText (lit : Literal) : Bytes :=
  match lit.kind with
  | .number _ => normalNumber lit.text
  | _ => lit.text

/-! ## Expressions -/

/-- Prints a selection; whether it continues on an indented line, which a method call ends. -/
def selector (l : Layout) (base : Expr) (sel : Ident) (depth : Nat) (isMethod : Bool) :
    Printer Bool := do
  l.expr1 base 7 depth
  sign "."
  let line ← lineOf sel.start
  if (← get).pos.line < line then
    gap .indent
    gap .newline
    setPos sel.start
    ident sel
    if !isMethod then gap .unindent
    return true
  setPos sel.start
  ident sel
  return false

def sliceBounds (l : Layout) (bounds : List (Option Expr)) (depth : Nat) : Printer Unit := do
  let present := bounds.filterMap id
  let isBinary : Expr → Bool
    | .binary _ _ _ _ _ => true
    | _ => false
  let blanks := depth ≤ 1 && 1 < present.length && present.any isBinary
  let pairs := (none :: bounds.map some).zip bounds
  pairs.forM fun ((prev : Option (Option Expr)), (bound : Option Expr)) => do
    if let some before := prev then
      if before.isSome && blanks then gap .blank
      sign ":"
      if bound.isSome && blanks then gap .blank
    if let some x := bound then l.expr0 x (depth + 1)

def needsParens : Expr → Bool
  | .func _ _ => true
  | .chan _ .receive _ _ => true
  | _ => false

def call (l : Layout) (fn : Expr) (lparen : Nat) (args : List Expr) (dots : Option Nat)
    (rparen depth : Nat) : Printer Unit := do
  let depth := if 1 < args.length then depth + 1 else depth
  let parens := needsParens fn
  if parens then sign "("
  let indented ← match fn with
    | .selector r base sel => do
      setPos r.start
      selector l base sel depth true
    | _ => do
      l.expr1 fn 7 depth
      pure false
  if parens then sign ")"
  setPos lparen
  sign "("
  match dots with
  | some d =>
    exprList l (some lparen) args depth ⟨true, false⟩ (some d)
    setPos d
    sign "..."
    if (← lineOf d) < (← lineOf rparen) then
      sign ","
      gap .formfeed
  | none => exprList l (some lparen) args depth ⟨true, true⟩ (some rparen)
  setPos rparen
  sign ")"
  if indented then gap .unindent

def composite (l : Layout) (type : Option Expr) (lbrace : Nat) (elements : List Expr)
    (rbrace depth : Nat) : Printer Unit := do
  if let some t := type then l.expr1 t 7 depth
  nested do
    setPos lbrace
    sign "\x7b"
    exprList l (some lbrace) elements 1 ⟨true, true⟩ (some rbrace)
    gap .indent
    gap .unindent
    let s ← get
    modify fun s =>
      { s with
        noExtraBreak := !s.noExtraBreak
        noExtraBlank := if elements.isEmpty then s.noExtraBlank else !s.noExtraBlank }
    setPos rbrace
    sign "\x7d"
    modify fun t => { t with noExtraBreak := s.noExtraBreak, noExtraBlank := s.noExtraBlank }

/-- How many columns the current line has taken since an output column, if it started on the line
on which the source is. -/
def distanceFrom (start column : Nat) : Printer Nat := do
  let s ← get
  return if s.line start == s.pos.line then s.out.column - column else Position.infinity

/-- How long a body is if it can stand on one line. -/
def bodySize? (l : Layout) (b : Block) (most : Nat) : Printer (Option Nat) := do
  let s ← get
  if s.line b.lbrace != s.line b.rbrace || 5 < b.stmts.length then return none
  let comments := s.commentSizeBefore (s.place b.rbrace)
  let sizes ← b.stmts.mapM fun st => l.stmtSize? st most
  return sizes.foldl (fun acc n => do return (← acc) + (← n))
    (some (comments + 2 * (b.stmts.length - 1)))

def oneLineFunction : Nat := 100

/-- Prints the body of a function after a head of the given length. A short body that stands on one
line stays there. -/
def funcBody (l : Layout) (head : Nat) (sep : Gap) (b : Block) : Printer Unit := do
  let level := (← get).level
  modify fun s => { s with level := 0 }
  let short := (← bodySize? l b oneLineFunction).any fun n => head + n ≤ oneLineFunction
  if short then
    gap sep
    setPos b.lbrace
    sign "\x7b"
    if !b.stmts.isEmpty then
      gap .blank
      let n := b.stmts.length
      b.stmts.zipIdx.forM fun (s, i) => do
        if 0 < i then
          item (.semicolon true) ";" false
          gap .blank
        l.stmt s (i + 1 == n)
      gap .blank
    modify fun s => { s with noExtraBreak := !s.noExtraBreak }
    setPos b.rbrace
    sign "\x7d"
    modify fun s => { s with noExtraBreak := !s.noExtraBreak }
  else
    gap .blank
    l.block b true
  modify fun s => { s with level }

/-- Prints an expression in a context of some precedence, at some depth. -/
def expr1 (l : Layout) (x : Expr) (context depth : Nat) : Printer Unit := do
  setPos x.start
  match x with
  | .ident i => ident i
  | .literal lit => literal lit.kind (literalText lit)
  | .binary _ a signAt s b => binary l a signAt s b (cutoff x depth) depth
  | .pair _ key colon value =>
    l.expr key
    setPos colon
    sign ":"
    gap .cell
    l.expr value
  | .star _ inner =>
    if 6 < context then
      sign "("
      sign "*"
      l.expr inner
      sign ")"
    else
      sign "*"
      l.expr inner
  | .unary _ s inner =>
    if 6 < context then
      sign "("
      l.expr x
      sign ")"
    else
      sign s
      l.expr1 inner 6 depth
  | .funcLit r sig body =>
    word "func"
    let column := (← get).out.column - 4
    signature l sig
    funcBody l (← distanceFrom r.start column) .blank body
  | .paren r inner =>
    match inner with
    | .paren _ _ => l.expr0 inner depth
    | _ =>
      sign "("
      l.expr0 inner (max 1 (depth - 1))
      setPos (r.stop - 1)
      sign ")"
  | .selector _ base sel =>
    let _ ← selector l base sel depth false
  | .assertion _ base lparen type rparen =>
    l.expr1 base 7 depth
    sign "."
    setPos lparen
    sign "("
    match type with
    | some t => l.expr t
    | none => word "type"
    setPos rparen
    sign ")"
  | .index _ base lbrack indices rbrack =>
    l.expr1 base 7 1
    setPos lbrack
    sign "["
    match indices with
    | [i] => l.expr0 i (depth + 1)
    | is => exprList l (some lbrack) is (depth + 1) ⟨true, true⟩ (some rbrack)
    setPos rbrack
    sign "]"
  | .slice _ base lbrack bounds rbrack =>
    l.expr1 base 7 1
    setPos lbrack
    sign "["
    sliceBounds l bounds depth
    setPos rbrack
    sign "]"
  | .call _ fn lparen args dots rparen => call l fn lparen args dots rparen depth
  | .composite _ type lbrace elements rbrace => composite l type lbrace elements rbrace depth
  | .variadic _ element =>
    sign "..."
    if let some t := element then l.expr t
  | .array _ length element =>
    sign "["
    if let some n := length then l.expr n
    sign "]"
    l.expr element
  | .struct _ fields =>
    word "struct"
    fieldList l fields true
  | .func _ sig =>
    word "func"
    signature l sig
  | .interface _ methods =>
    word "interface"
    fieldList l methods false
  | .map _ key value =>
    word "map"
    sign "["
    l.expr key
    sign "]"
    l.expr value
  | .chan _ dir arrow value =>
    match dir with
    | .both => word "chan"
    | .receive =>
      sign "<-"
      word "chan"
    | .send =>
      word "chan"
      setPos arrow
      sign "<-"
    gap .blank
    l.expr value

end Print

end AccessLayer.Go
