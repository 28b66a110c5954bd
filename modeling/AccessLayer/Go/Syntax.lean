import AccessLayer.Go.Token

/-!
# Syntax trees of Go

The tree keeps the offsets that decide the layout of a printed file: where each node starts and
stops, and where its brackets stand.

* `Expr`, `Stmt`, `Decl`, `File`: expressions (types included), statements, declarations, files.
* `Expr.range`, `Stmt.range`, `Decl.range`: the bytes of a node.
-/

namespace AccessLayer.Go

/-- A half-open range of bytes. -/
structure Range where
  start : Nat
  stop : Nat
deriving DecidableEq, Repr, Inhabited

/-- A name and where it stands. -/
structure Ident where
  name : Bytes
  start : Nat
deriving DecidableEq, Repr, Inhabited

def Ident.range (i : Ident) : Range := ⟨i.start, i.start + i.name.length⟩

/-- A literal as written. -/
structure Literal where
  kind : TokenKind
  text : Bytes
  range : Range
deriving DecidableEq, Repr, Inhabited

/-- The directions of a channel type. -/
inductive ChanDir where
  | both
  | send
  | receive
deriving DecidableEq, Repr, Inhabited

/-- The keyword of a grouped declaration. -/
inductive DeclWord where
  | importWord
  | constWord
  | varWord
  | typeWord
deriving DecidableEq, Repr, Inhabited

def DeclWord.text : DeclWord → String
  | .importWord => "import"
  | .constWord => "const"
  | .varWord => "var"
  | .typeWord => "type"

mutual

/-- Expressions and types. -/
inductive Expr where
  | ident (id : Ident)
  | literal (lit : Literal)
  | funcLit (range : Range) (signature : Signature) (body : Block)
  | composite (range : Range) (type : Option Expr) (lbrace : Nat) (elements : List Expr)
      (rbrace : Nat)
  | paren (range : Range) (inner : Expr)
  | selector (range : Range) (base : Expr) (sel : Ident)
  | index (range : Range) (base : Expr) (lbrack : Nat) (indices : List Expr) (rbrack : Nat)
  | slice (range : Range) (base : Expr) (lbrack : Nat) (bounds : List (Option Expr)) (rbrack : Nat)
  | assertion (range : Range) (base : Expr) (lparen : Nat) (type : Option Expr) (rparen : Nat)
  | call (range : Range) (fn : Expr) (lparen : Nat) (args : List Expr) (ellipsis : Option Nat)
      (rparen : Nat)
  | star (range : Range) (inner : Expr)
  | unary (range : Range) (sign : String) (inner : Expr)
  | binary (range : Range) (left : Expr) (signAt : Nat) (sign : String) (right : Expr)
  | pair (range : Range) (key : Expr) (colon : Nat) (value : Expr)
  | variadic (range : Range) (element : Option Expr)
  | array (range : Range) (length : Option Expr) (element : Expr)
  | struct (range : Range) (fields : FieldList)
  | func (range : Range) (signature : Signature)
  | interface (range : Range) (methods : FieldList)
  | map (range : Range) (key : Expr) (value : Expr)
  | chan (range : Range) (dir : ChanDir) (arrow : Nat) (value : Expr)

/-- A field, a method, a parameter or an embedded type. -/
inductive Field where
  | mk (doc : CommentGroup) (names : List Ident) (type : Expr) (tag : Option Literal)
      (commented : Bool)

/-- Fields between brackets. -/
inductive FieldList where
  | mk (opening : Nat) (fields : List Field) (closing : Nat)

/-- The parameters and results of a function. -/
inductive Signature where
  | mk (typeParams : Option FieldList) (params : FieldList) (results : Option FieldList)

/-- Statements. Case clauses are statements of the body they stand in. -/
inductive Stmt where
  | decl (decl : GenDecl)
  | empty (at_ : Nat) (implicit : Bool)
  | labeled (range : Range) (label : Ident) (colon : Nat) (inner : Stmt)
  | expr (value : Expr)
  | send (range : Range) (channel : Expr) (arrow : Nat) (value : Expr)
  | incDec (range : Range) (value : Expr) (signAt : Nat) (sign : String)
  | assign (range : Range) (left : List Expr) (signAt : Nat) (sign : String) (right : List Expr)
  | go (range : Range) (call : Expr)
  | defer (range : Range) (call : Expr)
  | ret (range : Range) (results : List Expr)
  | branch (range : Range) (word : String) (label : Option Ident)
  | block (body : Block)
  | cond (range : Range) (init : Option Stmt) (test : Expr) (body : Block) (other : Option Stmt)
  | caseClause (range : Range) (values : Option (List Expr)) (colon : Nat) (body : List Stmt)
  | switch (range : Range) (init : Option Stmt) (tag : Option Expr) (body : Block)
  | typeSwitch (range : Range) (init : Option Stmt) (guard : Stmt) (body : Block)
  | commClause (range : Range) (comm : Option Stmt) (colon : Nat) (body : List Stmt)
  | select (range : Range) (body : Block)
  | loop (range : Range) (init : Option Stmt) (test : Option Expr) (post : Option Stmt)
      (body : Block)
  | rangeLoop (range : Range) (key : Option Expr) (value : Option Expr) (signAt : Nat)
      (sign : String) (ranged : Expr) (body : Block)

/-- Statements between braces. -/
inductive Block where
  | mk (lbrace : Nat) (stmts : List Stmt) (rbrace : Nat)

/-- One entry of a grouped declaration. -/
inductive Spec where
  | importSpec (range : Range) (doc : CommentGroup) (name : Option Ident) (path : Literal)
      (commented : Bool)
  | value (range : Range) (doc : CommentGroup) (names : List Ident) (type : Option Expr)
      (values : List Expr) (commented : Bool)
  | type (range : Range) (doc : CommentGroup) (name : Ident) (typeParams : Option FieldList)
      (isAlias : Bool) (type : Expr) (commented : Bool)

/-- An import, constant, variable or type declaration, with its parentheses if it has any. -/
inductive GenDecl where
  | mk (range : Range) (doc : CommentGroup) (word : DeclWord) (parens : Option (Nat × Nat))
      (specs : List Spec)

end

instance : Inhabited Expr := ⟨.ident default⟩
instance : Inhabited FieldList := ⟨.mk 0 [] 0⟩
instance : Inhabited Signature := ⟨.mk none default none⟩
instance : Inhabited Block := ⟨.mk 0 [] 0⟩
instance : Inhabited Stmt := ⟨.empty 0 true⟩
instance : Inhabited Field := ⟨.mk [] [] default none false⟩

/-- A function or method declaration. -/
structure FuncDecl where
  range : Range
  doc : CommentGroup
  receiver : Option FieldList
  name : Ident
  signature : Signature
  body : Option Block
deriving Inhabited

/-- A declaration at the top of a file. -/
inductive Decl where
  | gen (decl : GenDecl)
  | func (decl : FuncDecl)

/-- A file: its package clause, its declarations and all its comments in order. The number of its
tokens bounds how deep its parts are nested. -/
structure File where
  doc : CommentGroup
  package : Nat
  name : Ident
  decls : List Decl
  comments : List CommentGroup
  tokens : Nat
deriving Inhabited

/-! ## Ranges -/

namespace Expr

def range : Expr → Range
  | ident id => id.range
  | literal lit => lit.range
  | funcLit r _ _ | composite r _ _ _ _ | paren r _ | selector r _ _ | index r _ _ _ _
  | slice r _ _ _ _ | assertion r _ _ _ _ | call r _ _ _ _ _ | star r _ | unary r _ _
  | binary r _ _ _ _ | pair r _ _ _ | variadic r _ | array r _ _ | struct r _ | func r _
  | interface r _ | map r _ _ | chan r _ _ _ => r

def start (x : Expr) : Nat := x.range.start

def stop (x : Expr) : Nat := x.range.stop

def unparen : Expr → Expr
  | paren _ inner => inner.unparen
  | x => x

end Expr

namespace Block

def lbrace : Block → Nat
  | mk l _ _ => l

def rbrace : Block → Nat
  | mk _ _ r => r

def stmts : Block → List Stmt
  | mk _ ss _ => ss

def range (b : Block) : Range := ⟨b.lbrace, b.rbrace + 1⟩

end Block

namespace GenDecl

def range : GenDecl → Range
  | mk r _ _ _ _ => r

def doc : GenDecl → CommentGroup
  | mk _ d _ _ _ => d

def word : GenDecl → DeclWord
  | mk _ _ w _ _ => w

def parens : GenDecl → Option (Nat × Nat)
  | mk _ _ _ p _ => p

def specs : GenDecl → List Spec
  | mk _ _ _ _ ss => ss

end GenDecl

namespace Stmt

def range : Stmt → Range
  | decl d => d.range
  | empty p implicit => ⟨p, if implicit then p else p + 1⟩
  | expr x => x.range
  | block b => b.range
  | labeled r _ _ _ | send r _ _ _ | incDec r _ _ _ | assign r _ _ _ _ | go r _ | defer r _
  | ret r _ | branch r _ _ | cond r _ _ _ _ | caseClause r _ _ _ | switch r _ _ _
  | typeSwitch r _ _ _ | commClause r _ _ _ | select r _ | loop r _ _ _ _
  | rangeLoop r _ _ _ _ _ _ => r

def start (s : Stmt) : Nat := s.range.start

def stop (s : Stmt) : Nat := s.range.stop

def isEmpty : Stmt → Bool
  | empty _ _ => true
  | _ => false

end Stmt

namespace Field

def doc : Field → CommentGroup
  | mk d _ _ _ _ => d

/-- The names of a field, none when it is embedded or a parameter without a name. -/
def names : Field → List Ident
  | mk _ ns _ _ _ => ns

def type : Field → Expr
  | mk _ _ t _ _ => t

def tag : Field → Option Literal
  | mk _ _ _ t _ => t

def commented : Field → Bool
  | mk _ _ _ _ c => c

def range (f : Field) : Range :=
  ⟨((f.names.head?.map (·.start)).getD f.type.start),
    ((f.tag.map (·.range.stop)).getD f.type.stop)⟩

end Field

namespace FieldList

def opening : FieldList → Nat
  | mk o _ _ => o

def closing : FieldList → Nat
  | mk _ _ c => c

def fields : FieldList → List Field
  | mk _ fs _ => fs

/-- How many names the fields have, a field without a name counting once. -/
def count (l : FieldList) : Nat :=
  l.fields.foldl (fun n f => n + max 1 f.names.length) 0

end FieldList

namespace Signature

def typeParams : Signature → Option FieldList
  | mk t _ _ => t

def params : Signature → FieldList
  | mk _ p _ => p

def results : Signature → Option FieldList
  | mk _ _ r => r

end Signature

namespace Spec

def range : Spec → Range
  | importSpec r _ _ _ _ | value r _ _ _ _ _ | type r _ _ _ _ _ _ => r

def doc : Spec → CommentGroup
  | importSpec _ d _ _ _ | value _ d _ _ _ _ | type _ d _ _ _ _ _ => d

end Spec

namespace Decl

def range : Decl → Range
  | gen d => d.range
  | func d => d.range

def doc : Decl → CommentGroup
  | gen d => d.doc
  | func d => d.doc

def word : Decl → String
  | gen d => d.word.text
  | func _ => "func"

end Decl

/-! ## Operators -/

/-- How tightly a binary operator binds, zero for other signs. -/
def precedence (sign : String) : Nat :=
  if sign == "||" then 1
  else if sign == "&&" then 2
  else if ["==", "!=", "<", "<=", ">", ">="].contains sign then 3
  else if ["+", "-", "|", "^"].contains sign then 4
  else if ["*", "/", "%", "<<", ">>", "&", "&^"].contains sign then 5
  else 0

end AccessLayer.Go
