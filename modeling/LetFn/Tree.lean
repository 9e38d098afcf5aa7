import LetFn.Token

/-!
# Syntax trees

A tree keeps, in every node, the token that introduced it; what a node means is
stored beside that token. An expression may be missing from a `let` or a
`return`, where it could not be read, and trees built by hand may also hold
expression statements without an expression and blocks as statements.
-/

namespace LetFn

/-- A name and the token it was read from. -/
structure Ident where
  token : Token
  name : String
deriving DecidableEq, Repr, Inhabited

def Ident.ofToken (token : Token) : Ident := ⟨token, token.literal⟩

@[simp] theorem Ident.token_ofToken (token : Token) : (Ident.ofToken token).token = token := rfl

@[simp] theorem Ident.name_ofToken (token : Token) :
    (Ident.ofToken token).name = token.literal := rfl

mutual

/-- An expression. The operator of a unary or binary node is stored as text. -/
inductive Expr where
  | ident (id : Ident)
  | int (token : Token) (value : Int64)
  | str (token : Token) (value : String)
  | bool (token : Token) (value : Bool)
  | unary (token : Token) (op : String) (operand : Expr)
  | binary (token : Token) (left : Expr) (op : String) (right : Expr)
  | cond (token : Token) (test : Expr) (yes : Block) (no : Option Block)
  | fn (token : Token) (params : List Ident) (body : Block)
  | call (token : Token) (callee : Expr) (args : List Expr)

/-- A statement. The token of an expression statement is the one the statement started with. -/
inductive Stmt where
  | bind (token : Token) (name : Ident) (value : Option Expr)
  | ret (token : Token) (value : Option Expr)
  | expr (token : Token) (value : Option Expr)
  | block (body : Block)

/-- Statements between braces, with the token of the opening brace. -/
inductive Block where
  | mk (token : Token) (body : List Stmt)

end

deriving instance Inhabited for Expr
deriving instance Inhabited for Stmt
deriving instance Inhabited for Block

def Block.token : Block → Token
  | .mk token _ => token

def Block.body : Block → List Stmt
  | .mk _ body => body

@[simp] theorem Block.token_mk (token : Token) (body : List Stmt) :
    (Block.mk token body).token = token := rfl

@[simp] theorem Block.body_mk (token : Token) (body : List Stmt) :
    (Block.mk token body).body = body := rfl

/-- The token that introduced an expression: for a binary node its operator, for a call its
opening parenthesis. -/
def Expr.token : Expr → Token
  | ident id => id.token
  | int token _ => token
  | str token _ => token
  | bool token _ => token
  | unary token _ _ => token
  | binary token _ _ _ => token
  | cond token _ _ _ => token
  | fn token _ _ => token
  | call token _ _ => token

def Stmt.token : Stmt → Token
  | bind token _ _ => token
  | ret token _ => token
  | expr token _ => token
  | block body => body.token

structure Program where
  body : List Stmt
deriving Inhabited

/-- The text of the token that introduced the first statement. -/
def Program.literal (p : Program) : String :=
  match p.body with
  | [] => ""
  | s :: _ => s.token.literal

end LetFn
