import LetFn.Tree

/-!
# The text of a syntax tree

Every tree has one written form. Operations are put in parentheses, statements
are separated by a blank with a semicolon before it wherever the statement does
not end in one itself, and a missing expression is the empty text. Operators,
identifiers and strings are written from their meaning; integers, truth values
and the words that open a statement or a function from their token.
-/

namespace LetFn

/-- Texts with a comma and a blank between neighbours. -/
def joinCommas : List (List Char) → List Char
  | [] => []
  | [t] => t
  | t :: rest => t ++ ',' :: ' ' :: joinCommas rest

theorem joinCommas_cons_cons (t u : List Char) (rest : List (List Char)) :
    joinCommas (t :: u :: rest) = t ++ ',' :: ' ' :: joinCommas (u :: rest) := rfl

/-- Statement texts with a blank between neighbours, after a semicolon that is added unless the
statement before it ends in one. -/
def joinStatements : List (List Char) → List Char
  | [] => []
  | [t] => t
  | t :: rest =>
    t ++ (if t.getLast? = some ';' then [] else [';']) ++ ' ' :: joinStatements rest

theorem joinStatements_cons_cons (t u : List Char) (rest : List (List Char)) :
    joinStatements (t :: u :: rest) =
      t ++ (if t.getLast? = some ';' then [] else [';']) ++ ' ' :: joinStatements (u :: rest) := rfl

def Ident.text (id : Ident) : List Char := id.name.toList

/-- Parameter names as they stand between the parentheses of a function. -/
def paramsText (params : List Ident) : List Char := joinCommas (params.map Ident.text)

mutual

/-- The text of an expression. -/
def Expr.text : Expr → List Char
  | .ident id => id.text
  | .int token _ => token.literal.toList
  | .str _ value => '"' :: value.toList ++ ['"']
  | .bool token _ => token.literal.toList
  | .unary _ op operand => '(' :: op.toList ++ operand.text ++ [')']
  | .binary _ left op right =>
    '(' :: left.text ++ ' ' :: op.toList ++ ' ' :: right.text ++ [')']
  | .cond _ test yes no =>
    'i' :: 'f' :: ' ' :: '(' :: test.text ++ ')' :: ' ' :: '\x7b' :: yes.text ++
      '\x7d' :: elseText no
  | .fn token params body =>
    token.literal.toList ++ '(' :: paramsText params ++ ')' :: '\x7b' :: body.text ++ ['\x7d']
  | .call _ callee args => callee.text ++ '(' :: joinCommas (argTexts args) ++ [')']

def Stmt.text : Stmt → List Char
  | .bind token id value =>
    token.literal.toList ++ ' ' :: id.text ++ ' ' :: '=' :: ' ' :: valueText value ++ [';']
  | .ret token none => token.literal.toList ++ [';']
  | .ret token (some value) => token.literal.toList ++ ' ' :: value.text ++ [';']
  | .expr _ value => valueText value
  | .block body => body.text

/-- The text of the statements between the braces. -/
def Block.text : Block → List Char
  | .mk _ body => joinStatements (stmtTexts body)

def valueText : Option Expr → List Char
  | none => []
  | some e => e.text

def elseText : Option Block → List Char
  | none => []
  | some body => ' ' :: 'e' :: 'l' :: 's' :: 'e' :: ' ' :: '\x7b' :: body.text ++ ['\x7d']

def argTexts : List Expr → List (List Char)
  | [] => []
  | e :: rest => e.text :: argTexts rest

def stmtTexts : List Stmt → List (List Char)
  | [] => []
  | s :: rest => s.text :: stmtTexts rest

end

@[simp] theorem argTexts_eq_map (args : List Expr) : argTexts args = args.map Expr.text := by
  induction args with
  | nil => rfl
  | cons e rest ih => simp [argTexts, ih]

@[simp] theorem stmtTexts_eq_map (body : List Stmt) : stmtTexts body = body.map Stmt.text := by
  induction body with
  | nil => rfl
  | cons s rest ih => simp [stmtTexts, ih]

def Program.text (p : Program) : List Char := joinStatements (stmtTexts p.body)

def Stmt.render (s : Stmt) : String := String.ofList s.text

def Block.render (b : Block) : String := String.ofList b.text

def Program.render (p : Program) : String := String.ofList p.text

end LetFn
