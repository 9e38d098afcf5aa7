import LetFn.Rule
import LetFn.Precedence
import LetFn.Tree
import LetFn.Text.Decimal
import LetFn.Token.Cursor

/-!
# The grammar

A program is a list of statements: bindings, returns and expressions. What is
behind the value of a binding or a return, up to the next semicolon, is passed
over. An expression is an operand that grows to the right while the next token
binds more strongly than its place asks for; the right operand of an operator is
read at the strength of that operator, so operators of one strength group to the
left.

A phrase that is not found makes the statement around it fail, and reading goes
on with the statement behind the token where it stopped. A binding or a return
does not fail when only its value is not found.

Every rule takes a bound on how deep it may nest. `parse` chooses the bound from
the number of tokens.
-/

namespace LetFn

namespace Grammar

open Rule

/-- Statements between braces, from the opening brace, which is the current token, to the closing
one or the end. -/
def block (statement : Rule Stmt) (n : Nat) : Rule Block := do
  let brace ← current
  advance
  let body ← repeated (· = .rbrace) statement n
  pure (.mk brace body)

/-- The parameters of a function, from the token before their opening parenthesis. -/
def params (n : Nat) : Rule (List Ident) := do
  let _ ← expect .lparen
  parenthesized (Ident.ofToken <$> expect .ident) n

/-- Whether a token ends a binding or a return. -/
def endsStatement : Kind → Bool
  | .semicolon | .eof => true
  | _ => false

/-! Each form of expression and statement is a rule over the rules for its parts, from the token
that introduces it. -/

def integer (token : Token) : Rule Expr :=
  match Decimal.int64? token.literal.toList with
  | some value => pure (.int token value)
  | none => report (.badInteger token.literal)

def unary (operand : Rule Expr) (token : Token) : Rule Expr :=
  within .unary do
    advance
    let inner ← operand
    pure (.unary token token.literal inner)

def group (inside : Rule Expr) : Rule Expr := do
  advance
  let inner ← inside
  let _ ← expect .rparen
  pure inner

def conditional (test : Rule Expr) (branch : Rule Block) (token : Token) : Rule Expr := do
  let _ ← expect .lparen
  advance
  let condition ← test
  let _ ← expect .rparen
  let _ ← expect .lbrace
  let yes ← branch
  if (← ahead).kind = .elseWord then
    advance
    let _ ← expect .lbrace
    let no ← branch
    pure (.cond token condition yes (some no))
  else pure (.cond token condition yes none)

def function (body : Rule Block) (n : Nat) (token : Token) : Rule Expr := do
  let names ← params n
  let _ ← expect .lbrace
  let inner ← body
  pure (.fn token names inner)

/-- A call of a given expression. -/
def call (argument : Rule Expr) (n : Nat) (token : Token) (callee : Expr) : Rule Expr :=
  within .call do
    let args ← parenthesized (do advance; argument) n
    pure (.call token callee args)

/-- An operator between a given expression and one more. -/
def binary (right : Rule Expr) (token : Token) (left : Expr) : Rule Expr :=
  within .binary do
    advance
    let other ← right
    pure (.binary token left token.literal other)

def binding (value : Rule Expr) (token : Token) : Rule Stmt := do
  let name ← expect .ident
  let _ ← expect .assign
  advance
  let found ← optional value
  advanceTo endsStatement
  pure (.bind token (.ofToken name) found)

def returning (value : Rule Expr) (token : Token) : Rule Stmt := do
  advance
  if endsStatement (← current).kind then pure (.ret token none)
  else
    let found ← optional value
    advanceTo endsStatement
    pure (.ret token found)

/-- An expression that stands as a statement. -/
def standing (value : Rule Expr) (token : Token) : Rule Stmt := do
  let found ← value
  accept .semicolon
  pure (.expr token (some found))

mutual

/-- An expression that extends over what binds more strongly than a given strength. -/
def expression : Nat → Precedence → Rule Expr
  | 0, _ => exhausted
  | n + 1, place => within .expression do
    let first ← operand n
    climb n place first

/-- An expression that begins with a given one, which ends on the current token. -/
def climb : Nat → Precedence → Expr → Rule Expr
  | 0, _, _ => exhausted
  | n + 1, place, left => do
    if place < .ofKind (← ahead).kind then
      advance
      let longer ← extension n left
      climb n place longer
    else pure left

/-- A given expression with the operator or the call under the cursor. -/
def extension : Nat → Expr → Rule Expr
  | 0, _ => exhausted
  | n + 1, left => do
    let token ← current
    if token.kind = .lparen then call (expression n .lowest) n token left
    else binary (expression n (.ofKind token.kind)) token left

/-- An expression that no operator between operands and no call extends. -/
def operand : Nat → Rule Expr
  | 0 => exhausted
  | n + 1 => do
    let token ← current
    match token.kind with
    | .ident => pure (.ident (.ofToken token))
    | .int => integer token
    | .string => pure (.str token token.literal)
    | .trueWord => pure (.bool token true)
    | .falseWord => pure (.bool token false)
    | .bang | .minus => unary (expression n .unary) token
    | .lparen => group (expression n .lowest)
    | .ifWord => conditional (expression n .lowest) (block (statement n) n) token
    | .fnWord => function (block (statement n) n) n token
    | kind => report (.noExpression kind)

/-- A statement, from its first token to its last, which is its semicolon where it has one. -/
def statement : Nat → Rule Stmt
  | 0 => exhausted
  | n + 1 => within .statement do
    let token ← current
    match token.kind with
    | .letWord => binding (expression n .lowest) token
    | .returnWord => returning (expression n .lowest) token
    | _ => standing (expression n .lowest) token

end

/-- All statements up to the end. -/
def program (n : Nat) : Rule (List Stmt) := repeated (fun _ => false) (statement n) n

/-- A bound that suffices for a list of tokens. -/
def bound (ts : List Token) : Nat := 4 * ts.length + 8

end Grammar

/-- What reading a program gives. -/
structure Parse where
  program : Program
  errors : List Diagnostic
  trail : List Mark
deriving Inhabited

/-- Reads a program from its tokens, of which the last is followed by end tokens without end. -/
def parse (ts : List Token) : Parse :=
  match (Grammar.program (Grammar.bound ts)).run ts with
  | some reply => ⟨⟨reply.value.getD []⟩, reply.errors, reply.trail⟩
  | none => default

def parseText (text : List Char) : Parse := parse (tokens text)

end LetFn
