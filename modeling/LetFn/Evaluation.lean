import LetFn.Execution
import LetFn.Operator

/-!
# Evaluation

Operands, the callee and the arguments of a call are evaluated from left to
right, each before it is looked at. A conditional evaluates one of its blocks in
the scope around it. A call binds parameters to arguments, as far as both go, in
a new scope inside that of the closure.

The value of a `return` leaves every block it stands in, and is only landed by the
function or the program around them, one `return` at a time. A missing expression
has the value `null`.

Evaluation takes a bound on how deep expressions, statements and calls may nest.
-/

namespace LetFn

open Execution (emit fail raise ofExcept settle each inTurn newScope newClosure bindName
  bindNames exhausted)

def printLines : List Value → Execution Unit
  | [] => pure ()
  | v :: rest => do
    emit (.printed (v.inspect ++ "\n"))
    printLines rest

def Builtin.call : Builtin → List Value → Execution Value
  | .len, [.str s] => pure (.int (Int64.ofNat s.length))
  | .len, [v] => fail (.argumentKind v.kind)
  | .len, args => fail (.argumentCount args.length)
  | .puts, args => do
    printLines args
    pure .null

/-- The value of a name in a scope: what it is bound to, or else the builtin function. -/
def evalName (scope : ScopeId) (name : String) : Execution Value := do
  match ← Execution.lookup scope name with
  | some v => settle v
  | none =>
    match Builtin.lookup name with
    | some b => pure (.builtin b)
    | none => raise (.unbound name)

def operate (op : String) (operands : List Value) (result : Except Fault Value) :
    Execution Value := do
  emit (.operated op operands)
  ofExcept result

/-- What a value gives for arguments, given how a function body is run in its scope. -/
def answerWith (body : ScopeId → Block → Execution Value) (args : List Value) :
    Value → Execution Value
  | .closure c => do
    let scope ← newScope c.scope
    bindNames scope ((c.params.map Ident.name).zip args)
    let v ← body scope c.body
    settle v.landed
  | .builtin b => b.call args
  | v => raise (.notFunction v.kind)

/-- Applies a value to arguments, given how a function body is run in its scope. -/
def applyWith (body : ScopeId → Block → Execution Value) (callee : Value) (args : List Value) :
    Execution Value := do
  emit (.applied callee args)
  let answer ← answerWith body args callee
  emit (.answered answer)
  pure answer

/-- The value of an expression for the place where it stands, given how it is evaluated. -/
def taking (place : Place) (eval : Expr → Execution Value) (e : Expr) : Execution Value := do
  let v ← eval e
  emit (.taken place e v)
  pure v

/-- The value of an expression that may be missing, given how one that is there is evaluated. -/
def valueOr (eval : Expr → Execution Value) : Option Expr → Execution Value
  | none => pure .null
  | some e => eval e

mutual

/-- The value of an expression in a scope. -/
def Expr.eval : Nat → ScopeId → Expr → Execution Value
  | 0, _, _ => exhausted
  | _ + 1, scope, .ident id => evalName scope id.name
  | _ + 1, _, .int _ value => pure (.int value)
  | _ + 1, _, .str _ value => pure (.str value)
  | _ + 1, _, .bool _ value => pure (.bool value)
  | n + 1, scope, .unary _ op operand => do
    let v ← taking .operand (Expr.eval n scope) operand
    operate op [v] (Operator.unary op v)
  | n + 1, scope, .binary _ left op right => do
    let a ← taking .operand (Expr.eval n scope) left
    let b ← taking .operand (Expr.eval n scope) right
    operate op [a, b] (Operator.binary op a b)
  | n + 1, scope, .cond _ test yes no => do
    let v ← taking .test (Expr.eval n scope) test
    if v.isTruthy then inTurn (Stmt.eval n scope) .null yes.body
    else match no with
      | some block => inTurn (Stmt.eval n scope) .null block.body
      | none => pure .null
  | _ + 1, scope, .fn _ params body => .closure <$> newClosure params body scope
  | n + 1, scope, .call _ callee args => do
    let f ← taking .callee (Expr.eval n scope) callee
    let vs ← each (taking .argument (Expr.eval n scope)) args
    applyWith (fun inner block => inTurn (Stmt.eval n inner) .null block.body) f vs

def Stmt.eval : Nat → ScopeId → Stmt → Execution Value
  | 0, _, _ => exhausted
  | n + 1, scope, .bind _ id value => do
    let v ← valueOr (taking .binding (Expr.eval n scope)) value
    bindName scope id.name v
    pure .null
  | n + 1, scope, .ret _ value =>
    .returned <$> valueOr (taking .returning (Expr.eval n scope)) value
  | n + 1, scope, .expr _ value => valueOr (Expr.eval n scope) value
  | n + 1, scope, .block body => inTurn (Stmt.eval n scope) .null body.body

end

/-- The value of the last statement of a block that is done: a `return` ends the block and is
passed on. -/
def Block.eval (n : Nat) (scope : ScopeId) (b : Block) : Execution Value :=
  inTurn (Stmt.eval n scope) .null b.body

def apply (n : Nat) (callee : Value) (args : List Value) : Execution Value :=
  applyWith (Block.eval n) callee args

theorem Expr.eval_cond (n : Nat) (scope : ScopeId) (token : Token) (test : Expr) (yes : Block)
    (no : Option Block) :
    (Expr.cond token test yes no).eval (n + 1) scope =
      (do
        let v ← taking .test (Expr.eval n scope) test
        if v.isTruthy then yes.eval n scope
        else match no with
          | some block => block.eval n scope
          | none => pure .null) := rfl

theorem Expr.eval_call (n : Nat) (scope : ScopeId) (token : Token) (callee : Expr)
    (args : List Expr) :
    (Expr.call token callee args).eval (n + 1) scope =
      (do
        let f ← taking .callee (Expr.eval n scope) callee
        let vs ← each (taking .argument (Expr.eval n scope)) args
        apply n f vs) := rfl

theorem Stmt.eval_block (n : Nat) (scope : ScopeId) (body : Block) :
    (Stmt.block body).eval (n + 1) scope = body.eval n scope := rfl

/-- The value of a program: a `return` ends the program with its value. -/
def Program.eval (n : Nat) (scope : ScopeId) (p : Program) : Execution Value := do
  let v ← inTurn (Stmt.eval n scope) .null p.body
  settle v.landed

/-- How deep a program may nest where its host sets no other bound. -/
def nestingLimit : Nat := 1000000

/-- The value that a finished run is known by: its result, or its fault as a value. -/
def Outcome.value? (o : Outcome Value) : Option Value :=
  match o.result with
  | .ok v => some v
  | .error (.fault fault) => some (.error fault)
  | .error .exhausted => none

end LetFn
