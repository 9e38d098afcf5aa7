import LetFn.Evaluation

/-!
# Evaluation with faults as values

The evaluator stops at a fault because a chain of executions does: what comes behind
the fault is never begun. Here a fault is a value that is handed on. Whatever has been
evaluated is tested before it is used, at each place by itself, and no chain stops
unless the bound on the nesting is too small.
-/

namespace LetFn

def Value.isError : Value → Bool
  | error _ => true
  | _ => false

namespace Checked

open Execution (emit newScope bindNames)

/-- Gives a fault that is found here. -/
def refuse (fault : Fault) : Execution Value := do
  emit (.failed fault)
  pure (.error fault)

/-- Applies a builtin function. It logs no fault. -/
def call : Builtin → List Value → Execution Value
  | .len, [.str s] => pure (.int (Int64.ofNat s.length))
  | .len, [v] => pure (.error (.argumentKind v.kind))
  | .len, args => pure (.error (.argumentCount args.length))
  | .puts, args => do
    printLines args
    pure .null

def evalName (scope : ScopeId) (name : String) : Execution Value := do
  match ← Execution.lookup scope name with
  | some v => pure v
  | none =>
    match Builtin.lookup name with
    | some b => pure (.builtin b)
    | none => refuse (.unbound name)

def operate (op : String) (operands : List Value) (result : Except Fault Value) :
    Execution Value := do
  emit (.operated op operands)
  match result with
  | .ok v => pure v
  | .error fault => refuse fault

def taking (place : Place) (eval : Expr → Execution Value) (e : Expr) : Execution Value := do
  let v ← eval e
  if v.isError then pure v
  else
    emit (.taken place e v)
    pure v

/-- The values of a list of expressions, or the first of them that is a fault. -/
def each (eval : Expr → Execution Value) : List Expr → Execution (Except Value (List Value))
  | [] => pure (.ok [])
  | e :: rest => do
    let v ← eval e
    if v.isError then pure (.error v)
    else
      match ← each eval rest with
      | .ok vs => pure (.ok (v :: vs))
      | .error fault => pure (.error fault)

/-- The statements of a block: the value of a `return` ends it and is passed on, and so is a
fault. -/
def inTurn (eval : Stmt → Execution Value) : Value → List Stmt → Execution Value
  | last, [] => pure last
  | _, s :: rest => do
    let v ← eval s
    if v.isReturned || v.isError then pure v else inTurn eval v rest

/-- The statements of a program: the value of a `return` is unwrapped. -/
def inProgram (eval : Stmt → Execution Value) : Value → List Stmt → Execution Value
  | last, [] => pure last
  | _, s :: rest => do
    match ← eval s with
    | .returned v => pure v
    | .error fault => pure (.error fault)
    | v => inProgram eval v rest

def answerWith (body : ScopeId → Block → Execution Value) (args : List Value) :
    Value → Execution Value
  | .closure c => do
    let scope ← newScope c.scope
    bindNames scope ((c.params.map Ident.name).zip args)
    let v ← body scope c.body
    pure v.landed
  | .builtin b => call b args
  | v => refuse (.notFunction v.kind)

def applyWith (body : ScopeId → Block → Execution Value) (callee : Value) (args : List Value) :
    Execution Value := do
  emit (.applied callee args)
  let answer ← answerWith body args callee
  if answer.isError then pure answer
  else
    emit (.answered answer)
    pure answer

end Checked

open Execution (newClosure bindName exhausted)

mutual

/-- The value of an expression in a scope, with a test behind each evaluation. -/
def Expr.evalChecked : Nat → ScopeId → Expr → Execution Value
  | 0, _, _ => exhausted
  | _ + 1, scope, .ident id => Checked.evalName scope id.name
  | _ + 1, _, .int _ value => pure (.int value)
  | _ + 1, _, .str _ value => pure (.str value)
  | _ + 1, _, .bool _ value => pure (.bool value)
  | n + 1, scope, .unary _ op operand => do
    let v ← Checked.taking .operand (Expr.evalChecked n scope) operand
    if v.isError then pure v else Checked.operate op [v] (Operator.unary op v)
  | n + 1, scope, .binary _ left op right => do
    let a ← Checked.taking .operand (Expr.evalChecked n scope) left
    if a.isError then pure a
    else
      let b ← Checked.taking .operand (Expr.evalChecked n scope) right
      if b.isError then pure b else Checked.operate op [a, b] (Operator.binary op a b)
  | n + 1, scope, .cond _ test yes no => do
    let v ← Checked.taking .test (Expr.evalChecked n scope) test
    if v.isError then pure v
    else if v.isTruthy then Checked.inTurn (Stmt.evalChecked n scope) .null yes.body
    else match no with
      | some block => Checked.inTurn (Stmt.evalChecked n scope) .null block.body
      | none => pure .null
  | _ + 1, scope, .fn _ params body => .closure <$> newClosure params body scope
  | n + 1, scope, .call _ callee args => do
    let f ← Checked.taking .callee (Expr.evalChecked n scope) callee
    if f.isError then pure f
    else
      match ← Checked.each (Checked.taking .argument (Expr.evalChecked n scope)) args with
      | .ok vs =>
        Checked.applyWith
          (fun inner block => Checked.inTurn (Stmt.evalChecked n inner) .null block.body) f vs
      | .error fault => pure fault

def Stmt.evalChecked : Nat → ScopeId → Stmt → Execution Value
  | 0, _, _ => exhausted
  | n + 1, scope, .bind _ id value => do
    let v ← valueOr (Checked.taking .binding (Expr.evalChecked n scope)) value
    if v.isError then pure v
    else
      bindName scope id.name v
      pure .null
  | n + 1, scope, .ret _ value => do
    let v ← valueOr (Checked.taking .returning (Expr.evalChecked n scope)) value
    if v.isError then pure v else pure (.returned v)
  | n + 1, scope, .expr _ value => valueOr (Expr.evalChecked n scope) value
  | n + 1, scope, .block body => Checked.inTurn (Stmt.evalChecked n scope) .null body.body

end

def Block.evalChecked (n : Nat) (scope : ScopeId) (b : Block) : Execution Value :=
  Checked.inTurn (Stmt.evalChecked n scope) .null b.body

def applyChecked (n : Nat) (callee : Value) (args : List Value) : Execution Value :=
  Checked.applyWith (Block.evalChecked n) callee args

def Program.evalChecked (n : Nat) (scope : ScopeId) (p : Program) : Execution Value :=
  Checked.inProgram (Stmt.evalChecked n scope) .null p.body

end LetFn
