import LetFn.Tree.Equality
import LetFn.Tree.Text
import LetFn.Text.Decimal

/-!
# Values

What an expression stands for at run time. A closure is a function literal
together with the scope in which it was evaluated; closures are told apart by a
number that no two evaluations share. The value of a `return` on its way out of
the blocks around it is a value of its own, and so is a fault that a host hands
to a program.
-/

namespace LetFn

/-- A scope, by its number in the store that holds it. -/
structure ScopeId where
  index : Nat
deriving DecidableEq, Repr, Inhabited

/-- The kinds of values, as faults name them. -/
inductive ValueKind where
  | int | string | bool | null | returned | error | function | builtin
deriving DecidableEq, Repr, Inhabited

def ValueKind.label : ValueKind → String
  | int => "INTEGER"
  | string => "STRING"
  | bool => "BOOLEAN"
  | null => "NULL"
  | returned => "RETURN_VALUE"
  | error => "ERROR"
  | function => "FUNCTION"
  | builtin => "BUILTIN"

/-- Why a program stopped before its end. -/
inductive Fault where
  | typeMismatch (left : ValueKind) (op : String) (right : ValueKind)
  | unknownBinary (operands : ValueKind) (op : String)
  | unknownUnary (op : String) (operand : ValueKind)
  | divisionByZero
  | unbound (name : String)
  | notFunction (callee : ValueKind)
  | argumentCount (found : Nat)
  | argumentKind (found : ValueKind)
  /-- A fault that a host has put into words itself. -/
  | stated (message : String)
deriving DecidableEq, Repr

def Fault.message : Fault → String
  | typeMismatch left op right =>
    "type mismatch: " ++ left.label ++ " " ++ op ++ " " ++ right.label
  | unknownBinary operands op =>
    "unknown operator: " ++ operands.label ++ " " ++ op ++ " " ++ operands.label
  | unknownUnary op operand => "unknown operator: " ++ op ++ operand.label
  | divisionByZero => "division by zero"
  | unbound name => "identifier not found: " ++ name
  | notFunction callee => "not a function: " ++ callee.label
  | argumentCount found =>
    "wrong number of arguments. got=" ++ String.ofList (Decimal.write found) ++ ", want=1"
  | argumentKind found => "argument to len not supported, got " ++ found.label
  | stated message => message

/-- The functions that every program has. -/
inductive Builtin where
  /-- The number of characters of a string. -/
  | len
  /-- Prints each argument on a line of its own. -/
  | puts
deriving DecidableEq, Repr

namespace Builtin

/-- The name that stands for a builtin function where no binding hides it. -/
def name : Builtin → String
  | len => "len"
  | puts => "puts"

def lookup (name : String) : Option Builtin :=
  [len, puts].find? fun b => b.name == name

@[simp] theorem lookup_name (b : Builtin) : lookup b.name = some b := by cases b <;> decide

end Builtin

/-- A function literal that has been evaluated in a scope. -/
structure Closure where
  id : Nat
  params : List Ident
  body : Block
  scope : ScopeId
deriving DecidableEq

/-- What an expression stands for. -/
inductive Value where
  | int (value : Int64)
  | str (value : String)
  | bool (value : Bool)
  | null
  /-- The value of a `return` that has not yet left its function or program. -/
  | returned (value : Value)
  | error (fault : Fault)
  | closure (closure : Closure)
  | builtin (builtin : Builtin)
deriving DecidableEq

instance : Inhabited Value := ⟨.null⟩

/-- The text of a function: its literal, with the body on a line of its own. -/
def Closure.text (c : Closure) : List Char :=
  "fn(".toList ++ paramsText c.params ++ ") \x7b\n".toList ++ c.body.text ++ "\n\x7d".toList

namespace Value

def kind : Value → ValueKind
  | int _ => .int
  | str _ => .string
  | bool _ => .bool
  | null => .null
  | returned _ => .returned
  | error _ => .error
  | closure _ => .function
  | builtin _ => .builtin

def text : Value → List Char
  | int value => Decimal.write value.toInt
  | str value => value.toList
  | bool true => "true".toList
  | bool false => "false".toList
  | null => "null".toList
  | returned value => value.text
  | error fault => "ERROR: ".toList ++ fault.message.toList
  | closure c => c.text
  | builtin _ => "builtin function".toList

def inspect (v : Value) : String := String.ofList v.text

/-- Whether two values are one and the same. Integers and strings never are: the language
compares integers by their value and does not compare strings. -/
def same : Value → Value → Bool
  | bool a, bool b => a == b
  | null, null => true
  | closure c, closure d => c.id == d.id
  | builtin a, builtin b => a == b
  | _, _ => false

/-- Whether a condition takes its first branch. -/
def isTruthy : Value → Bool
  | null => false
  | bool b => b
  | _ => true

def isReturned : Value → Bool
  | returned _ => true
  | _ => false

/-- A value that has left its function or program: one `return` is over. -/
def landed : Value → Value
  | returned v => v
  | v => v

@[simp] theorem landed_returned (v : Value) : (returned v).landed = v := rfl

end Value

end LetFn
